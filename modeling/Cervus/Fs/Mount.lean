import Cervus.Fs.Journal

/-! Mounting a volume and syncing it: the superblock and the descriptors are
loaded, the journal is recovered, and the loaded copies are what later goes back
to the device. -/

namespace Cervus.Fs

open List Option Disk
open Net (Byte rd16be rd32be be16 be32)

def roCompatGdtCsum : Nat := 0x0010

def bgFlags : Nat := 18
def bgItableUnused : Nat := 28

def groupCsum (fs : Ext2) : Bool :=
  rd32le fs.sb sFeatureRoCompat &&& (roCompatGdtCsum ||| roCompatMetadataCsum) ≠ 0

/-- `ext2_mount` up to the recovery, when memory and device do not fail; `none` for a
superblock it refuses or divides by zero with. -/
def ext2Load (E : Env) (d : Image) : Option Ext2 :=
  let sb := read d superOffset superSize
  if rd16le sb sMagic ≠ superMagic then none
  else (ext2Geometry sb).toOption.bind fun g =>
    -- a table of no bytes is not allocated: `kmalloc(0)` is `NULL`
    if g.gdtBlocks = 0 then none
    else
      let gdtBlock := if g.blockSize = 1024 then 2 else 1
      let gdt := read d (gdtBlock * g.blockSize) (g.gdtBlocks * g.blockSize)
      some {
        sb, gdt, gdtShadow := some gdt
        blockSize := g.blockSize, groupsCount := g.groupsCount, descSize := g.descSize
        dirty := false
        hasCsum := rd32le sb sFeatureRoCompat &&& roCompatMetadataCsum ≠ 0
        csumSeed :=
          if rd32le sb sFeatureIncompat &&& incompatCsumSeed ≠ 0 then rd32le sb sCsumSeed
          else E.crc32c 0xFFFFFFFF ((sb.drop sUuid).take 16)
        journalWritable := true }

def hasJournal (sb : List Byte) : Bool :=
  rd32le sb sFeatureCompat &&& compatHasJournal ≠ 0 ∧ rd32le sb sJournalInum ≠ 0

def clearUnusedStep (descSize : Nat) (gdt : List Byte) (g : Nat) : List Byte :=
  let at_ := g * descSize
  if rd16le gdt (at_ + bgItableUnused) = 0 ∧ rd16le gdt (at_ + bgFlags) = 0 then gdt
  else patch (patch gdt (at_ + bgItableUnused) (le16 0)) (at_ + bgFlags) (le16 0)

def clearUnusedGdt (fs : Ext2) (gdt : List Byte) : List Byte :=
  if groupCsum fs then gdt
  else (range fs.groupsCount).foldl (clearUnusedStep fs.descSize) gdt

def clearUnused (fs : Ext2) : Ext2 :=
  let gdt := clearUnusedGdt fs fs.gdt
  { fs with gdt, dirty := fs.dirty || gdt != fs.gdt }

/-- `ext2_mount` up to the block cache: the volume and the device writes made. -/
def ext2Mount (E : Env) (fuel : Nat) (d : Image) : Option (Ext2 × List (Nat × List Byte)) := do
  let fs ← ext2Load E d
  let (fs, ws) ← if hasJournal fs.sb then jbd2Recover E fuel fs d else some (fs, [])
  return (clearUnused fs, ws)

/-- `ext2_sync` with nothing in the block cache: the writes it makes. -/
def ext2Sync (E : Env) (fs : Ext2) : Ext2 × List (Nat × List Byte) :=
  if fs.dirty then
    let fs := sbCsumSet E fs
    let sb := (superOffset, fs.sb)
    let fs := gdCsumAll E fs
    let bytes := fs.groupsCount * fs.descSize % 2 ^ 32
    let gdt := (gdtBlock fs * fs.blockSize, fs.gdt.take bytes)
    ({ fs with dirty := false }, [sb, gdt])
  else (fs, [])

/-- The journal on `d` holds one committed transaction `t`, as `txn_flush` logs it. -/
structure Committed (E : Env) (bs : Nat) (t : Txn) (d : Image) : Prop where
  mapped : E.bmap 0 ≠ 0
  magic : jsbField E bs d 0 = jbd2Magic
  start : jsbField E bs d jStart = jsbField E bs d jFirst
  first : jsbField E bs d jFirst ≠ 0
  blocks : t ≠ []
  room : Room (jctxOf E.bmap bs (jsbOf E bs d)) t
  log : ∃ uuid : List Byte, uuid.length = 16 ∧
    OnLog (jctxOf E.bmap bs (jsbOf E bs d)) (jsbField E bs d jSequence) uuid t d

def gdtOn (fs : Ext2) (d : Image) : List Byte :=
  clearUnusedGdt fs (read d (gdtBlock fs * fs.blockSize) (fs.gdtBlocks * fs.blockSize))

def sbOn (d : Image) : List Byte := clearRecover (read d superOffset superSize)

/-- The mounted volume and the device agree with the replayed log, and a sync
that writes the loaded copies back keeps it: `fs` is the volume as loaded from
`d`, `fs'` and `ws` what the mount makes of it, and `r` the device with the blocks of
the log in place. The journal superblock, the recover flag and, once synced, the checksums
may differ. -/
structure Reflects (E : Env) (fs fs' : Ext2) (ws : List (Nat × List Byte)) (d r : Image) :
    Prop where
  device : ∀ a, ¬(superOffset ≤ a ∧ a < superOffset + superSize) →
    ¬(E.bmap 0 * fs.blockSize ≤ a ∧ a < E.bmap 0 * fs.blockSize + fs.blockSize) →
    run d ws a = r a
  super : read (run d ws) superOffset superSize = sbOn r
  sb : fs'.sb = sbOn r
  gdt : fs'.gdt = gdtOn fs r
  syncSb : read (run (run d ws) (ext2Sync E { fs' with dirty := true }).2)
    superOffset sChecksum = (sbOn r).take sChecksum
  syncGdt : ∀ i < fs.groupsCount * fs.descSize,
    (∀ g < fs.groupsCount, i < g * fs.descSize + bgChecksum ∨
    g * fs.descSize + bgChecksum + 2 ≤ i) →
    run (run d ws) (ext2Sync E { fs' with dirty := true }).2
      (gdtBlock fs * fs.blockSize + i) = (gdtOn fs r).getD i 0

theorem length_sbOn (d : Image) : (sbOn d).length = superSize := length_clearRecover length_read

section
variable {E : Env} {d : Image} {fs : Ext2} {t : Txn} {fuel : Nat}

theorem clearUnusedGdt_congr {fs fs' : Ext2} {gdt : List Byte} (hg : groupCsum fs' = groupCsum fs)
    (h2 : fs'.groupsCount = fs.groupsCount) (h3 : fs'.descSize = fs.descSize) :
    clearUnusedGdt fs' gdt = clearUnusedGdt fs gdt := by
  simp only [clearUnusedGdt, hg, h2, h3]

theorem groupCsum_clearRecover {fs fs' : Ext2} (h : fs.sb.length = superSize)
    (hs : fs'.sb = clearRecover fs.sb) : groupCsum fs' = groupCsum fs := by
  have hf : ∀ i, 100 ≤ i → (clearRecover fs.sb).getD i 0 = fs.sb.getD i 0 := by
    intro i hi
    refine getD_patch_of_notMem (.inl ?_) (.inr ?_)
    · rw [h]
      decide
    · exact show 96 + 1 ≤ i by omega
  unfold groupCsum rd32le rd16le
  rw [hs, hf _ (by decide), hf _ (by decide), hf _ (by decide), hf _ (by decide)]

theorem ext2Load_spec (h : ext2Load E d = some fs) : fs.sb = read d superOffset superSize ∧
      fs.gdt = read d (gdtBlock fs * fs.blockSize) (fs.gdtBlocks * fs.blockSize) ∧
      ∃ k, fs.blockSize = 1024 * 2 ^ k := by
  unfold ext2Load at h
  generalize read d superOffset superSize = sb at h
  simp only [ite_none_left_eq_some, bind_eq_some_iff] at h
  obtain ⟨-, g, hg, -, h⟩ := h
  cases hx : ext2Geometry sb with
  | error e =>
    rw [hx] at hg
    cases hg
  | ok g' =>
    rw [hx] at hg
    obtain rfl : g' = g := some.inj hg
    obtain ⟨-, -, -, hgeo⟩ := ext2Geometry_ok.mp hx
    have hk : g'.blockSize = 1024 * 2 ^ rd32le sb sLogBlockSize := by rw [hgeo, Nat.shiftLeft_eq]
    rw [← some.inj h]
    exact ⟨rfl, rfl, _, hk⟩

theorem le_length_patch {p new : List Byte} {off : Nat} : p.length ≤ (patch p off new).length := by
  simp only [patch, length_append, length_take, length_drop]
  omega

theorem gdCsum_frame {descSize seed n i : Nat} {gdt : List Byte} (hi : i < gdt.length)
    (h : ∀ g < n, i < g * descSize + bgChecksum ∨ g * descSize + bgChecksum + 2 ≤ i) :
    gdt.length ≤ ((range n).foldl (gdCsumSet E descSize seed) gdt).length ∧
      ((range n).foldl (gdCsumSet E descSize seed) gdt).getD i 0 = gdt.getD i 0 := by
  induction n with
  | zero => exact ⟨le_refl _, rfl⟩
  | succ n ih =>
    obtain ⟨ih1, ih2⟩ := ih fun g hg => h g (by omega)
    rw [range_succ, foldl_append, foldl_cons, foldl_nil]
    generalize (range n).foldl (gdCsumSet E descSize seed) gdt = p at ih1 ih2 ⊢
    unfold gdCsumSet
    refine ⟨?_, ?_⟩
    · exact ih1.trans le_length_patch
    · rw [getD_patch_of_notMem (.inr (by omega)) (h n (Nat.lt_succ_self n)), ih2]

/-- The descriptors lie behind the superblock. -/
theorem super_le_gdtBlock (hb : ∃ k, fs.blockSize = 1024 * 2 ^ k) :
    superOffset + superSize ≤ gdtBlock fs * fs.blockSize := by
  obtain ⟨k, hk⟩ := hb
  unfold gdtBlock superOffset superSize
  rw [hk]
  rcases Nat.eq_zero_or_pos k with rfl | hpos
  · norm_num
  · have : 2 ^ 1 ≤ 2 ^ k := Nat.pow_le_pow_right (by norm_num) hpos
    split_ifs <;> omega

theorem sbCsumSet_frame (E : Env) (hs : fs.sb.length = superSize) :
    (sbCsumSet E fs).sb.take sChecksum = fs.sb.take sChecksum ∧
      (sbCsumSet E fs).sb.length = superSize := by
  unfold sbCsumSet
  split_ifs
  · have h1 : sChecksum ≤ fs.sb.length := by rw [hs]; decide
    refine ⟨?_, ?_⟩
    · simp only [patch, append_assoc]
      rw [take_append_of_le_length (by rw [length_take]; omega), take_take, Nat.min_self]
    · refine (length_patch ?_).trans hs
      rw [hs]
      exact show 1020 + 4 ≤ 1024 by decide
  · exact ⟨rfl, hs⟩

theorem gdCsumAll_frame (E : Env) {i : Nat} (hi : i < fs.gdt.length)
    (h : ∀ g < fs.groupsCount,
      i < g * fs.descSize + bgChecksum ∨ g * fs.descSize + bgChecksum + 2 ≤ i) :
    fs.gdt.length ≤ (gdCsumAll E (sbCsumSet E fs)).gdt.length ∧
      (gdCsumAll E (sbCsumSet E fs)).gdt.getD i 0 = fs.gdt.getD i 0 := by
  by_cases hc : fs.hasCsum = true
  · simp only [gdCsumAll, sbCsumSet, hc, if_true]
    exact gdCsum_frame hi h
  · simp [gdCsumAll, sbCsumSet, hc]

/-- A sync writes the superblock and the table but for their checksums. -/
theorem ext2Sync_spec (E : Env) (fs : Ext2) (d' : Image) (hd : fs.dirty = true)
    (hs : fs.sb.length = superSize) (hb : ∃ k, fs.blockSize = 1024 * 2 ^ k)
    (hg : fs.groupsCount * fs.descSize ≤ fs.gdt.length)
    (hw : fs.groupsCount * fs.descSize < 2 ^ 32) :
    read (run d' (ext2Sync E fs).2) superOffset sChecksum = fs.sb.take sChecksum ∧
      ∀ i < fs.groupsCount * fs.descSize,
        (∀ g < fs.groupsCount,
          i < g * fs.descSize + bgChecksum ∨ g * fs.descSize + bgChecksum + 2 ≤ i) →
        run d' (ext2Sync E fs).2 (gdtBlock fs * fs.blockSize + i) = fs.gdt.getD i 0 := by
  have hoff := super_le_gdtBlock hb
  obtain ⟨hsb, hlen⟩ := sbCsumSet_frame E hs
  have hw' : fs.groupsCount * fs.descSize % 4294967296 = fs.groupsCount * fs.descSize :=
    Nat.mod_eq_of_lt hw
  have hcs : (ext2Sync E fs).2 = [(superOffset, (sbCsumSet E fs).sb),
      (gdtBlock fs * fs.blockSize,
        (gdCsumAll E (sbCsumSet E fs)).gdt.take (fs.groupsCount * fs.descSize))] := by
    by_cases hc : fs.hasCsum = true <;>
      simp [ext2Sync, gdCsumAll, sbCsumSet, gdtBlock, hd, hc, hw']
  rw [hcs]
  simp only [run_cons, run_nil]
  refine ⟨?_, fun i hi hg' => ?_⟩
  · rw [read_write_disjoint (.inl (by simp only [sChecksum, superSize] at *; omega)),
      read_write_take (by rw [hlen]; decide), hsb]
  · obtain ⟨h1, h2⟩ := gdCsumAll_frame E (by omega) hg'
    have hl :
        i < ((gdCsumAll E (sbCsumSet E fs)).gdt.take (fs.groupsCount * fs.descSize)).length := by
      rw [length_take]
      omega
    rw [write_inside hl, getElem_take, ← h2, getD_eq_getElem _ _ (by omega)]

theorem le_length_clearUnusedGdt (fs : Ext2) (gdt : List Byte) :
    gdt.length ≤ (clearUnusedGdt fs gdt).length := by
  have h : ∀ (l : List Nat) (gdt : List Byte),
      gdt.length ≤ (l.foldl (clearUnusedStep fs.descSize) gdt).length := by
    intro l
    induction l with
    | nil => exact fun gdt => le_refl _
    | cons g l ih =>
      intro gdt
      refine le_trans ?_ (ih _)
      simp only [clearUnusedStep]
      split_ifs
      · exact le_refl _
      · exact le_trans le_length_patch le_length_patch
  unfold clearUnusedGdt
  split_ifs
  · exact le_refl _
  · exact h _ gdt

theorem groups_le_gdtBlocks (hb : 0 < fs.blockSize)
    (hw : fs.groupsCount * fs.descSize + fs.blockSize ≤ 2 ^ 32) :
    fs.groupsCount * fs.descSize ≤ fs.gdtBlocks * fs.blockSize := by
  unfold Ext2.gdtBlocks gdtBlocks
  rw [Nat.mod_eq_of_lt (by omega), Nat.mod_eq_of_lt (by omega)]
  have := Nat.lt_div_mul_add hb (a := fs.groupsCount * fs.descSize + fs.blockSize - 1)
  omega

theorem Pending.committed {bs : Nat} {d1 : Image} (hj : JournalOk E bs d)
    (hroom : jsbField E bs d jFirst + 2 + t.length ≤ jsbField E bs d jMaxlen)
    (ht : Staged E.bmap bs (jsbField E bs d jMaxlen) t) (hne : t ≠ [])
    (hm : jsbField E bs d 0 = jbd2Magic) (hp : Pending E bs d t d1) : Committed E bs t d1 := by
  obtain ⟨h1, h2, h3⟩ := hp.fields hj
  have hbs := hj.bs_ge
  have hl : (jsbOf E bs d).length = bs := length_read
  have hfirst : jsbField E bs d1 jFirst = jsbField E bs d jFirst := by
    rw [jsbField, hp.jsb, withStart_field (by omega) (by decide)]
    rfl
  refine ⟨hj.mapped 0 (by have := hj.first; omega), ?_, h1.trans hfirst.symm, ?_, hne, ?_, ?_⟩
  · rw [jsbField, hp.jsb, withStart_field (by omega) (by decide)]
    exact hm
  · rw [hfirst]
    exact ne_of_gt hj.first.1
  · rw [h3]
    exact hj.room hroom ht
  · rw [h2, h3]
    exact ⟨_, length_uuid hj, hp.log⟩

theorem jbd2Recover_passes (fs : Ext2) {endSeq : Nat} {st : PassState} (h0 : E.bmap 0 ≠ 0)
    (hmagic : jsbField E fs.blockSize d 0 = jbd2Magic)
    (hstart : jsbField E fs.blockSize d jStart ≠ 0)
    (hp : jbd2Passes (jctxOf E.bmap fs.blockSize (jsbOf E fs.blockSize d)) fuel
      (jsbField E fs.blockSize d jStart) (jsbField E fs.blockSize d jSequence) d =
        some (endSeq, st)) :
    ∃ writable, jbd2Recover E fuel fs d = some
      ({ fs with sb := clearRecover fs.sb, journalWritable := writable },
        st.writes ++ [(E.bmap 0 * fs.blockSize, withStart (jsbOf E fs.blockSize d) 0 endSeq)] ++
          [(superOffset, clearRecover fs.sb)]) := by
  have hread : readLog E.bmap fs.blockSize d 0 = some (jsbOf E fs.blockSize d) := if_neg h0
  unfold jsbField at hmagic hstart hp
  refine ⟨rd32be (jsbOf E fs.blockSize d) jFeatureIncompat = 0 ∨
      rd32be (jsbOf E fs.blockSize d) jFeatureIncompat = featRevoke, ?_⟩
  simp only [jbd2Recover, hread, hmagic, hstart, hp, ne_eq, not_true_eq_false, if_false,
    bind_eq_bind, bind_some, writeLog, h0, withStart, Option.pure_def]

/-- A mount replays the log, but keeps the superblock and table that it read before. -/
theorem ext2Mount_journal (hload : ext2Load E d = some fs) (hj : hasJournal fs.sb = true)
    (hc : Committed E fs.blockSize t d) (hfuel : 3 ≤ fuel) :
    ∃ fs' ws jsb, ext2Mount E fuel d = some (fs', ws) ∧ jsb.length = fs.blockSize ∧
      run d ws = write (write (run d (blocks fs.blockSize t)) (E.bmap 0 * fs.blockSize) jsb)
        superOffset (sbOn d) ∧
      fs'.sb = sbOn d ∧ fs'.gdt = gdtOn fs d ∧ fs'.blockSize = fs.blockSize ∧
      fs'.groupsCount = fs.groupsCount ∧ fs'.descSize = fs.descSize := by
  obtain ⟨hsb, hgdt, k, hk⟩ := ext2Load_spec hload
  have hbs : 1024 ≤ fs.blockSize := by
    have := Nat.two_pow_pos k
    omega
  have hl : (jsbOf E fs.blockSize d).length = fs.blockSize := length_read
  obtain ⟨uuid, hu, hlog⟩ := hc.log
  obtain ⟨n, rfl⟩ := Nat.exists_eq_add_of_le' hfuel
  have hp := @jbd2Passes_onLog _ _ n _ _ _ hc.room hc.blocks hu (rd32be_lt _ _) hlog
  obtain ⟨writable, hrec⟩ := jbd2Recover_passes fs hc.mapped hc.magic
    (by rw [hc.start]; exact hc.first) (by rw [hc.start]; exact hp)
  have hjl : ∀ seq, (withStart (jsbOf E fs.blockSize d) 0 seq).length = fs.blockSize :=
    fun seq => (length_withStart (by omega)).trans hl
  have hlen : fs.sb.length = superSize := by rw [hsb, length_read]
  have hm : ext2Mount E (n + 3) d = some (clearUnused
      { fs with sb := clearRecover fs.sb, journalWritable := writable },
      blocks fs.blockSize t ++ [(E.bmap 0 * fs.blockSize, withStart (jsbOf E fs.blockSize d) 0
        ((jsbField E fs.blockSize d jSequence + 1) % 2 ^ 32))] ++
          [(superOffset, clearRecover fs.sb)]) := by
    simp only [ext2Mount, hload, hj, bind_eq_bind, bind_some, if_true, Option.pure_def]
    rw [hrec]
    rfl
  refine ⟨_, _, _, hm, hjl ((jsbField E fs.blockSize d jSequence + 1) % 2 ^ 32), ?_, ?_, ?_,
    rfl, rfl, rfl⟩
  · rw [Disk.run_append, Disk.run_append, sbOn, ← hsb]
    rfl
  · rw [sbOn, ← hsb]
    rfl
  · rw [gdtOn, ← hgdt]
    exact clearUnusedGdt_congr (groupCsum_clearRecover hlen rfl) rfl rfl

end

def journalSb (free : Nat) : List Byte :=
  le32 0 ++ le32 1000 ++ le32 0 ++ le32 free ++ replicate 16 0 ++ le32 8192 ++
    replicate 20 0 ++ le16 superMagic ++ replicate 34 0 ++ le32 compatHasJournal ++ le32 4 ++
    replicate 124 0 ++ le32 8 ++ replicate 796 0

def crashed (t : Txn) : Image :=
  loggedImage smallEnv 1024 smallImage (journalSb 5)
    ((descriptor 1024 (jsbField smallEnv 1024 smallImage jSequence)
      (((jsbOf smallEnv 1024 smallImage).drop jUuid).take 16) t).getD []) t

def journalFs (t : Txn) : Ext2 :=
  let gdt := read (crashed t) (2 * 1024) 1024
  { sb := journalSb 5, gdt, gdtShadow := some gdt, blockSize := 1024, groupsCount := 1
    descSize := groupDescSize, dirty := false, hasCsum := false, csumSeed := 0
    journalWritable := true }

theorem crashed_spec {t : Txn} (hne : t ≠ []) (hn : t.length ≤ 4)
    (ht : Staged smallEnv.bmap 1024 (jsbField smallEnv 1024 smallImage jMaxlen) t) :
    ext2Load smallEnv (crashed t) = some (journalFs t) ∧ Committed smallEnv 1024 t (crashed t) ∧
      sbOn (crashed t) = clearRecover (journalSb 5) := by
  have hroom : jsbField smallEnv 1024 smallImage jFirst + 2 + t.length ≤
      jsbField smallEnv 1024 smallImage jMaxlen := by
    have h : rd32be smallJsb jFirst = 1 ∧ rd32be smallJsb jMaxlen = 8 := by decide +kernel
    rw [jsbField, jsbField, smallImage_jsb, h.1, h.2]
    omega
  have hsome : (descriptor 1024 (jsbField smallEnv 1024 smallImage jSequence)
      (((jsbOf smallEnv 1024 smallImage).drop jUuid).take 16) t).isSome :=
    (descriptor_isSome (length_uuid smallImage_ok) hne).mpr (by omega)
  obtain ⟨desc, hd⟩ := isSome_iff_exists.mp hsome
  have hc : crashed t = loggedImage smallEnv 1024 smallImage (journalSb 5) desc t := by
    rw [crashed, hd]
    rfl
  have hl : (journalSb 5).length = superSize := by decide +kernel
  have hp : Pending smallEnv 1024 smallImage t (crashed t) := by
    rw [hc]
    exact loggedImage_pending smallImage_ok hroom ht hl hd
  have hsb : read (crashed t) superOffset superSize = journalSb 5 := by
    rw [hc]
    exact loggedImage_super smallImage_ok hroom ht (descriptor_eq_some hd).2.1 hl
  refine ⟨?_, hp.committed smallImage_ok hroom ht hne ?_, by rw [sbOn, hsb]⟩
  · have hg : ext2Geometry (journalSb 5) = .ok ⟨1024, 128, 1, 8, groupDescSize⟩ :=
      ext2Geometry_ok.mpr
        ⟨by decide +kernel, by decide +kernel, by decide +kernel, by decide +kernel⟩
    have hm : rd16le (journalSb 5) sMagic = superMagic := by decide +kernel
    have hf : (rd32le (journalSb 5) sFeatureRoCompat &&& roCompatMetadataCsum = 0) ∧
        rd32le (journalSb 5) sFeatureIncompat &&& incompatCsumSeed = 0 := by decide +kernel
    simp only [ext2Load, hsb, hg, hm, hf, Except.toOption, ne_eq, not_true_eq_false, if_false,
      bind_some]
    rfl
  · rw [jsbField, smallImage_jsb]
    decide +kernel

theorem superTxn_staged :
    Staged smallEnv.bmap 1024 (jsbField smallEnv 1024 smallImage jMaxlen) [(1, journalSb 4)] := by
  refine ⟨by decide, by decide +kernel, ?_⟩
  intro e he j _
  rw [mem_singleton.mp he]
  simp only [smallEnv]
  omega

end Cervus.Fs
