import Cervus.Fs.Mount

/-! What a loss of power during a transaction leaves after the next mount. -/

namespace Cervus.Fs

open List Disk Prod
open Net (Byte rd16be rd32be be16 be32)

/-- A mounted volume between two transactions: the journal is empty, and apart
from the superblock and the descriptors. The table of descriptors is as long as its
32-bit size says; where checksums are set it has to hold every group. -/
structure Clean (E : Env) (fs : Ext2) (d : Image) : Prop where
  journal : JournalOk E fs.blockSize d
  magic : jsbField E fs.blockSize d 0 = jbd2Magic
  start : jsbField E fs.blockSize d jStart = 0
  sb : fs.sb.length = superSize
  desc : groupDescSize ≤ fs.descSize
  gdt : fs.gdt.length = fs.gdtBlocks * fs.blockSize
  table : fs.hasCsum → fs.groupsCount * fs.descSize ≤ fs.gdt.length
  apart : ∀ j < jsbField E fs.blockSize d jMaxlen, ∀ i < fs.gdtBlocks, E.bmap j ≠ gdtBlock fs + i
  number : gdtBlock fs + fs.gdtBlocks < 2 ^ 32

structure CleanLog (E : Env) (bs : Nat) (d : Image) : Prop where
  journal : JournalOk E bs d
  magic : jsbField E bs d 0 = jbd2Magic
  start : jsbField E bs d jStart = 0

theorem Clean.log {E : Env} {fs : Ext2} {d : Image} (hc : Clean E fs d) :
    CleanLog E fs.blockSize d :=
  ⟨hc.journal, hc.magic, hc.start⟩

/-- The device after a mount that finds the image `d`: the superblock is loaded,
the journal recovered. -/
def recovery (E : Env) (fuel : Nat) (fs : Ext2) (d : Image) : Option (List (Nat × List Byte)) :=
  (jbd2Recover E fuel { fs with sb := Disk.read d superOffset superSize } d).map snd

def InSuper (a : Nat) : Prop := superOffset ≤ a ∧ a < superOffset + superSize

/-- Two devices hold the same in block `b`, whatever the recover flag. -/
def SameBlock (bs b : Nat) (f g : Image) : Prop :=
  (b = sbBlock bs → sbOn f = sbOn g) ∧
    ∀ i < bs, ¬InSuper (b * bs + i) → f (b * bs + i) = g (b * bs + i)

def SameOn (bs : Nat) (t : Txn) (f g : Image) : Prop := ∀ e ∈ t, SameBlock bs e.1 f g

/-- After a loss of power at any point of the flush the next mount finds every
block of the transaction old or every one new, and leaves nothing to recover. -/
def CrashAtomic (E : Env) (fuel : Nat) (fs : Ext2) (d : Image) (t : Txn) : Prop :=
  ∃ fs' groups, txnFlush E d fs t = some (fs', groups) ∧
    let bs := fs.blockSize
    let staged := (txnStageMeta E d fs t).2
    ∀ d', Disk.Crash d groups d' → ∃ ws, recovery E fuel fs d' = some ws ∧
      (SameOn bs staged (run d' ws) d ∨
        SameOn bs staged (run d' ws) (run d (blocks bs staged))) ∧
      recovery E fuel fs (run d' ws) = some []

def OneKind (bs : Nat) (d : Image) (T : Txn) : Prop :=
  let new := run d (blocks bs T)
  sbOn new = sbOn d ∨
    ∀ e ∈ T, ∀ i < bs, ¬InSuper (e.1 * bs + i) → new (e.1 * bs + i) = d (e.1 * bs + i)

def OneBlock (bs : Nat) (d : Image) (T : Txn) : Prop :=
  let new := run d (blocks bs T)
  ∀ e ∈ T, ∀ e' ∈ T, ¬SameBlock bs e.1 new d → ¬SameBlock bs e'.1 new d → e.1 = e'.1

section staging
variable {E : Env} {d : Image} {fs : Ext2} {t : Txn} {bs block maxlen : Nat}
    {f : List Byte → List Byte}

theorem Staged.txnUpdate (h : Staged E.bmap bs maxlen t) (hb : block < 2 ^ 32)
    (ho : ∀ j < maxlen, block ≠ E.bmap j)
    (hf : ∀ p : List Byte, p.length = bs → (f p).length = bs) :
    Staged E.bmap bs maxlen (txnUpdate t bs d block f) := by
  unfold Fs.txnUpdate
  split_ifs
  · refine ⟨fun e he => ?_, fun e he => ?_, fun e he => ?_⟩ <;>
      obtain ⟨v, hv, rfl⟩ := mem_map.mp he <;> split_ifs
    · exact h.number v hv
    · exact h.number v hv
    · exact hf _ (h.whole v hv)
    · exact h.whole v hv
    · exact h.outside v hv
    · exact h.outside v hv
  · refine ⟨fun e he => ?_, fun e he => ?_, fun e he => ?_⟩ <;>
      rcases mem_append.mp he with he | he
    · exact h.number e he
    · rw [mem_singleton.mp he]
      exact hb
    · exact h.whole e he
    · rw [mem_singleton.mp he]
      exact hf _ length_read
    · exact h.outside e he
    · rw [mem_singleton.mp he]
      exact ho

theorem txnUpdate_nodup (h : (t.map fst).Nodup) : ((txnUpdate t bs d block f).map fst).Nodup := by
  rw [txnUpdate_fst]
  split_ifs with hm
  · exact h
  · rw [nodup_append]
    refine ⟨h, by simp, fun a ha b hb he => hm ?_⟩
    rwa [← mem_singleton.mp hb, ← he]

theorem mem_txnUpdate_of_ne {e : Nat × List Byte} (he : e ∈ t) (hb : e.1 ≠ block) :
    e ∈ txnUpdate t bs d block f := by
  unfold Fs.txnUpdate
  split_ifs
  · exact mem_map.mpr ⟨e, he, if_neg hb⟩
  · exact mem_append_left _ he

theorem mem_txnUpdate_self (h : ∀ e ∈ t, e.2.length = bs) :
    ∃ p : List Byte, p.length = bs ∧ (block, f p) ∈ txnUpdate t bs d block f := by
  unfold Fs.txnUpdate
  simp only [txnFind_isSome]
  split_ifs with hm
  · obtain ⟨e, he, rfl⟩ := mem_map.mp hm
    exact ⟨e.2, h e he, mem_map.mpr ⟨e, he, if_pos rfl⟩⟩
  · exact ⟨_, length_read, mem_append_right _ mem_cons_self⟩

/-- The staged blocks with the superblock `sb` among them. -/
structure WithSuper (E : Env) (bs maxlen : Nat) (sb : List Byte) (t : Txn) : Prop where
  staged : Staged E.bmap bs maxlen t
  nodup : (t.map fst).Nodup
  super : ∃ p : List Byte, p.length = bs ∧ (sbBlock bs, patch p (sbOff bs) sb) ∈ t

theorem WithSuper.gdtLoop {sb : List Byte} (d : Image) (l : List Nat) (s : Ext2 × Txn)
    (h : WithSuper E s.1.blockSize maxlen sb s.2)
    (hl : ∀ i ∈ l, gdtBlock s.1 + i < 2 ^ 32 ∧
    (tableBlock s.1.blockSize s.1.gdt i).length = s.1.blockSize ∧
    ∀ j < maxlen, gdtBlock s.1 + i ≠ E.bmap j) :
    WithSuper E s.1.blockSize maxlen sb (l.foldl (stageGdtBlock d) s).2 ∧
      (l.foldl (stageGdtBlock d) s).1.sb = s.1.sb ∧
      (l.foldl (stageGdtBlock d) s).1.blockSize = s.1.blockSize := by
  induction l generalizing s with
  | nil => exact ⟨h, rfl, rfl⟩
  | cons i l ih =>
    have hi := hl i mem_cons_self
    -- one round changes the shadow and stages one block past the superblock's
    have hstep : WithSuper E s.1.blockSize maxlen sb (stageGdtBlock d s i).2 ∧
        (stageGdtBlock d s i).1.sb = s.1.sb ∧ (stageGdtBlock d s i).1.blockSize = s.1.blockSize ∧
        (stageGdtBlock d s i).1.gdt = s.1.gdt := by
      simp only [stageGdtBlock]
      split_ifs
      · exact ⟨h, rfl, rfl, rfl⟩
      · have hne : sbBlock s.1.blockSize ≠ gdtBlock s.1 + i := by
          unfold sbBlock gdtBlock
          split_ifs <;> omega
        obtain ⟨p, hp, hm⟩ := h.super
        dsimp only
        exact ⟨⟨h.staged.txnUpdate hi.1 hi.2.2 fun _ _ => hi.2.1, txnUpdate_nodup h.nodup,
          p, hp, mem_txnUpdate_of_ne hm hne⟩, rfl, rfl, rfl⟩
    obtain ⟨h1, h2, h3, h4⟩ := hstep
    have hg : gdtBlock (stageGdtBlock d s i).1 = gdtBlock s.1 := by
      simp only [gdtBlock, h3]
    have := ih (stageGdtBlock d s i) (by rw [h3]; exact h1)
      (by rw [h3, h4, hg]; exact fun k hk => hl k (mem_cons_of_mem _ hk))
    rw [h2, h3] at this
    exact this

theorem length_sbCsumSet (h : fs.sb.length = superSize) :
    (sbCsumSet E fs).sb.length = superSize := by
  unfold sbCsumSet
  split_ifs
  · refine (length_patch ?_).trans h
    rw [h]
    exact show 1020 + 4 ≤ 1024 by decide
  · exact h

theorem length_gdCsumAll (hd : groupDescSize ≤ fs.descSize)
    (hg : fs.hasCsum → fs.groupsCount * fs.descSize ≤ fs.gdt.length) :
    (gdCsumAll E fs).gdt.length = fs.gdt.length := by
  have h : fs.hasCsum = true → ∀ n ≤ fs.groupsCount,
      ((range n).foldl (gdCsumSet E fs.descSize fs.csumSeed) fs.gdt).length = fs.gdt.length := by
    intro hcsum n hn
    induction n with
    | zero => rfl
    | succ n ih =>
      have hg := hg hcsum
      rw [range_succ, foldl_append, foldl_cons, foldl_nil]
      refine (length_patch ?_).trans (ih (by omega))
      have hmul : (n + 1) * fs.descSize ≤ fs.groupsCount * fs.descSize := Nat.mul_le_mul_right _ hn
      have h2 : ∀ c, (le16 c).length = 2 := fun _ => rfl
      rw [h2]
      simp only [groupDescSize, bgChecksum, Nat.succ_mul] at *
      omega
  unfold gdCsumAll
  split_ifs with hcsum
  · exact h hcsum _ (le_refl _)
  · rfl

/-- The superblock lies in one block. -/
theorem sbOff_add_superSize_le {bs : Nat} (h : ∃ k, bs = 1024 * 2 ^ k) :
    sbOff bs + superSize ≤ bs := by
  obtain ⟨k, hk⟩ := h
  unfold sbOff superOffset superSize
  split_ifs with h
  · omega
  · have : k ≠ 0 := by
      rintro rfl
      exact h hk
    have : 2 ^ 1 ≤ 2 ^ k := Nat.pow_le_pow_right (by norm_num) (by omega)
    omega

/-- After `txn_stage_meta` the superblock is staged and no block twice. -/
theorem Clean.staged (hc : Clean E fs d)
    (ht : Staged E.bmap fs.blockSize (jsbField E fs.blockSize d jMaxlen) t)
    (hn : (t.map fst).Nodup) :
    WithSuper E fs.blockSize (jsbField E fs.blockSize d jMaxlen) (txnStageMeta E d fs t).1.sb
        (txnStageMeta E d fs t).2 ∧
      (txnStageMeta E d fs t).1.sb.length = superSize ∧
      (txnStageMeta E d fs t).1.blockSize = fs.blockSize := by
  obtain ⟨h1, h2, h3, h4⟩ := ext2CsumFinalize_frame E fs
  have hbs := hc.journal.bs_ge
  have hsb : (ext2CsumFinalize E fs).sb.length = superSize := by
    refine length_sbCsumSet ?_
    unfold gdCsumAll
    split_ifs <;> exact hc.sb
  have hgl : (ext2CsumFinalize E fs).gdt.length = fs.gdtBlocks * fs.blockSize := by
    rw [h4, length_gdCsumAll hc.desc hc.table, hc.gdt]
  have hb1 : gdtBlock (ext2CsumFinalize E fs) = gdtBlock fs := by
    simp only [gdtBlock, h1]
  have hb2 : (ext2CsumFinalize E fs).gdtBlocks = fs.gdtBlocks := by
    simp only [Ext2.gdtBlocks, h1, h2, h3]
  have hs := hc.journal.super
  have hlen : ∀ p : List Byte, p.length = fs.blockSize →
      (patch p (sbOff fs.blockSize) (ext2CsumFinalize E fs).sb).length = fs.blockSize := by
    intro p hp
    rw [length_patch, hp]
    rw [hp, hsb]
    exact sbOff_add_superSize_le hc.journal.size
  have h0 : WithSuper E fs.blockSize (jsbField E fs.blockSize d jMaxlen) (ext2CsumFinalize E fs).sb
      (txnUpdate t fs.blockSize d (sbBlock fs.blockSize)
        fun b => patch b (sbOff fs.blockSize) (ext2CsumFinalize E fs).sb) := by
    refine ⟨ht.txnUpdate ?_ (fun j hj => (hs j hj).symm) hlen, txnUpdate_nodup hn,
      mem_txnUpdate_self ht.whole⟩
    unfold sbBlock
    split_ifs <;> decide
  simp only [txnStageMeta, h1]
  generalize txnUpdate t fs.blockSize d (sbBlock fs.blockSize)
    (fun b => patch b (sbOff fs.blockSize) (ext2CsumFinalize E fs).sb) = t1 at h0 ⊢
  have hloop := WithSuper.gdtLoop d (range ((ext2CsumFinalize E fs).gdtBlocks))
    (ext2CsumFinalize E fs, t1) (by rw [h1]; exact h0) ?_
  · simp only [h1] at hloop
    rw [hloop.2.1]
    exact ⟨hloop.1, hsb, hloop.2.2⟩
  · intro i hi
    rw [mem_range, hb2] at hi
    simp only [hb1, h1]
    have hnum := hc.number
    refine ⟨by omega, ?_, fun j hj => (hc.apart j hj i hi).symm⟩
    rw [tableBlock, length_take, length_drop, hgl]
    have : (i + 1) * fs.blockSize ≤ fs.gdtBlocks * fs.blockSize := Nat.mul_le_mul_right _ hi
    rw [Nat.succ_mul] at this
    omega

end staging

theorem JournalOk.super_apart {E : Env} {bs j : Nat} {d : Image} (hj : JournalOk E bs d)
    (h : j < jsbField E bs d jMaxlen) :
    superOffset + superSize ≤ E.bmap j * bs ∨ E.bmap j * bs + bs ≤ superOffset := by
  have hr := hj.super_range
  rcases block_disjoint bs (hj.super j h) with h | h <;> omega

section recovery
variable {E : Env} {d d' : Image} {fs : Ext2} {t : Txn} {bs fuel : Nat}

structure Idle (E : Env) (bs : Nat) (d : Image) : Prop where
  mapped : E.bmap 0 ≠ 0
  magic : jsbField E bs d 0 = jbd2Magic
  start : jsbField E bs d jStart = 0
  apart : superOffset + superSize ≤ E.bmap 0 * bs ∨ E.bmap 0 * bs + bs ≤ superOffset

theorem Idle.congr (h : Idle E bs d) (hj : jsbOf E bs d' = jsbOf E bs d) : Idle E bs d' :=
  ⟨h.mapped, by rw [jsbField, hj]; exact h.magic, by rw [jsbField, hj]; exact h.start, h.apart⟩

theorem Idle.write_super {sb : List Byte} (h : Idle E bs d) (hs : sb.length = superSize) :
    Idle E bs (write d superOffset sb) := by
  refine h.congr (read_write_disjoint ?_)
  rcases h.apart with ha | ha <;> omega

theorem Idle.recovery (h : Idle E bs d) (hbs : fs.blockSize = bs) : recovery E fuel fs d =
    some (if needsRecover (Disk.read d superOffset superSize) then [(superOffset, sbOn d)]
      else []) := by
  subst hbs
  have hread : readLog E.bmap fs.blockSize d 0 = some (jsbOf E fs.blockSize d) := if_neg h.mapped
  have hm := h.magic
  have hs := h.start
  unfold jsbField at hm hs
  simp only [Fs.recovery, jbd2Recover, hread, hm, hs, ne_eq, not_true_eq_false, if_false, if_true]
  split_ifs <;> rfl

theorem Idle.settled {sb : List Byte} (h : Idle E bs d) (hbs : fs.blockSize = bs)
    (hs : sb.length = superSize) :
    Fs.recovery E fuel fs (write d superOffset (clearRecover sb)) = some [] := by
  have hl := length_clearRecover hs
  rw [(h.write_super hl).recovery hbs]
  conv_lhs => rw [← hl]
  rw [read_write, needsRecover_clear hs]
  rfl

theorem Idle.recovered (h : Idle E bs d) (hbs : fs.blockSize = bs) (fuel : Nat) :
    ∃ ws, Fs.recovery E fuel fs d = some ws ∧
    sbOn (run d ws) = sbOn d ∧ (∀ a, ¬InSuper a → run d ws a = d a) ∧
    Fs.recovery E fuel fs (run d ws) = some [] := by
  refine ⟨_, h.recovery hbs, ?_⟩
  split_ifs with hn
  · simp only [run_cons, run_nil]
    refine ⟨?_, fun a ha => write_outside ?_, h.settled hbs length_read⟩
    · have hr : Disk.read (write d superOffset (sbOn d)) superOffset superSize = sbOn d := by
        rw [← length_sbOn d, read_write]
      rw [sbOn, hr, sbOn, clearRecover_clear length_read]
    · rw [length_sbOn]
      unfold InSuper at ha
      omega
  · refine ⟨rfl, fun a _ => rfl, ?_⟩
    rw [run_nil, h.recovery hbs, if_neg hn]

theorem CleanLog.idle_of_withStart (hc : CleanLog E bs d) {jsb : List Byte} {q : Nat}
    (hl : 32 ≤ jsb.length) (hm : rd32be jsb 0 = jbd2Magic) (h : jsbOf E bs d' = withStart jsb 0 q) :
    Idle E bs d' := by
  have hf := hc.journal.first
  refine ⟨hc.journal.mapped 0 (by omega), ?_, ?_, hc.journal.super_apart (by omega)⟩
  · rw [jsbField, h, withStart_field hl (by decide), hm]
  · rw [jsbField, h, withStart_start hl, Nat.zero_mod]

/-- Recovery puts the blocks of a pending transaction in place, and once more nothing. -/
theorem Pending.recovered (hc : CleanLog E bs d) (hbs : fs.blockSize = bs) (hne : t ≠ [])
    (hn : (t.map fst).Nodup)
    (hroom : jsbField E bs d jFirst + 2 + t.length ≤ jsbField E bs d jMaxlen)
    (ht : Staged E.bmap bs (jsbField E bs d jMaxlen) t) (h : Pending E bs d t d')
    (hfuel : 3 ≤ fuel) : ∃ ws, Fs.recovery E fuel fs d' = some ws ∧
    sbOn (run d' ws) = sbOn d' ∧ (∀ e ∈ t, ∀ i (hi : i < e.2.length), ¬InSuper (e.1 * bs + i) →
      run d' ws (e.1 * bs + i) = e.2[i]) ∧ Fs.recovery E fuel fs (run d' ws) = some [] := by
  subst hbs
  have hj := hc.journal
  have hfirst := hj.first
  have h0 : E.bmap 0 ≠ 0 := hj.mapped 0 (by omega)
  have hread : readLog E.bmap fs.blockSize d' 0 = some (jsbOf E fs.blockSize d') := if_neg h0
  have hbs := hj.bs_ge
  have hjl : (jsbOf E fs.blockSize d').length = fs.blockSize := length_read
  have hm : jsbField E fs.blockSize d' 0 = jbd2Magic := by
    have hl : (jsbOf E fs.blockSize d).length = fs.blockSize := length_read
    rw [jsbField, h.jsb, withStart_field (by omega) (by decide)]
    exact hc.magic
  have hst : jsbField E fs.blockSize d' jStart ≠ 0 := by
    rw [(h.fields hj).1]
    exact ne_of_gt hfirst.1
  obtain ⟨st, hp, hws, -⟩ := h.passes hj hroom ht hne hfuel
  obtain ⟨writable, hrec⟩ := jbd2Recover_passes
    { fs with sb := Disk.read d' superOffset superSize } h0 hm hst hp
  simp only [hws] at hrec
  generalize (jsbField E fs.blockSize d jSequence + 1) % 2 ^ 32 = endSeq at hrec
  have hjsb : (withStart (jsbOf E fs.blockSize d') 0 endSeq).length = fs.blockSize :=
    (length_withStart (by omega)).trans hjl
  have hrun : run d' (blocks fs.blockSize t ++
    [(E.bmap 0 * fs.blockSize, withStart (jsbOf E fs.blockSize d') 0 endSeq)] ++
      [(superOffset, sbOn d')]) = write (write (run d' (blocks fs.blockSize t))
        (E.bmap 0 * fs.blockSize) (withStart (jsbOf E fs.blockSize d') 0 endSeq)) superOffset
          (sbOn d') := by
    simp only [Disk.run_append, run_cons, run_nil]
  refine ⟨blocks fs.blockSize t ++
    [(E.bmap 0 * fs.blockSize, withStart (jsbOf E fs.blockSize d') 0 endSeq)] ++
    [(superOffset, sbOn d')], by rw [Fs.recovery, hrec]; rfl, ?_⟩
  rw [hrun]
  refine ⟨?_, fun e he i hi ha => ?_, ?_⟩
  · have hread' : ∀ g : Image, Disk.read (write g superOffset (sbOn d')) superOffset superSize =
        sbOn d' := by
      intro g
      rw [← length_sbOn d', read_write]
    rw [sbOn, hread', sbOn, clearRecover_clear length_read]
  · have hout : e.1 * fs.blockSize + i < E.bmap 0 * fs.blockSize ∨
        E.bmap 0 * fs.blockSize + fs.blockSize ≤ e.1 * fs.blockSize + i := by
      have hw := ht.whole e he
      rcases block_disjoint fs.blockSize (ht.outside e he 0 (by omega)) with h | h <;> omega
    unfold InSuper at ha
    rw [write_outside (by rw [length_sbOn]; omega), write_outside (by rw [hjsb]; exact hout),
      run_blocks_of_mem ht.whole hn he hi]
  · refine Idle.settled (hc.idle_of_withStart (q := endSeq) (by omega) hm ?_) rfl length_read
    rw [jsbOf, read_write_take (le_of_eq hjsb.symm), take_of_length_le (le_of_eq hjsb)]

end recovery

section blocks
variable {E : Env} {bs maxlen b : Nat} {f g h : Image} {sb : List Byte} {T : Txn}

theorem SameBlock.symm (h : SameBlock bs b f g) : SameBlock bs b g f :=
  ⟨fun hb => (h.1 hb).symm, fun i hi ha => (h.2 i hi ha).symm⟩

theorem SameBlock.trans (h1 : SameBlock bs b f g) (h2 : SameBlock bs b g h) : SameBlock bs b f h :=
  ⟨fun hb => (h1.1 hb).trans (h2.1 hb), fun i hi ha => (h1.2 i hi ha).trans (h2.2 i hi ha)⟩

def SuperIn (bs : Nat) : Prop :=
  sbBlock bs * bs + sbOff bs = superOffset ∧ sbOff bs + superSize ≤ bs

theorem JournalOk.superIn {d : Image} (hj : JournalOk E bs d) : SuperIn bs := by
  obtain ⟨k, rfl⟩ := hj.size
  unfold SuperIn sbBlock sbOff superOffset superSize
  rcases Nat.eq_zero_or_pos k with rfl | hk
  · norm_num
  · have : 2 ^ 1 ≤ 2 ^ k := Nat.pow_le_pow_right (by norm_num) hk
    rw [if_neg (by omega), if_neg (by omega)]
    omega

theorem SameBlock.of_read (hs : SuperIn bs)
    (h : Disk.read f (b * bs) bs = Disk.read g (b * bs) bs) :
    SameBlock bs b f g := by
  refine ⟨fun hb => ?_, fun i hi _ => read_eq_iff.mp h _ (by omega) (by omega)⟩
  subst hb
  obtain ⟨h1, h2⟩ := hs
  rw [sbOn, sbOn, read_subrange h (by omega) (by omega)]

theorem WithSuper.read_super (hs : SuperIn bs) (hT : WithSuper E bs maxlen sb T)
    (hl : sb.length = superSize) (f : Image) :
    Disk.read (run f (blocks bs T)) superOffset superSize = sb := by
  obtain ⟨p, hp, hm⟩ := hT.super
  obtain ⟨h1, h2⟩ := hs
  have hfit : sbOff bs + sb.length ≤ p.length := by omega
  refine ext_getElem (length_read.trans hl.symm) fun i hi1 hi2 => ?_
  have hi : sbOff bs + i < (patch p (sbOff bs) sb).length := by
    rw [length_patch hfit]
    omega
  have hb := run_blocks_of_mem (d := f) hT.staged.whole hT.nodup hm hi
  have hg := getD_patch_of_mem hfit hi2
  rw [getD_eq_getElem _ _ hi, getD_eq_getElem _ _ hi2] at hg
  rw [← hg, ← hb, ← add_assoc, h1]
  simp only [Disk.read, getElem_map, getElem_range]

theorem WithSuper.read_block_or (hT : WithSuper E bs maxlen sb T) {e : Nat × List Byte} (he : e ∈ T)
    {s : List (Nat × List Byte)} (hs : ∀ w ∈ s, w ∈ blocks bs T) :
    Disk.read (run f s) (e.1 * bs) bs = Disk.read f (e.1 * bs) bs ∨
      Disk.read (run f s) (e.1 * bs) bs = Disk.read (run g (blocks bs T)) (e.1 * bs) bs := by
  rw [read_blocks_of_mem hT.staged.whole hT.nodup he]
  refine read_run_or (hT.staged.whole e he) fun w hw => ?_
  obtain ⟨v, hv, rfl⟩ := mem_map.mp (hs w hw)
  by_cases hb : v.1 = e.1
  · rw [inj_on_of_nodup_map hT.nodup hv he hb]
    exact .inl rfl
  · rw [hT.staged.whole v hv]
    exact .inr (block_disjoint bs (Ne.symm hb))

theorem WithSuper.sameOn_iff (hT : WithSuper E bs maxlen sb T) : SameOn bs T f g ↔
    sbOn f = sbOn g ∧ ∀ e ∈ T, ∀ i < bs, ¬InSuper (e.1 * bs + i) →
    f (e.1 * bs + i) = g (e.1 * bs + i) := by
  obtain ⟨p, -, hm⟩ := hT.super
  exact ⟨fun h => ⟨(h _ hm).1 rfl, fun e he => (h e he).2⟩, fun h e he => ⟨fun _ => h.1, h.2 e he⟩⟩

end blocks

def OldOrNew (bs : Nat) (T : Txn) (d d' : Image) : Prop :=
  SameOn bs T d' d ∨ SameOn bs T d' (run d (blocks bs T))

section crash
variable {E : Env} {fs : Ext2} {bs fuel : Nat} {d d' : Image} {sb desc : List Byte} {T : Txn}

inductive CrashState (E : Env) (bs : Nat) (d : Image) (sb : List Byte) (T : Txn) (d' : Image) : Prop
  | old (idle : Idle E bs d')
      (bytes : ∀ e ∈ T, ∀ i < bs, ¬InSuper (e.1 * bs + i) → d' (e.1 * bs + i) = d (e.1 * bs + i))
      (super : sbOn d' = sbOn d ∨ sbOn d' = clearRecover sb)
  | pending (log : Pending E bs d T d') (super : sbOn d' = clearRecover sb)
  | new (idle : Idle E bs d')
      (bytes : ∀ e ∈ T, ∀ i < bs, ¬InSuper (e.1 * bs + i) →
        d' (e.1 * bs + i) = run d (blocks bs T) (e.1 * bs + i))
      (super : sbOn d' = clearRecover sb)

theorem CleanLog.idle (hc : CleanLog E bs d) : Idle E bs d := by
  have hf := hc.journal.first
  exact ⟨hc.journal.mapped 0 (by omega), hc.magic, hc.start, hc.journal.super_apart (by omega)⟩

theorem CleanLog.commit_short {F : Ext2} (hc : CleanLog E bs d) (hF : F.blockSize = bs)
    (hne : T ≠ []) (hshort : ¬2 + T.length ≤ jsbField E bs d jMaxlen - jsbField E bs d jFirst) :
    txnCommit E d F T = some (F, [blocks bs T]) := by
  have hf := hc.journal.first
  have hread : readLog E.bmap bs d 0 = some (jsbOf E bs d) := if_neg hc.idle.mapped
  have hmax : jsbField E bs d jMaxlen < 2 ^ 32 := rd32be_lt _ _
  have hlt : (jsbField E bs d jMaxlen + 2 ^ 32 - jsbField E bs d jFirst) % 2 ^ 32
      < 2 + T.length := by omega
  unfold jsbField at hlt
  simp only [txnCommit, hF, if_neg hne, hread, if_pos hlt]

theorem Idle.recovered_same (h : Idle E bs d) (hbs : fs.blockSize = bs) (fuel : Nat) : ∃ ws,
    Fs.recovery E fuel fs d = some ws ∧ (∀ b, SameBlock bs b (run d ws) d) ∧
    Fs.recovery E fuel fs (run d ws) = some [] := by
  obtain ⟨ws, h1, h2, h3, h4⟩ := h.recovered hbs fuel
  exact ⟨ws, h1, fun b => ⟨fun _ => h2, fun i _ ha => h3 _ ha⟩, h4⟩

variable {s : List (Nat × List Byte)} (hc : CleanLog E bs d)
    (hT : WithSuper E bs (jsbField E bs d jMaxlen) sb T)
  (hsb : sb.length = superSize)
  (hroom : jsbField E bs d jFirst + 2 + T.length ≤ jsbField E bs d jMaxlen)
  (hd : desc.length = bs)

include hc hT

theorem crash_idle (hs : sbOn (run d' (blocks bs T)) = clearRecover sb) : CrashState E bs d sb T
      (run (run d' (blocks bs T)) (idleGroup E bs d)) := by
  have hj := hc.journal
  have hbs := hj.bs_ge
  have hfirst := hj.first
  have hl : (jsbOf E bs d).length = bs := length_read
  have hlen : (withStart (jsbOf E bs d) 0
      ((jsbField E bs d jSequence + 1) % 2 ^ 32)).length = bs :=
    (length_withStart (by omega)).trans hl
  have hrun : ∀ g : Image, run g (idleGroup E bs d) = write g
      (E.bmap 0 * bs) (withStart (jsbOf E bs d) 0
        ((jsbField E bs d jSequence + 1) % 2 ^ 32)) := fun _ => rfl
  rw [hrun]
  generalize (jsbField E bs d jSequence + 1) % 2 ^ 32 = q at hlen ⊢
  refine .new (hc.idle_of_withStart (q := q) (by omega) hc.magic ?_) (fun e he i hi _ => ?_) ?_
  · rw [jsbOf, read_write_take (le_of_eq hlen.symm), take_of_length_le (le_of_eq hlen)]
  · have hi' : i < e.2.length := by
      rw [hT.staged.whole e he]
      exact hi
    rw [write_outside, run_blocks_of_mem hT.staged.whole hT.nodup he hi',
      run_blocks_of_mem hT.staged.whole hT.nodup he hi']
    rcases block_disjoint bs (hT.staged.outside e he 0 (by omega)) with h | h <;> omega
  · rw [sbOn] at hs ⊢
    rw [read_write_disjoint, hs]
    rw [hlen]
    exact hj.super_apart (by omega)

theorem CleanLog.idle_inPlace (hs : ∀ w ∈ s, w ∈ blocks bs T) : Idle E bs (run d s) := by
  have hf := hc.journal.first
  refine hc.idle.congr (read_run_disjoint fun w hw => ?_)
  obtain ⟨e, he, rfl⟩ := mem_map.mp (hs w hw)
  rw [hT.staged.whole e he]
  exact block_disjoint bs (hT.staged.outside e he 0 (by omega)).symm

theorem inPlace_sameOn (hone : OneBlock bs d T) (hs : ∀ w ∈ s, w ∈ blocks bs T)
    (hr : ∀ b, SameBlock bs b d' (run d s)) : OldOrNew bs T d d' := by
  unfold OldOrNew
  unfold OneBlock at hone
  have hblk : ∀ e ∈ T, SameBlock bs e.1 d' d ∨
      SameBlock bs e.1 d' (run d (blocks bs T)) := by
    intro e he
    rcases hT.read_block_or (f := d) (g := d) he hs with h | h
    · exact .inl ((hr e.1).trans (.of_read hc.journal.superIn h))
    · exact .inr ((hr e.1).trans (.of_read hc.journal.superIn h))
  generalize run d (blocks bs T) = new at hone hblk ⊢
  by_cases hch : ∃ e ∈ T, ¬SameBlock bs e.1 new d
  · obtain ⟨e, he, hne⟩ := hch
    -- only `e` tells the two devices apart
    have hsame : ∀ v ∈ T, v.1 = e.1 ∨ SameBlock bs v.1 new d := by
      intro v hv
      by_cases h : SameBlock bs v.1 new d
      · exact .inr h
      · exact .inl (hone v hv e he h hne)
    rcases hblk e he with h | h
    · refine .inl fun v hv => ?_
      rcases hsame v hv with hve | hvs
      · rw [hve]
        exact h
      · exact (hblk v hv).elim id fun h' => h'.trans hvs
    · refine .inr fun v hv => ?_
      rcases hsame v hv with hve | hvs
      · rw [hve]
        exact h
      · exact (hblk v hv).elim (fun h' => h'.trans hvs.symm) id
  · push Not at hch
    exact .inl fun v hv => (hblk v hv).elim id fun h' => h'.trans (hch v hv)

theorem oneBlock_of_inPlace (fuel : Nat) (hbs : fs.blockSize = bs)
    (h : ∀ e ∈ T, ∃ ws, recovery E fuel fs (run d (blocks bs [e])) = some ws ∧
      OldOrNew bs T d (run (run d (blocks bs [e])) ws)) : OneBlock bs d T := by
  intro e he e' he' hne hne'
  by_contra hee
  have hsub : ∀ w ∈ blocks bs [e], w ∈ blocks bs T := by
    intro w hw
    rw [blocks, map_singleton, mem_singleton] at hw
    rw [hw]
    exact mem_map_of_mem he
  obtain ⟨ws, hws, h⟩ := h e he
  obtain ⟨ws', h1, hr, -⟩ := (hc.idle_inPlace hT hsub).recovered_same hbs fuel
  obtain rfl : ws' = ws := Option.some.inj (h1.symm.trans hws)
  have hin := hc.journal.superIn
  have hwhole : ∀ v ∈ [e], v.2.length = bs := by
    intro v hv
    rw [mem_singleton.mp hv]
    exact hT.staged.whole e he
  rcases h with h | h
  · -- `e` is in place
    refine hne (.trans (.of_read hin ?_) ((hr e.1).symm.trans (h e he)))
    rw [read_blocks_of_mem hT.staged.whole hT.nodup he,
      read_blocks_of_mem hwhole (nodup_singleton _) mem_cons_self]
  · -- the other one is not
    refine hne' ((h e' he').symm.trans ((hr e'.1).trans (.of_read hin ?_)))
    refine read_blocks_of_notMem hwhole ?_
    simpa using Ne.symm hee

include hsb

theorem sbOn_new : sbOn (run d (blocks bs T)) = clearRecover sb := by
  rw [sbOn, hT.read_super hc.journal.superIn hsb]

theorem oneKind_of_early (hbs : fs.blockSize = bs)
    (h : ∃ ws, recovery E fuel fs (write d superOffset (setRecover sb)) = some ws ∧
    OldOrNew bs T d (run (write d superOffset (setRecover sb)) ws)) :
    OneKind bs d T := by
  have hsl := length_setRecover hsb
  have hearly : sbOn (write d superOffset (setRecover sb)) = clearRecover sb := by
    rw [sbOn, ← hsl, read_write, clearRecover_set hsb]
  obtain ⟨ws, hws, h⟩ := h
  obtain ⟨ws', h1, h2, h3, -⟩ := (hc.idle.write_super hsl).recovered hbs fuel
  obtain rfl : ws' = ws := Option.some.inj (h1.symm.trans hws)
  simp only [OldOrNew, hT.sameOn_iff, h2, hearly] at h
  rcases h with h | h
  · exact .inl ((sbOn_new hc hT hsb).trans h.1)
  · refine .inr fun e he i hi ha => ?_
    rw [← h.2 e he i hi ha, h3 _ ha, write_outside]
    unfold InSuper at ha
    omega

include hroom

theorem crash_inPlace (hp : Pending E bs d T d') (hs' : sbOn d' = clearRecover sb)
    (hs : ∀ w ∈ s, w ∈ blocks bs T) :
    Pending E bs d T (run d' s) ∧ sbOn (run d' s) = clearRecover sb := by
  have hj := hc.journal
  have hin := hj.superIn
  refine ⟨hp.congr hj hroom fun j hjm => ?_, ?_⟩
  · unfold readLog
    rw [read_run_disjoint fun w hw => ?_]
    obtain ⟨e, he, rfl⟩ := mem_map.mp (hs w hw)
    rw [hT.staged.whole e he]
    exact block_disjoint bs (hT.staged.outside e he j hjm).symm
  · -- the superblock's block is written as a whole or not at all
    obtain ⟨p, -, hm⟩ := hT.super
    have hfull := hT.read_super hin hsb d'
    rw [sbOn] at hs' ⊢
    obtain ⟨h1, h2⟩ := hin
    have hblk := hT.read_block_or (f := d') (g := d') hm hs
    simp only at hblk
    rcases hblk with hr | hr
    · rw [read_subrange hr (by omega) (by omega), hs']
    · rw [read_subrange hr (by omega) (by omega), hfull]

include hd in
/-- A loss of power while the log is filled leaves one of the states. -/
theorem crash_log (hs : ∀ w ∈ s, w ∈ fillGroup E bs d sb desc T) :
    CrashState E bs d sb T (run d s) := by
  have hj := hc.journal
  have hsl := length_setRecover hsb
  have hW := logFill_writes hj hroom hT.staged hd
  -- a log block is no block of the transaction, not the superblock's, not log block 0
  have hlog : ∀ w ∈ s, w = (superOffset, setRecover sb) ∨ ∃ j, 0 < j ∧
      j < jsbField E bs d jMaxlen ∧ w.1 = E.bmap j * bs ∧ w.2.length = bs := by
    intro w hw
    rcases mem_cons.mp (hs w hw) with rfl | hw
    · exact .inl rfl
    · obtain ⟨v, hv, rfl⟩ := mem_map.mp hw
      obtain ⟨u, hu, rfl⟩ := mem_map.mp hv
      have hmem : u ∈ logFill E bs d desc T := mem_append_left _ hu
      refine .inr ⟨u.1, ?_, hW.inside u hmem, rfl, hW.whole u hmem⟩
      have hp := hj.first.1
      have := mem_map_of_mem (f := fst) hu
      simp only [logBlocks, map_append, logData_fst, map_cons, map_nil,
        mem_append, mem_range'_1, mem_cons, not_mem_nil, or_false] at this
      omega
  refine .old (hc.idle.congr (read_run_disjoint fun w hw => ?_))
    (fun e he i hi ha => run_outside fun w hw => ?_) ?_
  · rcases hlog w hw with rfl | ⟨j, h1, h2, h3, h4⟩
    · have := hc.idle.apart
      simp only [hsl]
      omega
    · have hne : E.bmap 0 ≠ E.bmap j := fun h => by
        have := hj.inj 0 (by omega) j h2 h
        omega
      rw [h3, h4]
      exact block_disjoint bs hne
  · rcases hlog w hw with rfl | ⟨j, h1, h2, h3, h4⟩
    · unfold InSuper at ha
      simp only [hsl]
      omega
    · rw [h3, h4]
      rcases block_disjoint bs (hT.staged.outside e he j h2) with h | h <;> omega
  · have hr : Disk.read (run d s) superOffset superSize = Disk.read d superOffset superSize ∨
        Disk.read (run d s) superOffset superSize = setRecover sb := by
      refine read_run_or hsl fun w hw => ?_
      rcases hlog w hw with rfl | ⟨j, h1, h2, h3, h4⟩
      · exact .inl rfl
      · rw [h3, h4]
        exact .inr (hj.super_apart h2)
    rw [sbOn, sbOn]
    rcases hr with hr | hr
    · exact .inl (by rw [hr])
    · exact .inr (by rw [hr, clearRecover_set hsb])

include hd in
theorem loggedImage_sbOn : sbOn (loggedImage E bs d (setRecover sb) desc T) = clearRecover sb := by
  rw [sbOn, loggedImage_super hc.journal hroom hT.staged hd (length_setRecover hsb),
    clearRecover_set hsb]

theorem crash_states (hd : descriptor bs (jsbField E bs d jSequence)
      (((jsbOf E bs d).drop jUuid).take 16) T = some desc)
    (h : Disk.Crash d (logGroups E bs d sb desc T) d') : CrashState E bs d sb T d' := by
  have hj := hc.journal
  have hdl := (descriptor_eq_some hd).2.1
  have hp := loggedImage_pending hj hroom hT.staged (length_setRecover hsb) hd
  have hL := loggedImage_sbOn hc hT hsb hroom hdl
  have hall := crash_inPlace hc hT hsb hroom hp hL (s := blocks bs T) fun w hw => hw
  have hidle := crash_idle hc hT hall.2
  simp only [logGroups, Disk.Crash, ← loggedImage_eq_run] at h
  rcases h with ⟨s, hs, rfl⟩ | ⟨s, hs, rfl⟩ | ⟨s, hs, rfl⟩ | ⟨s, hs, rfl⟩ | rfl
  · exact crash_log hc hT hsb hroom hdl hs.subset
  · rcases subperm_singleton hs with rfl | rfl
    · exact crash_log hc hT hsb hroom hdl fun w hw => hw
    · rw [show [_] = pointGroup E bs d from rfl, ← loggedImage_eq_run]
      exact .pending hp hL
  · obtain ⟨h1, h2⟩ := crash_inPlace hc hT hsb hroom hp hL hs.subset
    exact .pending h1 h2
  · rcases subperm_singleton hs with rfl | rfl
    · exact .pending hall.1 hall.2
    · exact hidle
  · exact hidle

/-- From every state that a loss of power leaves, recovery gives old or new. -/
theorem CrashState.recovered (hbs : fs.blockSize = bs) (hfuel : 3 ≤ fuel)
    (h : CrashState E bs d sb T d') (hor : OneKind bs d T) : ∃ ws, recovery E fuel fs d' = some ws ∧
      OldOrNew bs T d (run d' ws) ∧ recovery E fuel fs (run d' ws) = some [] := by
  have hne : T ≠ [] := by
    obtain ⟨p, -, hm⟩ := hT.super
    exact ne_nil_of_mem hm
  have hnew := sbOn_new hc hT hsb
  simp only [OldOrNew, hT.sameOn_iff, hnew]
  cases h with
  | old idle bytes super =>
    obtain ⟨ws, h1, h2, h3, h4⟩ := idle.recovered hbs fuel
    have hb : ∀ e ∈ T, ∀ i < bs, ¬InSuper (e.1 * bs + i) →
        run d' ws (e.1 * bs + i) = d (e.1 * bs + i) :=
      fun e he i hi ha => (h3 _ ha).trans (bytes e he i hi ha)
    refine ⟨ws, h1, ?_, h4⟩
    rw [h2]
    rcases super with hs | hs
    · exact .inl ⟨hs, hb⟩
    · rcases hor with hk | hk
      · exact .inl ⟨by rw [hs, ← hnew, hk], hb⟩
      · exact .inr ⟨hs, fun e he i hi ha => (hb e he i hi ha).trans (hk e he i hi ha).symm⟩
  | pending log super =>
    obtain ⟨ws, h1, h2, h3, h4⟩ := log.recovered hc hbs hne hT.nodup hroom hT.staged hfuel
    refine ⟨ws, h1, .inr ⟨h2.trans super, fun e he i hi ha => ?_⟩, h4⟩
    have hi' : i < e.2.length := by
      rw [hT.staged.whole e he]
      exact hi
    rw [h3 e he i hi' ha, run_blocks_of_mem hT.staged.whole hT.nodup he hi']
  | new idle bytes super =>
    obtain ⟨ws, h1, h2, h3, h4⟩ := idle.recovered hbs fuel
    exact ⟨ws, h1, .inr ⟨h2.trans super, fun e he i hi ha => (h3 _ ha).trans (bytes e he i hi ha)⟩,
      h4⟩

end crash

section atomic
variable {E : Env} {fs : Ext2} {d : Image} {t : Txn} {fuel : Nat}
  (hc : Clean E fs d) (ht : Staged E.bmap fs.blockSize (jsbField E fs.blockSize d jMaxlen) t)
  (hn : (t.map fst).Nodup)

include hc ht hn in
theorem staged_ne_nil : (txnStageMeta E d fs t).2 ≠ [] := by
  obtain ⟨p, -, hm⟩ := (hc.staged ht hn).1.super
  exact ne_nil_of_mem hm

include hc ht hn in
theorem Clean.flush_log (hroom : 2 + (txnStageMeta E d fs t).2.length ≤
      jsbField E fs.blockSize d jMaxlen - jsbField E fs.blockSize d jFirst) :
    txnFlush E d fs t = (descriptor fs.blockSize (jsbField E fs.blockSize d jSequence)
        (((jsbOf E fs.blockSize d).drop jUuid).take 16) (txnStageMeta E d fs t).2).map
      fun desc => ({ (txnStageMeta E d fs t).1 with dirty := false },
        logGroups E fs.blockSize d (txnStageMeta E d fs t).1.sb desc
        (txnStageMeta E d fs t).2) := by
  obtain ⟨-, -, hF⟩ := hc.staged ht hn
  have hj : JournalOk E (txnStageMeta E d fs t).1.blockSize d := by
    rw [hF]
    exact hc.journal
  have hcommit := txnCommit_log hj (staged_ne_nil hc ht hn) (by rw [hF]; exact hroom)
  simp only [txnFlush, hcommit, hF]

include hc ht hn in
theorem CrashAtomic.oneKind (h : CrashAtomic E fuel fs d t)
    (hroom : 2 + (txnStageMeta E d fs t).2.length ≤
    jsbField E fs.blockSize d jMaxlen - jsbField E fs.blockSize d jFirst) :
    OneKind fs.blockSize d (txnStageMeta E d fs t).2 := by
  obtain ⟨hT, hsb, -⟩ := hc.staged ht hn
  obtain ⟨fs', groups, h, hall⟩ := h
  rw [hc.flush_log ht hn hroom] at h
  obtain ⟨desc, -, hg⟩ := Option.map_eq_some_iff.mp h
  cases hg
  obtain ⟨ws, h1, h2, -⟩ := hall (write d superOffset (setRecover (txnStageMeta E d fs t).1.sb))
    (.inl ⟨[(superOffset, setRecover (txnStageMeta E d fs t).1.sb)],
      (cons_sublist_cons.mpr (nil_sublist _)).subperm, rfl⟩)
  exact oneKind_of_early hc.log hT hsb rfl ⟨ws, h1, h2⟩

include hc ht hn in
theorem crash_short_iff (hshort : ¬2 + (txnStageMeta E d fs t).2.length ≤
      jsbField E fs.blockSize d jMaxlen - jsbField E fs.blockSize d jFirst) :
    CrashAtomic E fuel fs d t ↔ OneBlock fs.blockSize d (txnStageMeta E d fs t).2 := by
  obtain ⟨hT, -, hF⟩ := hc.staged ht hn
  rw [CrashAtomic, txnFlush, hc.log.commit_short hF (staged_ne_nil hc ht hn) hshort]
  constructor
  · rintro ⟨fs', groups, h, hall⟩
    cases h
    refine oneBlock_of_inPlace hc.log hT fuel rfl fun e he => ?_
    obtain ⟨ws, h1, h2, -⟩ := hall (run d (blocks fs.blockSize [e]))
      (.inl ⟨_, (singleton_sublist.mpr (mem_map_of_mem he)).subperm, rfl⟩)
    exact ⟨ws, h1, h2⟩
  · intro hone
    refine ⟨_, _, rfl, fun d' h => ?_⟩
    obtain ⟨s, hs, rfl⟩ : ∃ s, (∀ w ∈ s, w ∈ blocks fs.blockSize (txnStageMeta E d fs t).2) ∧
        d' = run d s := by
      rcases h with ⟨s, hs, rfl⟩ | h
      · exact ⟨s, hs.subset, rfl⟩
      · exact ⟨_, fun _ hw => hw, h⟩
    obtain ⟨ws, h1, hr, h3⟩ := (hc.log.idle_inPlace hT hs).recovered_same rfl fuel
    exact ⟨ws, h1, inPlace_sameOn hc.log hT hone hs hr, h3⟩

/-- A loss of power during the flush of a transaction is harmless exactly if,
with room in the log, the tags fit the descriptor and the superblock is
unchanged or alone in changing, and otherwise at most one block changes. -/
theorem crash_atomic_iff (hc : Clean E fs d)
    (ht : Staged E.bmap fs.blockSize (jsbField E fs.blockSize d jMaxlen) t)
    (hn : (t.map fst).Nodup) (hfuel : 3 ≤ fuel) :
    CrashAtomic E fuel fs d t ↔
      let bs := fs.blockSize
      let staged := (txnStageMeta E d fs t).2
      if 2 + staged.length ≤ jsbField E bs d jMaxlen - jsbField E bs d jFirst then
        28 + 8 * staged.length ≤ bs ∧ OneKind bs d staged
      else OneBlock bs d staged := by
  simp only
  split_ifs with hroom
  · have hflush := hc.flush_log ht hn hroom
    rw [← descriptor_isSome (length_uuid hc.journal) (staged_ne_nil hc ht hn),
      Option.isSome_iff_exists]
    constructor
    · intro h
      refine ⟨?_, h.oneKind hc ht hn hroom⟩
      obtain ⟨fs', groups, h, -⟩ := h
      rw [hflush] at h
      obtain ⟨desc, hd, -⟩ := Option.map_eq_some_iff.mp h
      exact ⟨desc, hd⟩
    · rintro ⟨⟨desc, hd⟩, hor⟩
      obtain ⟨hT, hsb, -⟩ := hc.staged ht hn
      have hroom' : jsbField E fs.blockSize d jFirst + 2 + (txnStageMeta E d fs t).2.length ≤
          jsbField E fs.blockSize d jMaxlen := by
        omega
      refine ⟨_, _, by rw [hflush, hd]; rfl, fun d' h => ?_⟩
      exact (crash_states hc.log hT hsb hroom' hd h).recovered hc.log hT hsb hroom' rfl hfuel hor
  · exact crash_short_iff hc ht hn hroom

end atomic

def superFs (b : Byte) : Ext2 := { smallFs with sb := replicate superSize b }

theorem superFs_gdtBlocks (b : Byte) : (superFs b).gdtBlocks = 0 :=
  show gdtBlocks 1024 0 32 = 0 by decide

theorem superFs_clean (b : Byte) : Clean smallEnv (superFs b) smallImage := by
  have hz := superFs_gdtBlocks b
  refine ⟨smallImage_ok, ?_, ?_, length_replicate, le_refl 32, ?_, nofun, ?_, ?_⟩
  · rw [jsbField]
    simp only [superFs, smallFs, smallImage_jsb]
    decide +kernel
  · rw [jsbField]
    simp only [superFs, smallFs, smallImage_jsb]
    decide +kernel
  · rw [hz, zero_mul]
    exact length_nil
  · intro j _ i hi
    omega
  · rw [hz, show gdtBlock (superFs b) = 2 from rfl]
    decide

theorem superFs_staged (b : Byte) : txnStageMeta smallEnv smallImage (superFs b) smallTxn =
    (superFs b,
    smallTxn ++ [(1, patch (Disk.read smallImage 1024 1024) 0 (replicate superSize b))]) := by
  have hf : ext2CsumFinalize smallEnv (superFs b) = superFs b := rfl
  have hbs : (superFs b).blockSize = 1024 := rfl
  have hfind : (txnFind smallTxn 1).isSome = false := by decide +kernel
  simp only [txnStageMeta, hf, superFs_gdtBlocks, range_zero, foldl_nil, hbs, sbBlock, sbOff,
    if_true, txnUpdate, hfind, Bool.false_eq_true, if_false]
  rfl

theorem superFs_length (b : Byte) :
    (txnStageMeta smallEnv smallImage (superFs b) smallTxn).2.length = 3 := by
  rw [superFs_staged, length_append]
  rfl

theorem superFs_room (b : Byte) :
    2 + (txnStageMeta smallEnv smallImage (superFs b) smallTxn).2.length ≤
    jsbField smallEnv (superFs b).blockSize smallImage jMaxlen -
      jsbField smallEnv (superFs b).blockSize smallImage jFirst := by
  rw [superFs_length, show (superFs b).blockSize = 1024 from rfl, jsbField, jsbField,
    smallImage_jsb]
  decide +kernel

theorem superFs_super (b : Byte) :
    Disk.read smallImage superOffset superSize = replicate superSize 0 ∧
    Disk.read
    (run smallImage (blocks 1024 (txnStageMeta smallEnv smallImage (superFs b) smallTxn).2))
      superOffset superSize = replicate superSize b := by
  obtain ⟨hT, hl, -⟩ := (superFs_clean b).staged smallTxn_staged (by decide)
  refine ⟨?_, (hT.read_super smallImage_ok.superIn hl smallImage).trans
    (by rw [superFs_staged]; rfl)⟩
  rw [smallImage, read_write_disjoint (.inl (by decide)), Disk.read, map_const', length_range]

theorem crash_atomic_small : CrashAtomic smallEnv 3 (superFs 0) smallImage smallTxn := by
  refine (crash_atomic_iff (superFs_clean 0) smallTxn_staged (by decide) (le_refl 3)).mpr ?_
  have hsuper := superFs_super 0
  have hbs : (superFs 0).blockSize = 1024 := rfl
  have hroom := superFs_room 0
  simp only [hbs, superFs_length] at hroom ⊢
  rw [if_pos hroom]
  refine ⟨by decide, .inl ?_⟩
  rw [sbOn, sbOn, hsuper.1, hsuper.2]

/-- The early write of the superblock alone reaches the device. -/
theorem crash_splits_superblock :
    Clean smallEnv (superFs 1) smallImage ∧ ¬CrashAtomic smallEnv 3
      (superFs 1) smallImage smallTxn := by
  have hc := superFs_clean 1
  have hsuper := superFs_super 1
  refine ⟨hc, fun h => ?_⟩
  rcases h.oneKind hc smallTxn_staged (by decide) (superFs_room 1) with hk | hk
  · rw [sbOn, sbOn, hsuper.1] at hk
    exact absurd (hk.symm.trans (congrArg clearRecover hsuper.2)) (by decide +kernel)
  have hT := (hc.staged smallTxn_staged (by decide)).1
  have he : (50, replicate 1024 3) ∈ (txnStageMeta smallEnv smallImage (superFs 1) smallTxn).2 := by
    exact mem_append_left _ mem_cons_self
  have hout : ¬InSuper (50 * 1024 + 0) := by
    unfold InSuper superOffset superSize
    omega
  have h0 := hk _ he 0 (by decide) hout
  have hold : smallImage (50 * 1024 + 0) = 0 := write_outside (.inl (by decide))
  have hnew := run_blocks_of_mem (d := smallImage) (i := 0) hT.staged.whole hT.nodup he
    (by rw [length_replicate]; decide)
  exact absurd (hnew.symm.trans (h0.trans hold)) (by decide)

end Cervus.Fs
