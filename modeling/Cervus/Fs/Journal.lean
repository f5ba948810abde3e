import Cervus.Fs.Replay

/-! A transaction goes into the log and comes back out of it. -/

namespace Cervus.Fs

open List Disk Option Prod
open Net (Byte rd16be rd32be be16 be32 rd32be_be32)

def jsbOf (E : Env) (bs : Nat) (d : Image) : List Byte := read d (E.bmap 0 * bs) bs

def jsbField (E : Env) (bs : Nat) (d : Image) (off : Nat) : Nat := rd32be (jsbOf E bs d) off

/-- A journal with at most the revoke feature. Its blocks are mapped, once each
and apart from the superblock, and what earlier transactions left in the log has
their sequence numbers. -/
structure JournalOk (E : Env) (bs : Nat) (d : Image) : Prop where
  size : ∃ k, bs = 1024 * 2 ^ k
  small : bs < 2 ^ 32
  mapped : ∀ j < jsbField E bs d jMaxlen, E.bmap j ≠ 0
  inj : ∀ i < jsbField E bs d jMaxlen, ∀ j < jsbField E bs d jMaxlen,
    E.bmap i = E.bmap j → i = j
  super : ∀ j < jsbField E bs d jMaxlen, E.bmap j ≠ sbBlock bs
  first : 0 < jsbField E bs d jFirst ∧ jsbField E bs d jFirst < jsbField E bs d jMaxlen
  feat : jsbField E bs d jFeatureIncompat = 0 ∨ jsbField E bs d jFeatureIncompat = featRevoke
  stale : ∀ j, jsbField E bs d jFirst ≤ j → j < jsbField E bs d jMaxlen →
    ∀ blk, readLog E.bmap bs d j = some blk → rd32be blk 0 = jbd2Magic →
      tidGeq (jsbField E bs d jSequence) (rd32be blk 8)

section
variable {E : Env} {bs : Nat} {d d' d1 : Image} {t : Txn} {W : List (Nat × List Byte)} {j : Nat}
    {desc sb : List Byte}

theorem JournalOk.bs_ge (h : JournalOk E bs d) : 1024 ≤ bs := by
  obtain ⟨k, rfl⟩ := h.size
  exact Nat.le_mul_of_pos_right _ (Nat.two_pow_pos k)

theorem JournalOk.super_range (h : JournalOk E bs d) :
    sbBlock bs * bs ≤ superOffset ∧ superOffset + superSize ≤ sbBlock bs * bs + bs := by
  obtain ⟨k, rfl⟩ := h.size
  unfold sbBlock superOffset superSize
  rcases Nat.eq_zero_or_pos k with rfl | hk
  · norm_num
  · have : 2 ^ 1 ≤ 2 ^ k := Nat.pow_le_pow_right (by norm_num) hk
    rw [if_neg (by omega)]
    omega

def onDevice (bmap : Nat → Nat) (W : List (Nat × List Byte)) : List (Nat × List Byte) :=
  W.map fun w => (bmap w.1, w.2)

theorem flatMap_writeLog {bmap : Nat → Nat} (h : ∀ w ∈ W, bmap w.1 ≠ 0) :
    (W.flatMap fun w => writeLog bmap bs w.1 w.2) = blocks bs (onDevice bmap W) := by
  induction W with
  | nil => rfl
  | cons w W ih =>
    rw [flatMap_cons, ih fun v hv => h v (mem_cons_of_mem _ hv), writeLog,
      if_neg (h w mem_cons_self)]
    rfl

structure LogWrites (E : Env) (bs : Nat) (d : Image) (W : List (Nat × List Byte)) : Prop where
  inside : ∀ w ∈ W, w.1 < jsbField E bs d jMaxlen
  whole : ∀ w ∈ W, w.2.length = bs
  once : (W.map fst).Nodup

theorem LogWrites.whole_onDevice (hw : LogWrites E bs d W) :
    ∀ w ∈ onDevice E.bmap W, w.2.length = bs := by
  intro w hm
  obtain ⟨v, hv, rfl⟩ := mem_map.mp hm
  exact hw.whole v hv

theorem logData_fst (j : Nat) (t : Txn) : (logData j t).map fst = List.range' j t.length := by
  induction t generalizing j with
  | nil => rfl
  | cons e t ih => simp [logData, ih, List.range'_succ]

theorem length_escaped {data : List Byte} (h : 4 ≤ data.length) :
    (escaped data).length = data.length := by
  unfold escaped
  split_ifs
  · exact length_patch (by simpa using h)
  · rfl

theorem length_of_mem_logData {w : Nat × List Byte} (hbs : 4 ≤ bs)
    (h : ∀ e ∈ t, e.2.length = bs) (hw : w ∈ logData j t) : w.2.length = bs := by
  induction t generalizing j with
  | nil => cases hw
  | cons e t ih =>
    have he := h e mem_cons_self
    rcases mem_cons.mp hw with rfl | hw
    · rw [length_escaped (by omega), he]
    · exact ih (fun v hv => h v (mem_cons_of_mem _ hv)) hw

theorem logged_of_mem (h : ∀ w ∈ logData j t, readLog E.bmap bs d w.1 = some w.2) :
    Logged E.bmap bs d j t := by
  induction t generalizing j with
  | nil => trivial
  | cons e t ih =>
    exact ⟨h (j, escaped e.2) mem_cons_self, ih fun w hw => h w (mem_cons_of_mem _ hw)⟩

section
variable {jsb : List Byte} {start seq off : Nat} (h : 32 ≤ jsb.length)
include h

theorem length_setStart : (patch jsb jStart (be32 start)).length = jsb.length := length_patch h

theorem length_withStart : (withStart jsb start seq).length = jsb.length := by
  rw [withStart, length_patch, length_setStart h]
  rw [length_setStart h, length_be32, jSequence]
  omega

theorem withStart_field (ho : off + 4 ≤ jSequence ∨ jStart + 4 ≤ off) :
    rd32be (withStart jsb start seq) off = rd32be jsb off := by
  rw [jSequence, jStart] at ho
  rw [withStart, rd32be_patch_of_notMem, rd32be_patch_of_notMem h]
  · rw [length_be32, jStart]
    omega
  · rw [length_setStart h, length_be32, jSequence]
    omega
  · rw [length_be32, jSequence]
    omega

theorem withStart_start : rd32be (withStart jsb start seq) jStart = start % 2 ^ 32 := by
  rw [withStart, rd32be_patch_of_notMem, rd32be_patch_same (show jStart + 4 ≤ jsb.length from h)]
  · rw [length_setStart h, length_be32, jSequence]
    omega
  · rw [length_be32, jSequence, jStart]
    omega

theorem withStart_seq : rd32be (withStart jsb start seq) jSequence = seq % 2 ^ 32 := by
  rw [withStart, rd32be_patch_same]
  rw [length_setStart h, jSequence]
  omega

theorem jctxOf_withStart {bmap : Nat → Nat} :
    jctxOf bmap bs (withStart jsb start seq) = jctxOf bmap bs jsb := by
  simp only [jctxOf]
  rw [withStart_field h (by decide), withStart_field h (by decide), withStart_field h (by decide)]

end

section
variable (hj : JournalOk E bs d) (hw : LogWrites E bs d W)
  (hroom : jsbField E bs d jFirst + 2 + t.length ≤ jsbField E bs d jMaxlen)
  (ht : Staged E.bmap bs (jsbField E bs d jMaxlen) t)

include hroom in
theorem advance_logEnd :
    (jctxOf E.bmap bs (jsbOf E bs d)).advance (jsbField E bs d jFirst + 1 + t.length) =
      if jsbField E bs d jMaxlen = jsbField E bs d jFirst + 2 + t.length
      then jsbField E bs d jFirst else jsbField E bs d jFirst + 2 + t.length := by
  have hmax : jsbField E bs d jMaxlen < 2 ^ 32 := rd32be_lt _ _
  have hmod : (jsbField E bs d jFirst + 1 + t.length + 1) % 2 ^ 32 =
      jsbField E bs d jFirst + 2 + t.length := by omega
  change wrapb ((jsbField E bs d jFirst + 1 + t.length + 1) % 2 ^ 32) (jsbField E bs d jFirst)
    (jsbField E bs d jMaxlen) = _
  rw [hmod, wrapb]
  by_cases hend : jsbField E bs d jMaxlen = jsbField E bs d jFirst + 2 + t.length
  · rw [if_pos hend.le, if_pos hend]
    omega
  · rw [if_neg (by omega), if_neg hend]

include hj

theorem JournalOk.readLog_super (hsb : sb.length = superSize) (hb : j < jsbField E bs d jMaxlen) :
    readLog E.bmap bs (write d' superOffset sb) j = readLog E.bmap bs d' j := by
  have hr := hj.super_range
  rw [readLog, readLog, read_write_disjoint]
  rcases block_disjoint bs (hj.super j hb) with h | h <;> omega

theorem logWrites_logBlocks {first seq : Nat} {jsb : List Byte} (ht : ∀ e ∈ t, e.2.length = bs)
    (hf : 0 < first) (hroom : first + 2 + t.length ≤ jsbField E bs d jMaxlen)
    (hd : desc.length = bs) (hjsb : jsb.length = bs) :
    LogWrites E bs d (logBlocks bs first seq desc t ++ [(0, jsb)]) := by
  have hbs := hj.bs_ge
  have hmem : ∀ w ∈ logData (first + 1) t, first + 1 ≤ w.1 ∧ w.1 < first + 1 + t.length := by
    intro w hw
    have := mem_map_of_mem (f := fst) hw
    rw [logData_fst, mem_range'_1] at this
    exact this
  refine ⟨?_, ?_, ?_⟩
  · intro w hw
    simp only [logBlocks, mem_append, mem_cons, not_mem_nil, or_false] at hw
    rcases hw with (hw | rfl | rfl) | rfl
    · have := hmem w hw
      omega
    all_goals simp only; omega
  · intro w hw
    simp only [logBlocks, mem_append, mem_cons, not_mem_nil, or_false] at hw
    rcases hw with (hw | rfl | rfl) | rfl
    · exact length_of_mem_logData (by omega) ht hw
    · exact hd
    · exact length_zeroFill (by rw [length_jHeader, headerSize]; omega)
    · exact hjsb
  · simp only [logBlocks, map_append, logData_fst, map_cons, map_nil]
    rw [append_assoc, nodup_append]
    refine ⟨nodup_range', by simp; omega, ?_⟩
    intro a ha b hb
    rw [mem_range'_1] at ha
    simp only [cons_append, nil_append, mem_cons, not_mem_nil, or_false] at hb
    omega

theorem JournalOk.plain : Plain (jctxOf E.bmap bs (jsbOf E bs d)) := by
  have hf : rd32be (jsbOf E bs d) jFeatureIncompat = 0 ∨
      rd32be (jsbOf E bs d) jFeatureIncompat = featRevoke := hj.feat
  rcases hf with hf | hf <;> constructor <;> simp [jctxOf, hf] <;> decide

theorem length_uuid : (((jsbOf E bs d).drop jUuid).take 16).length = 16 := by
  have hbs := hj.bs_ge
  rw [length_take, length_drop, jsbOf, length_read, jUuid]
  omega

def logFill (E : Env) (bs : Nat) (d : Image) (desc : List Byte) (t : Txn) :
    List (Nat × List Byte) :=
  let first := jsbField E bs d jFirst
  let seq := jsbField E bs d jSequence
  logBlocks bs first seq desc t ++ [(0, withStart (jsbOf E bs d) first seq)]

def loggedImage (E : Env) (bs : Nat) (d : Image) (sb desc : List Byte) (t : Txn) : Image :=
  run (write d superOffset sb)
    (blocks bs (onDevice E.bmap (logFill E bs d desc t)))

structure Pending (E : Env) (bs : Nat) (d : Image) (t : Txn) (d1 : Image) : Prop where
  jsb : jsbOf E bs d1 = withStart (jsbOf E bs d) (jsbField E bs d jFirst)
    (jsbField E bs d jSequence)
  log : OnLog (jctxOf E.bmap bs (jsbOf E bs d)) (jsbField E bs d jSequence)
    (((jsbOf E bs d).drop jUuid).take 16) t d1

theorem Pending.fields (h : Pending E bs d t d1) :
    jsbField E bs d1 jStart = jsbField E bs d jFirst ∧
      jsbField E bs d1 jSequence = jsbField E bs d jSequence ∧
      jctxOf E.bmap bs (jsbOf E bs d1) = jctxOf E.bmap bs (jsbOf E bs d) := by
  have hl : 32 ≤ (jsbOf E bs d).length := by
    rw [jsbOf, length_read]
    exact le_trans (by decide) hj.bs_ge
  refine ⟨?_, ?_, ?_⟩
  · rw [jsbField, h.jsb, withStart_start hl]
    exact Nat.mod_eq_of_lt (rd32be_lt _ _)
  · rw [jsbField, h.jsb, withStart_seq hl]
    exact Nat.mod_eq_of_lt (rd32be_lt _ _)
  · rw [h.jsb, jctxOf_withStart hl]

section
include hw

theorem LogWrites.readLog_of_mem {buf : List Byte} (h : (j, buf) ∈ W) :
    readLog E.bmap bs (run d' (blocks bs (onDevice E.bmap W))) j = some buf := by
  have hn : ((onDevice E.bmap W).map fst).Nodup := by
    have he : (onDevice E.bmap W).map fst = (W.map fst).map E.bmap := by
      simp [onDevice, Function.comp_def]
    rw [he]
    refine List.Nodup.map_on ?_ hw.once
    intro a ha b hb
    obtain ⟨v, hv, rfl⟩ := mem_map.mp ha
    obtain ⟨u, hu, rfl⟩ := mem_map.mp hb
    exact hj.inj _ (hw.inside v hv) _ (hw.inside u hu)
  rw [readLog, if_neg (hj.mapped j (hw.inside _ h)),
    read_blocks_of_mem hw.whole_onDevice hn (mem_map.mpr ⟨(j, buf), h, rfl⟩)]

theorem LogWrites.readLog_of_notMem (hb : j < jsbField E bs d jMaxlen) (h : j ∉ W.map fst) :
    readLog E.bmap bs (run d' (blocks bs (onDevice E.bmap W))) j =
      readLog E.bmap bs d' j := by
  have hn : E.bmap j ∉ (onDevice E.bmap W).map fst := by
    intro hm
    obtain ⟨w, hm, he⟩ := mem_map.mp hm
    obtain ⟨v, hv, rfl⟩ := mem_map.mp hm
    exact h (mem_map.mpr ⟨v, hv, hj.inj _ (hw.inside v hv) j hb he⟩)
  rw [readLog, readLog, read_blocks_of_notMem hw.whole_onDevice hn]

theorem LogWrites.read_super : read (run d' (blocks bs (onDevice E.bmap W))) superOffset superSize =
      read d' superOffset superSize := by
  have hr := hj.super_range
  refine read_run_disjoint fun w hm => ?_
  obtain ⟨v, hv, rfl⟩ := mem_map.mp hm
  have hlen := hw.whole_onDevice v hv
  obtain ⟨u, hu, rfl⟩ := mem_map.mp hv
  rcases block_disjoint bs (hj.super u.1 (hw.inside u hu)) with h | h <;> simp only at hlen ⊢ <;>
    omega

end

include hroom

theorem Pending.congr {d2 : Image} (h : Pending E bs d t d1)
    (he : ∀ j < jsbField E bs d jMaxlen, readLog E.bmap bs d2 j = readLog E.bmap bs d1 j) :
    Pending E bs d t d2 := by
  have hmax : jsbField E bs d jMaxlen < 2 ^ 32 := rd32be_lt _ _
  have hadv : (jctxOf E.bmap bs (jsbOf E bs d)).advance (jsbField E bs d jFirst + 1 + t.length) <
      jsbField E bs d jMaxlen := by
    rw [advance_logEnd hroom]
    split_ifs <;> omega
  have h0 : jsbOf E bs d2 = jsbOf E bs d1 := by
    have := he 0 (by omega)
    rw [readLog, readLog, if_neg (hj.mapped 0 (by omega)), if_neg (hj.mapped 0 (by omega))] at this
    exact some.inj this
  obtain ⟨desc, hd, hread⟩ := h.log.desc
  refine ⟨h0.trans h.jsb, ⟨desc, hd, (he _ ?_).trans hread⟩, h.log.data.congr fun k h1 h2 =>
    he k ?_,
    (he _ ?_).trans h.log.commit, fun blk hblk => h.log.stale blk ((he _ hadv).symm.trans hblk)⟩
  · exact hj.first.2
  · change k < jsbField E bs d jFirst + 1 + t.length at h2
    omega
  · exact show jsbField E bs d jFirst + 1 + t.length < _ by omega

include ht

theorem JournalOk.room : Room (jctxOf E.bmap bs (jsbOf E bs d)) t :=
  ⟨hj.plain, ⟨(show 4 ≤ 1024 by decide).trans hj.bs_ge, hj.small⟩, rd32be_lt _ _, hroom, ht⟩

theorem logFill_writes (hdl : desc.length = bs) : LogWrites E bs d (logFill E bs d desc t) := by
  have hbs := hj.bs_ge
  have hjl : (jsbOf E bs d).length = bs := length_read
  exact logWrites_logBlocks hj ht.whole hj.first.1 hroom hdl
    ((length_withStart (by omega)).trans hjl)

/-- After the writes to the log the transaction is pending. -/
theorem loggedImage_pending (hsb : sb.length = superSize)
    (hd : descriptor bs (jsbField E bs d jSequence) (((jsbOf E bs d).drop jUuid).take 16) t =
    some desc) :
    Pending E bs d t (loggedImage E bs d sb desc t) := by
  obtain ⟨-, hdl, pad, hdesc⟩ := descriptor_eq_some hd
  have hW := logFill_writes hj hroom ht hdl
  have hin : ∀ w ∈ logFill E bs d desc t,
      readLog E.bmap bs (loggedImage E bs d sb desc t) w.1 = some w.2 :=
    fun w hw => hW.readLog_of_mem hj hw
  refine ⟨?_, ⟨⟨desc, hd, ?_⟩, logged_of_mem fun w hw => hin w ?_, ?_, fun blk hblk hm heq => ?_⟩⟩
  · have h0 := hin (0, _) (mem_append_right _ mem_cons_self)
    rw [readLog, if_neg (hj.mapped 0 (by omega))] at h0
    exact some.inj h0
  · exact hin (jsbField E bs d jFirst, desc)
      (mem_append_left _ (mem_append_right _ mem_cons_self))
  · exact mem_append_left _ (mem_append_left _ hw)
  · exact hin (jsbField E bs d jFirst + 1 + t.length, _)
      (mem_append_left _ (mem_append_right _ (mem_cons_of_mem _ mem_cons_self)))
  · -- behind the commit block: an older block of the log, or its start again
    have hseq : jsbField E bs d jSequence < 2 ^ 32 := rd32be_lt _ _
    have hmax : jsbField E bs d jMaxlen < 2 ^ 32 := rd32be_lt _ _
    have hfst : jsbField E bs d jFirst + 2 + t.length ∉ (logFill E bs d desc t).map fst := by
      simp only [logFill, logBlocks, map_append, logData_fst, map_cons, map_nil,
        mem_append, mem_range'_1, mem_cons, not_mem_nil, or_false]
      omega
    change readLog E.bmap bs _ ((jctxOf E.bmap bs (jsbOf E bs d)).advance
      (jsbField E bs d jFirst + 1 + t.length)) = some blk at hblk
    rw [advance_logEnd hroom] at hblk
    split_ifs at hblk with hend
    · rw [hin (jsbField E bs d jFirst, desc)
        (mem_append_left _ (mem_append_right _ mem_cons_self))] at hblk
      rw [← some.inj hblk, hdesc, jHeader_seq] at heq
      omega
    · rw [loggedImage, hW.readLog_of_notMem hj (by omega) hfst,
        hj.readLog_super hsb (by omega)] at hblk
      have := hj.stale _ (by omega) (by omega) blk hblk hm
      rw [heq, tidGeq_succ hseq] at this
      cases this

theorem loggedImage_super (hdl : desc.length = bs) (hsb : sb.length = superSize) :
    read (loggedImage E bs d sb desc t) superOffset superSize = sb := by
  rw [loggedImage, (logFill_writes hj hroom ht hdl).read_super hj, ← hsb, read_write]

theorem Pending.passes (hne : t ≠ []) (h : Pending E bs d t d1) {fuel : Nat} (hfuel : 3 ≤ fuel) :
    ∃ st, jbd2Passes (jctxOf E.bmap bs (jsbOf E bs d1)) fuel (jsbField E bs d1 jStart)
        (jsbField E bs d1 jSequence) d1 = some ((jsbField E bs d jSequence + 1) % 2 ^ 32, st) ∧
      st.writes = blocks bs t ∧ st.image = run d1 (blocks bs t) := by
  obtain ⟨h1, h2, h3⟩ := h.fields hj
  obtain ⟨f, rfl⟩ := Nat.exists_eq_add_of_le' hfuel
  rw [h1, h2, h3]
  exact ⟨_, jbd2Passes_onLog (hj.room hroom ht) hne (length_uuid hj) (rd32be_lt _ _) h.log, rfl,
    rfl⟩

end

def fillGroup (E : Env) (bs : Nat) (d : Image) (sb desc : List Byte) (t : Txn) :
    List (Nat × List Byte) :=
  (superOffset, setRecover sb) :: blocks bs (onDevice E.bmap
    (logBlocks bs (jsbField E bs d jFirst) (jsbField E bs d jSequence) desc t))

def pointGroup (E : Env) (bs : Nat) (d : Image) : List (Nat × List Byte) :=
  blocks bs (onDevice E.bmap
    [(0, withStart (jsbOf E bs d) (jsbField E bs d jFirst) (jsbField E bs d jSequence))])

def idleGroup (E : Env) (bs : Nat) (d : Image) : List (Nat × List Byte) :=
  blocks bs (onDevice E.bmap
    [(0, withStart (jsbOf E bs d) 0 ((jsbField E bs d jSequence + 1) % 2 ^ 32))])

def logGroups (E : Env) (bs : Nat) (d : Image) (sb desc : List Byte) (t : Txn) :
    List (List (Nat × List Byte)) :=
  [fillGroup E bs d sb desc t, pointGroup E bs d, blocks bs t, idleGroup E bs d]

theorem loggedImage_eq_run : loggedImage E bs d (setRecover sb) desc t =
    run (run d (fillGroup E bs d sb desc t)) (pointGroup E bs d) := by
  simp only [loggedImage, logFill, fillGroup, pointGroup, blocks, onDevice, map_append,
    run_cons, Disk.run_append]

/-- With room in the log, a commit writes the descriptor, the blocks and the commit block. -/
theorem txnCommit_log {fs : Ext2} (hj : JournalOk E fs.blockSize d) (hne : t ≠ [])
    (hroom : 2 + t.length ≤ jsbField E fs.blockSize d jMaxlen - jsbField E fs.blockSize d jFirst) :
    txnCommit E d fs t = (descriptor fs.blockSize (jsbField E fs.blockSize d jSequence)
        (((jsbOf E fs.blockSize d).drop jUuid).take 16) t).map
      fun desc => ({ fs with dirty := false }, logGroups E fs.blockSize d fs.sb desc t) := by
  have hf := hj.first
  have h0 : E.bmap 0 ≠ 0 := hj.mapped 0 (by omega)
  have hmax : jsbField E fs.blockSize d jMaxlen < 2 ^ 32 := rd32be_lt _ _
  have hread : readLog E.bmap fs.blockSize d 0 = some (jsbOf E fs.blockSize d) := if_neg h0
  have hlen : ¬(jsbField E fs.blockSize d jMaxlen + 2 ^ 32 - jsbField E fs.blockSize d jFirst) %
    2 ^ 32
      < 2 + t.length := by omega
  have hz : ∀ jsb : List Byte, writeLog E.bmap fs.blockSize 0 jsb =
      blocks fs.blockSize (onDevice E.bmap [(0, jsb)]) := fun jsb => if_neg h0
  unfold jsbField at hlen hroom hf
  simp only [txnCommit, hread, hne, if_false, hlen, logGroups, fillGroup, pointGroup, idleGroup,
    jsbField]
  cases hd : descriptor fs.blockSize (rd32be (jsbOf E fs.blockSize d) jSequence)
      (((jsbOf E fs.blockSize d).drop jUuid).take 16) t with
  | none => rfl
  | some desc =>
    have hin : ∀ w ∈ logBlocks fs.blockSize (rd32be (jsbOf E fs.blockSize d) jFirst)
        (rd32be (jsbOf E fs.blockSize d) jSequence) desc t, E.bmap w.1 ≠ 0 := by
      intro w hw
      refine hj.mapped _ ?_
      have := mem_map_of_mem (f := fst) hw
      simp only [logBlocks, map_append, logData_fst, map_cons, map_nil,
        mem_append, mem_range'_1, mem_cons, not_mem_nil, or_false] at this
      unfold jsbField
      omega
    simp only [Option.bind_eq_bind, Option.bind_some, Option.map_some, Option.pure_def,
      flatMap_writeLog hin, hz]

/-- From the moment the journal superblock points to the log, the three passes
of a recovery write exactly the blocks of the transaction and stop at the
sequence after it. -/
def RoundTrip (E : Env) (d : Image) (fs : Ext2) (t : Txn) : Prop :=
  ∃ fs' g1 g2 rest, txnCommit E d fs t = some (fs', g1 :: g2 :: rest) ∧
    let bs := fs.blockSize
    let d1 := run d (g1 ++ g2)
    jsbField E bs d1 jStart = jsbField E bs d jFirst ∧
    ∀ fuel, 3 ≤ fuel → ∃ st,
      jbd2Passes (jctxOf E.bmap bs (jsbOf E bs d1)) fuel (jsbField E bs d1 jStart)
        (jsbField E bs d1 jSequence) d1 = some ((jsbField E bs d jSequence + 1) % 2 ^ 32, st) ∧
      st.writes = blocks bs t

/-- Recovery of a flushed transaction gives its blocks back exactly when its tags fit the
descriptor. -/
theorem journal_roundtrip_iff {fs : Ext2} (hj : JournalOk E fs.blockSize d)
    (hsb : fs.sb.length = superSize) (hne : t ≠ [])
    (ht : Staged E.bmap fs.blockSize (jsbField E fs.blockSize d jMaxlen) t)
    (hroom : 2 + t.length ≤ jsbField E fs.blockSize d jMaxlen - jsbField E fs.blockSize d jFirst) :
    RoundTrip E d fs t ↔ 28 + 8 * t.length ≤ fs.blockSize := by
  have hc := txnCommit_log hj hne hroom
  rw [← descriptor_isSome (length_uuid hj) hne, Option.isSome_iff_exists]
  constructor
  · rintro ⟨fs', g1, g2, rest, h, -⟩
    rw [hc, Option.map_eq_some_iff] at h
    obtain ⟨desc, hd, -⟩ := h
    exact ⟨desc, hd⟩
  · rintro ⟨desc, hd⟩
    have hroom' : jsbField E fs.blockSize d jFirst + 2 + t.length ≤
        jsbField E fs.blockSize d jMaxlen := by
      omega
    have hp := loggedImage_pending hj hroom' ht (length_setRecover hsb) hd
    refine ⟨_, _, _, _, by rw [hc, hd]; rfl, ?_⟩
    simp only [Disk.run_append, ← loggedImage_eq_run]
    refine ⟨(hp.fields hj).1, fun fuel hfuel => ?_⟩
    obtain ⟨st, h1, h2, -⟩ := hp.passes hj hroom' ht hne hfuel
    exact ⟨st, h1, h2⟩

end

def smallEnv : Env := ⟨fun _ _ => 0, fun j => 100 + j⟩

def smallJsb : List Byte :=
  patch (patch (patch (zeroFill 1024 (jHeader 4 0)) jMaxlen (be32 8)) jFirst (be32 1))
    jSequence (be32 7)

def smallImage : Image := write (fun _ => 0) (100 * 1024) smallJsb

def smallFs : Ext2 :=
  { sb := replicate 1024 0, gdt := [], gdtShadow := none, blockSize := 1024, groupsCount := 0
    descSize := 32, dirty := true, hasCsum := false, csumSeed := 0, journalWritable := true }

theorem length_smallJsb : smallJsb.length = 1024 := by decide +kernel

theorem smallImage_jsb : jsbOf smallEnv 1024 smallImage = smallJsb := by
  have h : read smallImage (100 * 1024) smallJsb.length = smallJsb := read_write
  rwa [length_smallJsb] at h

theorem smallImage_ok : JournalOk smallEnv 1024 smallImage := by
  have hm : jsbField smallEnv 1024 smallImage jMaxlen = 8 := by
    decide +kernel
  have hf : jsbField smallEnv 1024 smallImage jFirst = 1 := by
    decide +kernel
  refine ⟨⟨0, rfl⟩, by decide, ?_, ?_, ?_, ?_, ?_, ?_⟩
  · intro j _
    simp [smallEnv]
  · intro i _ j _ h
    simpa [smallEnv] using h
  · intro j _
    simp only [smallEnv, sbBlock, if_true]
    omega
  · omega
  · rw [jsbField, smallImage_jsb]
    decide +kernel
  · intro j h1 h2 blk hblk hmagic
    have hz : read smallImage ((100 + j) * 1024) 1024 =
        read (fun _ => 0) ((100 + j) * 1024) 1024 := by
      refine read_write_disjoint (.inr ?_)
      rw [length_smallJsb]
      omega
    have hb : readLog smallEnv.bmap 1024 smallImage j =
      some (read smallImage ((100 + j) * 1024) 1024) :=
      if_neg (by simp [smallEnv])
    rw [hb, hz] at hblk
    rw [← some.inj hblk] at hmagic
    simp only [rd32be, rd16be, getD_eq_getElem?_getD] at hmagic
    rw [read_getElem? (by decide), read_getElem? (by decide),
      read_getElem? (by decide), read_getElem? (by decide)] at hmagic
    exact absurd hmagic (by decide)

def smallTxn : Txn :=
  [(50, replicate 1024 3), (51, be32 jbd2Magic ++ replicate 1020 5)]

theorem smallTxn_staged :
    Staged smallEnv.bmap 1024 (jsbField smallEnv 1024 smallImage jMaxlen) smallTxn := by
  refine ⟨by decide, by decide +kernel, ?_⟩
  intro e he j _
  simp only [smallTxn, mem_cons, not_mem_nil, or_false] at he
  rcases he with rfl | rfl <;> simp only [smallEnv] <;> omega

theorem journal_roundtrip_two : RoundTrip smallEnv smallImage smallFs smallTxn := by
  refine (journal_roundtrip_iff smallImage_ok (by decide +kernel)
    (by decide) smallTxn_staged ?_).mpr
    (by decide)
  rw [jsbField, jsbField]
  decide +kernel

def wideImage : Image := write (fun _ => 0) (100 * 1024) (patch smallJsb jMaxlen (be32 1024))

def wideFs : Ext2 := { smallFs with gdt := replicate 8192 1, groupsCount := 256 }

def fullTxn : Txn := (range (txnMaxData 1024)).map fun i => (2000 + i, replicate 1024 0)

/-- A volume of 256 groups stages 125 blocks, one more than fit. -/
theorem journal_tags_overflow :
    (txnStageMeta smallEnv wideImage wideFs fullTxn).2.length = 125 ∧
      ¬RoundTrip smallEnv wideImage (txnStageMeta smallEnv wideImage wideFs fullTxn).1
        (txnStageMeta smallEnv wideImage wideFs fullTxn).2 := by
  have hnone : (txnStageMeta smallEnv wideImage wideFs fullTxn).2.length = 125 ∧
      (txnCommit smallEnv wideImage (txnStageMeta smallEnv wideImage wideFs fullTxn).1
        (txnStageMeta smallEnv wideImage wideFs fullTxn).2).isNone = true := by decide +kernel
  refine ⟨hnone.1, ?_⟩
  rintro ⟨fs', g1, g2, rest, h, -⟩
  rw [h] at hnone
  cases hnone.2

end Cervus.Fs
