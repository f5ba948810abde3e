import Mathlib.Tactic.NormNum
import Cervus.Fs.Jbd2

/-! What the three recovery passes make of a transaction that has just been
logged: the descriptor's tags, the copies behind it, the commit block, and the
end of the log where older transactions may remain. -/

namespace Cervus.Fs

open List Disk
open Net (Byte rd16be rd32be be16 be32 rd16be_be16 rd32be_be32 rd16be_append_add
  rd32be_append_add)

theorem rd32be_at {n : Nat} (a b : List Byte) (h : a.length = n) :
    rd32be (a ++ b) n = rd32be b 0 := by
  subst h
  exact rd32be_append_add a b 0

theorem rd16be_at {n : Nat} (a b : List Byte) (h : a.length = n) :
    rd16be (a ++ b) n = rd16be b 0 := by
  subst h
  exact rd16be_append_add a b 0

theorem length_jHeader (btype seq : Nat) : (jHeader btype seq).length = headerSize := rfl

variable {bs j maxlen seq : Nat} {uuid : List Byte} {t : Txn} {bmap : Nat → Nat}

theorem length_zeroFill {p : List Byte} (h : p.length ≤ bs) : (zeroFill bs p).length = bs := by
  simp only [zeroFill, length_append, length_replicate]
  omega

section header
variable {btype seq : Nat} {rest : List Byte}

theorem jHeader_magic : rd32be (jHeader btype seq ++ rest) 0 = jbd2Magic := by
  rw [jHeader, append_assoc, append_assoc, rd32be_be32]
  decide

theorem jHeader_btype : rd32be (jHeader btype seq ++ rest) 4 = btype % 2 ^ 32 := by
  rw [jHeader, append_assoc, append_assoc, rd32be_at _ _ (length_be32 _), rd32be_be32]

theorem jHeader_seq : rd32be (jHeader btype seq ++ rest) 8 = seq % 2 ^ 32 := by
  rw [jHeader, append_assoc,
    rd32be_at (n := 8) (be32 jbd2Magic ++ be32 btype) _ rfl, rd32be_be32]

end header

section tags
variable {uuid : List Byte} {n i : Nat} {e : Nat × List Byte}

theorem flagsOf_spec (n i : Nat) (data : List Byte) : flagsOf n i data < 65536 ∧
    (flagsOf n i data &&& flagEscape ≠ 0 ↔ startsMagic data) ∧
    (flagsOf n i data &&& flagSameUuid ≠ 0 ↔ 0 < i) ∧
    (flagsOf n i data &&& flagLastTag ≠ 0 ↔ i + 1 = n) := by
  unfold flagsOf
  by_cases h1 : 0 < i <;> by_cases h2 : i + 1 = n <;> by_cases h3 : startsMagic data = true <;>
    simp [h1, h2, h3] <;> decide

def tagLen (i : Nat) : Nat := 8 + if i = 0 then 16 else 0

theorem length_tagOf (hu : uuid.length = 16) : (tagOf uuid n i e).length = tagLen i := by
  by_cases h : i = 0 <;> simp [tagOf, tagLen, h, hu]

theorem tagBlock_tagOf (he : e.1 < 2 ^ 32) (pre post : List Byte) :
    tagBlock (pre ++ (tagOf uuid n i e ++ post)) pre.length false = e.1 := by
  rw [tagBlock, rd32be_at _ _ rfl]
  simp only [tagOf, append_assoc, rd32be_be32]
  simpa using Nat.mod_eq_of_lt he

theorem tagFlags_tagOf (pre post : List Byte) :
    tagFlags (pre ++ (tagOf uuid n i e ++ post)) pre.length false = flagsOf n i e.2 := by
  have h6 := rd16be_append_add pre (tagOf uuid n i e ++ post) 6
  rw [tagFlags, if_neg Bool.false_ne_true, h6]
  simp only [tagOf, append_assoc]
  rw [← append_assoc (be32 _) (be16 _), rd16be_at (n := 6) _ _ rfl, rd16be_be16]
  exact Nat.mod_eq_of_lt (flagsOf_spec n i e.2).1

end tags

theorem length_tagsFrom {n : Nat} (hu : uuid.length = 16) (t : Txn) (i : Nat) :
    (tagsFrom uuid n i t).length = 8 * t.length + if i = 0 ∧ t ≠ [] then 16 else 0 := by
  induction t generalizing i with
  | nil => simp [tagsFrom]
  | cons e t ih =>
    rw [tagsFrom, length_append, length_tagOf hu, ih, tagLen]
    by_cases h : i = 0 <;> simp [h] <;> omega

theorem descriptor_isSome (hu : uuid.length = 16)
    (ht : t ≠ []) : (descriptor bs seq uuid t).isSome ↔ 28 + 8 * t.length ≤ bs := by
  have hl : (jHeader descriptorBlock seq ++ tagsFrom uuid t.length 0 t).length
      = 28 + 8 * t.length := by
    rw [length_append, length_jHeader, length_tagsFrom hu, if_pos ⟨rfl, ht⟩, headerSize]
    omega
  unfold descriptor
  simp only [hl]
  split_ifs with h <;> simp [h]

theorem descriptor_eq_some {desc : List Byte} (h : descriptor bs seq uuid t = some desc) :
    headerSize + (tagsFrom uuid t.length 0 t).length ≤ bs ∧ desc.length = bs ∧
      ∃ pad, desc = jHeader descriptorBlock seq ++ (tagsFrom uuid t.length 0 t ++ pad) := by
  unfold descriptor at h
  simp only [Option.ite_none_right_eq_some, Option.some.injEq] at h
  obtain ⟨hfit, rfl⟩ := h
  refine ⟨?_, length_zeroFill hfit, _, append_assoc _ _ _⟩
  rwa [length_append, length_jHeader] at hfit

theorem be32_rd32be {p : List Byte} (h : 4 ≤ p.length) : be32 (rd32be p 0) = p.take 4 := by
  obtain ⟨a, b, c, e, rest, rfl⟩ : ∃ a b c e rest, p = a :: b :: c :: e :: rest := by
    match p, h with
    | a :: b :: c :: e :: rest, _ => exact ⟨a, b, c, e, rest, rfl⟩
  simp only [be32, be16, rd32be, rd16be, getD_cons_zero, getD_cons_succ, take_succ_cons,
    take_zero, cons_append, nil_append, List.cons.injEq, and_true]
  refine ⟨?_, ?_, ?_, ?_⟩ <;> refine BitVec.eq_of_toNat_eq ?_ <;>
    simp only [BitVec.toNat_ofNat] <;> omega

theorem unescape {data : List Byte} (h : 4 ≤ data.length) :
    (if startsMagic data then patch (escaped data) 0 (be32 jbd2Magic) else escaped data) =
    data := by
  by_cases hm : startsMagic data = true
  · have hv : be32 jbd2Magic = data.take 4 := by
      rw [← be32_rd32be h, of_decide_eq_true hm]
    simp [escaped, hm, patch, hv, min_eq_left h]
  · simp [escaped, hm]

/-- The tags of a journal without the 64-bit and checksum features. -/
structure Plain (c : Jctx) : Prop where
  tagBytes : c.tagBytes = 8
  csum3 : c.csum3 = false
  is64 : c.is64 = false

/-- The blocks of a transaction: whole ones, with 32-bit numbers, and none of
them in the log. -/
structure Staged (bmap : Nat → Nat) (bs maxlen : Nat) (t : Txn) : Prop where
  number : ∀ e ∈ t, e.1 < 2 ^ 32
  whole : ∀ e ∈ t, e.2.length = bs
  outside : ∀ e ∈ t, ∀ j < maxlen, e.1 ≠ bmap j

theorem Staged.tail {e : Nat × List Byte} (h : Staged bmap bs maxlen (e :: t)) :
    Staged bmap bs maxlen t :=
  ⟨fun v hv => h.number v (mem_cons_of_mem _ hv),
    fun v hv => h.whole v (mem_cons_of_mem _ hv),
    fun v hv => h.outside v (mem_cons_of_mem _ hv)⟩

theorem Staged.readLog_run {d : Image} (h : Staged bmap bs maxlen t) (hj : j < maxlen) :
    readLog bmap bs (run d (blocks bs t)) j = readLog bmap bs d j := by
  unfold readLog
  rw [Disk.read_blocks_of_notMem h.whole]
  intro hm
  obtain ⟨e, he, hb⟩ := mem_map.mp hm
  exact h.outside e he j hj hb

def Logged (bmap : Nat → Nat) (bs : Nat) (d : Image) : Nat → Txn → Prop
  | _, [] => True
  | j, e :: t => readLog bmap bs d j = some (escaped e.2) ∧ Logged bmap bs d (j + 1) t

theorem Logged.congr {d d' : Image} (h : Logged bmap bs d j t)
    (he : ∀ k, j ≤ k → k < j + t.length → readLog bmap bs d' k = readLog bmap bs d k) :
    Logged bmap bs d' j t := by
  induction t generalizing j with
  | nil => trivial
  | cons e t ih =>
    refine ⟨(he j (le_refl j) (by simp)).trans h.1, ih h.2 fun k h1 h2 => he k (by omega) ?_⟩
    simp only [length_cons]
    omega

def issued (pass : Pass) (bs : Nat) (t : Txn) : List (Nat × List Byte) :=
  if pass = .replay then blocks bs t else []

theorem issued_cons (pass : Pass) (bs : Nat) (e : Nat × List Byte) (t : Txn) :
    issued pass bs (e :: t) = issued pass bs [e] ++ issued pass bs t := by
  unfold issued
  split_ifs <;> rfl

theorem Staged.readLog_issued {d : Image} (h : Staged bmap bs maxlen t) (pass : Pass)
    (hj : j < maxlen) :
    readLog bmap bs (run d (issued pass bs t)) j = readLog bmap bs d j := by
  unfold issued
  split_ifs
  · exact h.readLog_run hj
  · rfl

section
variable {c : Jctx} {pass : Pass} {s : PassState} {e : Nat × List Byte} {n i : Nat}

theorem advance_lt (hm : c.maxlen < 2 ^ 32) {j : Nat} (h : j + 1 < c.maxlen) :
    c.advance j = j + 1 := by
  rw [Jctx.advance, Nat.mod_eq_of_lt (by omega), wrapb, if_neg (by omega)]

theorem replayTag_logged (hbs : 4 ≤ c.blockSize ∧ c.blockSize < 2 ^ 32)
    (he : Staged c.bmap c.blockSize c.maxlen [e]) (hrev : s.rev = [])
    (hl : readLog c.bmap c.blockSize s.image s.nextLog = some (escaped e.2)) :
    replayTag c (flagsOf n i e.2) e.1 s =
      { s with
        image := run s.image (issued .replay c.blockSize [e])
        writes := s.writes ++ issued .replay c.blockSize [e] } := by
  have hoff : e.1 * c.blockSize % 2 ^ 64 = e.1 * c.blockSize := by
    refine Nat.mod_eq_of_lt ?_
    calc e.1 * c.blockSize < 2 ^ 32 * 2 ^ 32 :=
          Nat.mul_lt_mul'' (he.number e (by simp)) hbs.2
      _ = 2 ^ 64 := by norm_num
  have hd := unescape (show 4 ≤ e.2.length by rw [he.whole e (by simp)]; exact hbs.1)
  have hesc := (flagsOf_spec n i e.2).2.1
  simp only [replayTag, hl, hrev, revTest, List.find?_nil, Bool.false_eq_true, if_false, hoff,
    hesc, hd, issued, if_true, blocks, map_cons, map_nil, Disk.run_cons,
    Disk.run_nil]

/-- The loop over the tags meets the blocks of the transaction in order. -/
theorem tagLoop_tags {uuid : List Byte} (post : List Byte) (hc : Plain c)
    (hbs : 4 ≤ c.blockSize ∧ c.blockSize < 2 ^ 32) (hm : c.maxlen < 2 ^ 32) (hu : uuid.length = 16)
    (t : Txn) (hne : t ≠ []) (ht : Staged c.bmap c.blockSize c.maxlen t) (i : Nat)
    (hn : i + t.length = n) (pre : List Byte)
    (hfit : pre.length + (tagsFrom uuid n i t).length ≤ c.blockSize) (fuel : Nat)
    (hfuel : t.length ≤ fuel) {j q : Nat} {d : Image} {ws : List (Nat × List Byte)}
    (hlog : j + t.length < c.maxlen) (hl : Logged c.bmap c.blockSize d j t) :
    tagLoop c pass (pre ++ (tagsFrom uuid n i t ++ post)) fuel pre.length ⟨j, q, [], d, ws⟩ =
      ⟨j + t.length, q, [], run d (issued pass c.blockSize t),
        ws ++ issued pass c.blockSize t⟩ := by
  induction t generalizing i pre fuel j d ws with
  | nil => exact absurd rfl hne
  | cons e t ih =>
    obtain ⟨fuel, rfl⟩ : ∃ f, fuel = f + 1 := ⟨fuel - 1, by simp at hfuel; omega⟩
    simp only [length_cons] at hn hfuel hlog
    have hone : Staged c.bmap c.blockSize c.maxlen [e] :=
      ⟨fun v hv => ht.number v (by simp_all), fun v hv => ht.whole v (by simp_all),
        fun v hv => ht.outside v (by simp_all)⟩
    rw [tagsFrom, length_append, length_tagOf hu] at hfit
    have hroom : pre.length + c.tagBytes ≤ c.blockSize := by
      rw [tagLen] at hfit
      rw [hc.tagBytes]
      omega
    have hrep : (if pass = .replay then replayTag c (flagsOf n i e.2) e.1 ⟨j, q, [], d, ws⟩
        else ⟨j, q, [], d, ws⟩) =
        ⟨j, q, [], run d (issued pass c.blockSize [e]), ws ++ issued pass c.blockSize [e]⟩ := by
      by_cases hp : pass = .replay
      · rw [if_pos hp, hp, replayTag_logged hbs hone rfl hl.1]
      · simp [issued, hp]
    have hlast : flagsOf n i e.2 &&& flagLastTag ≠ 0 ↔ t = [] := by
      rw [(flagsOf_spec n i e.2).2.2.2, ← length_eq_zero_iff]
      omega
    have hstep : pre.length + c.tagBytes + (if flagsOf n i e.2 &&& flagSameUuid ≠ 0 then 0 else 16)
        = (pre ++ tagOf uuid n i e).length := by
      rw [length_append, length_tagOf hu, tagLen, hc.tagBytes]
      simp only [(flagsOf_spec n i e.2).2.2.1]
      split_ifs <;> omega
    rw [tagLoop, if_pos hroom, tagsFrom, append_assoc, hc.csum3, hc.is64,
      tagFlags_tagOf, tagBlock_tagOf (ht.number e (by simp))]
    simp only [hrep, advance_lt hm (show j + 1 < c.maxlen by omega), hlast, hstep]
    by_cases h : t = []
    · subst h
      rfl
    · -- the rest of the tags, read from the device this block leaves
      have hl' : Logged c.bmap c.blockSize (run d (issued pass c.blockSize [e])) (j + 1) t :=
        hl.2.congr fun k h1 h2 => hone.readLog_issued pass (by omega)
      rw [if_neg h, ← append_assoc,
        ih h ht.tail (i + 1) (by omega) _ (by rw [length_append, length_tagOf hu]; omega) fuel
          (by omega) (by omega) hl', issued_cons pass c.blockSize e t, Disk.run_append,
        append_assoc, length_cons, add_assoc, add_comm 1]

theorem tidGeq_self (a : Nat) : tidGeq a a = true := by
  simp only [tidGeq, decide_eq_true_eq]
  omega

theorem tidGeq_succ {a : Nat} (h : a < 2 ^ 32) : tidGeq a ((a + 1) % 2 ^ 32) = false := by
  simp only [tidGeq, decide_eq_false_iff_not]
  omega

structure OnLog (c : Jctx) (seq : Nat) (uuid : List Byte) (t : Txn) (d : Image) : Prop where
  desc : ∃ desc, descriptor c.blockSize seq uuid t = some desc ∧
    readLog c.bmap c.blockSize d c.first = some desc
  data : Logged c.bmap c.blockSize d (c.first + 1) t
  commit : readLog c.bmap c.blockSize d (c.first + 1 + t.length) =
    some (zeroFill c.blockSize (jHeader commitBlock seq))
  stale : ∀ blk, readLog c.bmap c.blockSize d (c.advance (c.first + 1 + t.length)) = some blk →
    rd32be blk 0 = jbd2Magic → rd32be blk 8 ≠ (seq + 1) % 2 ^ 32

structure Room (c : Jctx) (t : Txn) : Prop where
  plain : Plain c
  size : 4 ≤ c.blockSize ∧ c.blockSize < 2 ^ 32
  maxlen : c.maxlen < 2 ^ 32
  blocks : c.first + 2 + t.length ≤ c.maxlen
  staged : Staged c.bmap c.blockSize c.maxlen t

section
variable {seq endSeq fuel : Nat} {uuid : List Byte} {t : Txn} {d : Image} (hr : Room c t)
    (hne : t ≠ [])
  (hu : uuid.length = 16) (hs : seq < 2 ^ 32) (ho : OnLog c seq uuid t d)

section
variable (hp : pass = .scan ∨ endSeq = (seq + 1) % 2 ^ 32)

include hs hp in
theorem not_past : ¬(pass ≠ .scan ∧ tidGeq seq endSeq = true) := by
  rintro ⟨h1, h2⟩
  rw [hp.resolve_left h1, tidGeq_succ hs] at h2
  cases h2

include ho hp

theorem passLoop_end {ws : List (Nat × List Byte)} :
    passLoop c pass endSeq (fuel + 1) ⟨c.advance (c.first + 1 + t.length), (seq + 1) % 2 ^ 32, [],
      run d (issued pass c.blockSize t), ws⟩ =
      some ⟨c.advance (c.first + 1 + t.length), (seq + 1) % 2 ^ 32, [],
        run d (issued pass c.blockSize t), ws⟩ := by
  by_cases hscan : pass = .scan
  · subst hscan
    rw [passLoop, if_neg (by simp)]
    simp only [issued, reduceCtorEq, if_false, Disk.run_nil]
    cases h : readLog c.bmap c.blockSize d (c.advance (c.first + 1 + t.length)) with
    | none => rfl
    | some blk =>
      by_cases hm : rd32be blk 0 = jbd2Magic
      · exact (if_neg (not_not.mpr hm)).trans (if_pos (ho.stale blk h hm))
      · exact if_pos hm
  · rw [passLoop, if_pos ⟨hscan, by rw [hp.resolve_left hscan]; exact tidGeq_self _⟩]

include hr hs

theorem passLoop_commit {ws : List (Nat × List Byte)} :
    passLoop c pass endSeq (fuel + 1) ⟨c.first + 1 + t.length, seq, [],
      run d (issued pass c.blockSize t), ws⟩ =
      passLoop c pass endSeq fuel ⟨c.advance (c.first + 1 + t.length), (seq + 1) % 2 ^ 32, [],
        run d (issued pass c.blockSize t), ws⟩ := by
  have hb := hr.blocks
  rw [passLoop, if_neg (not_past hs hp)]
  simp only [hr.staged.readLog_issued pass (show c.first + 1 + t.length < c.maxlen by omega),
    ho.commit, zeroFill, jHeader_magic, jHeader_seq, jHeader_btype, Nat.mod_eq_of_lt hs,
    ne_eq, not_true_eq_false, if_false]
  rw [if_neg (by decide), if_pos (by decide)]

include hne hu

theorem passLoop_desc : passLoop c pass endSeq (fuel + 1) ⟨c.first, seq, [], d, []⟩ =
      passLoop c pass endSeq fuel ⟨c.first + 1 + t.length, seq, [],
        run d (issued pass c.blockSize t), issued pass c.blockSize t⟩ := by
  obtain ⟨desc, hd, hread⟩ := ho.desc
  obtain ⟨hfit, -, pad, rfl⟩ := descriptor_eq_some hd
  have hb := hr.blocks
  have hadv : c.advance c.first = c.first + 1 := advance_lt hr.maxlen (by omega)
  have hlen : t.length ≤ c.blockSize := by
    have := length_tagsFrom (n := t.length) hu t 0
    omega
  rw [passLoop, if_neg (not_past hs hp)]
  simp only [hread, hadv, jHeader_magic, jHeader_seq, jHeader_btype, Nat.mod_eq_of_lt hs,
    ne_eq, not_true_eq_false, if_false]
  rw [if_pos (by decide), ← length_jHeader descriptorBlock seq,
    tagLoop_tags pad hr.plain hr.size hr.maxlen hu t hne hr.staged 0 (zero_add _)
      (jHeader descriptorBlock seq) hfit c.blockSize hlen (by omega) ho.data, nil_append]

end

theorem jbd2Passes_eq {start : Nat} {scan revoke replay : PassState}
    (h1 : jbd2Pass c .scan fuel start seq 0 [] d = some scan)
    (h2 : jbd2Pass c .revoke fuel start seq scan.nextSeq [] d = some revoke)
    (h3 : jbd2Pass c .replay fuel start seq scan.nextSeq revoke.rev d = some replay) :
    jbd2Passes c fuel start seq d = some (scan.nextSeq, replay) := by
  simp only [jbd2Passes, h1, h2, h3, Option.bind_eq_bind, Option.bind_some, Option.pure_def]

include hr hne hu hs ho

theorem jbd2Pass_onLog (pass : Pass) (endSeq fuel : Nat)
    (hp : pass = .scan ∨ endSeq = (seq + 1) % 2 ^ 32) :
    jbd2Pass c pass (fuel + 3) c.first seq endSeq [] d =
      some ⟨c.advance (c.first + 1 + t.length), (seq + 1) % 2 ^ 32, [],
        run d (issued pass c.blockSize t), issued pass c.blockSize t⟩ := by
  rw [jbd2Pass, passLoop_desc hr hne hu hs ho hp, passLoop_commit hr hs ho hp, passLoop_end ho hp]

theorem jbd2Passes_onLog : jbd2Passes c (fuel + 3) c.first seq d = some ((seq + 1) % 2 ^ 32,
      ⟨c.advance (c.first + 1 + t.length), (seq + 1) % 2 ^ 32, [],
        run d (blocks c.blockSize t), blocks c.blockSize t⟩) := by
  have hpass := jbd2Pass_onLog hr hne hu hs ho
  exact jbd2Passes_eq (hpass .scan 0 _ (.inl rfl)) (hpass .revoke _ _ (.inr rfl))
    (hpass .replay _ _ (.inr rfl))

end

end

end Cervus.Fs
