import Cervus.Fs.Replay

/-! When the recovery of a journal ends. A pass goes on from block to block of the log as
long as each has the sequence number that it expects, and only commit blocks change that
number; so it fails to end exactly when such blocks follow each other in a ring. -/

namespace Cervus.Fs

open Disk
open Net (Byte rd32be be32)

/-- The blocks that the tags of a descriptor are for. -/
def tagTargets (c : Jctx) (blk : List Byte) : Nat → Nat → List Nat
  | 0, _ => []
  | fuel + 1, tagp =>
    if tagp + c.tagBytes ≤ c.blockSize then
      let tf := tagFlags blk tagp c.csum3
      tagBlock blk tagp c.is64 :: if tf &&& flagLastTag ≠ 0 then [] else
        tagTargets c blk fuel (tagp + c.tagBytes + (if tf &&& flagSameUuid ≠ 0 then 0 else 16))
    else []

def Jctx.targets (c : Jctx) (blk : List Byte) : List Nat := tagTargets c blk c.blockSize headerSize

/-- The position in the log of the block after `blk`, past the data of a descriptor. -/
def logAfter (c : Jctx) (blk : List Byte) (p : Nat) : Nat :=
  if rd32be blk 4 = descriptorBlock then c.advance^[(c.targets blk).length] (c.advance p)
  else c.advance p

/-- The sequence number that the block after `blk` has to carry. -/
def seqAfter (blk : List Byte) : Nat :=
  if rd32be blk 4 = commitBlock then (rd32be blk 8 + 1) % 2 ^ 32 else rd32be blk 8

def JournalBlock (blk : List Byte) : Prop :=
  rd32be blk 0 = jbd2Magic ∧
    (rd32be blk 4 = descriptorBlock ∨ rd32be blk 4 = commitBlock ∨ rd32be blk 4 = revokeBlock)

/-- Positions of the log, not only that of the superblock, whose blocks each lead to
another of them, with the sequence number that is then due. -/
structure Ring (c : Jctx) (d : Image) (R : Set Nat) : Prop where
  start : ∃ p ∈ R, p ≠ 0
  bound : ∀ p ∈ R, p < 2 ^ 32
  follows : ∀ p ∈ R, ∃ blk, readLog c.bmap c.blockSize d p = some blk ∧ JournalBlock blk ∧
    logAfter c blk p ∈ R ∧ ∃ blk', readLog c.bmap c.blockSize d (logAfter c blk p) = some blk' ∧
      rd32be blk' 8 = seqAfter blk

/-- The device range that the replay of a tag for the block `b` writes has no log block. -/
def Outside (c : Jctx) (b : Nat) : Prop :=
  ∀ j, c.bmap j ≠ 0 → c.bmap j * c.blockSize + c.blockSize ≤ b * c.blockSize % 2 ^ 64 ∨
    b * c.blockSize % 2 ^ 64 + c.blockSize ≤ c.bmap j * c.blockSize

/-- No descriptor of the log is for a block of the log. -/
def Apart (c : Jctx) (d : Image) : Prop :=
  ∀ p blk, readLog c.bmap c.blockSize d p = some blk → rd32be blk 0 = jbd2Magic →
    rd32be blk 4 = descriptorBlock → ∀ b ∈ c.targets blk, Outside c b

/-- The pass is at the position `p` of the log, which is as in `d`, and expects `q`. -/
structure At (c : Jctx) (d : Image) (p q : Nat) (s : PassState) : Prop where
  log : s.nextLog = p
  seq : s.nextSeq = q
  blocks : ∀ j, readLog c.bmap c.blockSize s.image j = readLog c.bmap c.blockSize d j

section
variable {c : Jctx} {pass : Pass} {d : Image} {s : PassState} {p q b endSeq : Nat}
  {blk : List Byte} {R : Set Nat}

theorem advance_bounded (c : Jctx) (n : Nat) : c.advance n < 2 ^ 32 := by
  unfold Jctx.advance wrapb
  split_ifs <;> exact Nat.mod_lt _ (by norm_num)

theorem logAfter_bounded (c : Jctx) (blk : List Byte) (p : Nat) : logAfter c blk p < 2 ^ 32 := by
  unfold logAfter
  split_ifs
  · rw [← Function.iterate_succ_apply, Function.iterate_succ_apply']
    exact advance_bounded c _
  · exact advance_bounded c p

theorem At.advance (h : At c d p q s) :
    At c d (c.advance p) q { s with nextLog := c.advance s.nextLog } :=
  ⟨congrArg c.advance h.log, h.seq, h.blocks⟩

variable (hbs : 4 ≤ c.blockSize)
include hbs

/-- Replay of a tag for a block outside the log leaves the log as it is. -/
theorem At.replayTag (h : At c d p q s) (hout : Outside c b) (tf : Nat) :
    At c d p q (replayTag c tf b s) := by
  unfold Fs.replayTag
  cases hr : readLog c.bmap c.blockSize s.image s.nextLog with
  | none => exact h
  | some dbuf =>
    have hlen : dbuf.length = c.blockSize := by
      unfold readLog at hr
      split_ifs at hr
      rw [← Option.some.inj hr, Disk.length_read]
    have hpatch : (if tf &&& flagEscape ≠ 0 then patch dbuf 0 (be32 jbd2Magic) else dbuf).length =
        c.blockSize := by
      split_ifs
      · rwa [length_patch (by rw [length_be32]; omega)]
      · exact hlen
    dsimp only
    split_ifs with hrev
    · exact h
    all_goals
      refine ⟨h.log, h.seq, fun j => Eq.trans ?_ (h.blocks j)⟩
      unfold readLog
      split_ifs with hj
      · rfl
      · simp_all only [not_false_eq_true, if_true, if_false, ne_eq]
        rw [Disk.read_write_disjoint]
        have := hout j hj
        omega

/-- The tags take the pass over their data blocks. -/
theorem At.tagLoop (h : At c d p q s) {fuel tagp : Nat}
    (hout : ∀ b ∈ tagTargets c blk fuel tagp, Outside c b) :
    At c d (c.advance^[(tagTargets c blk fuel tagp).length] p) q
      (tagLoop c pass blk fuel tagp s) := by
  induction fuel generalizing tagp s p with
  | zero => exact h
  | succ fuel ih =>
    rw [Fs.tagLoop]
    rw [tagTargets] at hout ⊢
    by_cases hroom : tagp + c.tagBytes ≤ c.blockSize
    · simp only [if_pos hroom] at hout ⊢
      have hs : At c d p q (if pass = .replay then
          Fs.replayTag c (tagFlags blk tagp c.csum3) (tagBlock blk tagp c.is64) s else s) := by
        split_ifs
        · exact h.replayTag hbs (hout _ List.mem_cons_self) _
        · exact h
      by_cases hlast : tagFlags blk tagp c.csum3 &&& flagLastTag ≠ 0
      · rw [if_pos hlast, if_pos hlast]
        exact hs.advance
      · rw [if_neg hlast] at hout
        rw [if_neg hlast, if_neg hlast, List.length_cons, Function.iterate_succ_apply]
        exact ih hs.advance fun b hb => hout b (List.mem_cons_of_mem _ hb)
    · simp only [if_neg hroom]
      exact h

variable (ha : Apart c d)
include ha

/-- A round of a pass ends it, or finds a block of the log and goes to the next. -/
theorem passLoop_cases (pass : Pass) (endSeq : Nat) (h : At c d p q s) :
    (∃ r, ∀ fuel, passLoop c pass endSeq (fuel + 1) s = some r) ∨
    ∃ blk t, readLog c.bmap c.blockSize d p = some blk ∧ JournalBlock blk ∧ rd32be blk 8 = q ∧
      At c d (logAfter c blk p) (seqAfter blk) t ∧
      ∀ fuel, passLoop c pass endSeq (fuel + 1) s = passLoop c pass endSeq fuel t := by
  have hread := (h.blocks s.nextLog).trans (by rw [h.log])
  by_cases hend : pass ≠ .scan ∧ tidGeq s.nextSeq endSeq
  · exact .inl ⟨s, fun fuel => by rw [passLoop, if_pos hend]⟩
  cases hblk : readLog c.bmap c.blockSize d p with
  | none => exact .inl ⟨s, fun fuel => by rw [passLoop, if_neg hend, hread, hblk]⟩
  | some blk =>
    rw [hblk] at hread
    by_cases hm : rd32be blk 0 = jbd2Magic
    swap
    · exact .inl ⟨s, fun fuel => by simp only [passLoop, if_neg hend, hread, if_pos hm]⟩
    by_cases hq : rd32be blk 8 = s.nextSeq
    swap
    · exact .inl ⟨s, fun fuel => by
        simp only [passLoop, if_neg hend, hread, if_neg (not_not.mpr hm), if_pos hq]⟩
    have hround : ∀ fuel, passLoop c pass endSeq (fuel + 1) s = _ := fun fuel => by
      simp only [passLoop, if_neg hend, hread, if_neg (not_not.mpr hm), if_neg (not_not.mpr hq)]
      rfl
    have hseq : rd32be blk 8 = q := hq.trans h.seq
    by_cases hdesc : rd32be blk 4 = descriptorBlock
    · refine .inr ⟨blk, _, rfl, ⟨hm, .inl hdesc⟩, hseq, ?_, fun fuel => by
        rw [hround, if_pos hdesc]⟩
      rw [logAfter, if_pos hdesc, seqAfter, if_neg (by rw [hdesc]; decide), hseq]
      exact h.advance.tagLoop hbs (ha p blk hblk hm hdesc)
    by_cases hcommit : rd32be blk 4 = commitBlock
    · refine .inr ⟨blk, _, rfl, ⟨hm, .inr (.inl hcommit)⟩, hseq, ?_, fun fuel => by
        rw [hround, if_neg hdesc, if_pos hcommit]⟩
      rw [logAfter, if_neg hdesc, seqAfter, if_pos hcommit, hq]
      exact ⟨h.advance.log, rfl, h.blocks⟩
    by_cases hrevoke : rd32be blk 4 = revokeBlock
    · refine .inr ⟨blk, _, rfl, ⟨hm, .inr (.inr hrevoke)⟩, hseq, ?_, fun fuel => by
        rw [hround, if_neg hdesc, if_neg hcommit, if_pos hrevoke]⟩
      rw [logAfter, if_neg hdesc, seqAfter, if_neg hcommit, hseq]
      split_ifs
      · exact ⟨h.advance.log, h.seq, h.blocks⟩
      · exact h.advance
    · exact .inl ⟨_, fun fuel => by rw [hround, if_neg hdesc, if_neg hcommit, if_neg hrevoke]⟩

theorem passLoop_add {n : Nat} {r : PassState} (h : At c d p q s)
    (hr : passLoop c pass endSeq n s = some r) (m : Nat) :
    passLoop c pass endSeq (n + m) s = some r := by
  induction n generalizing s p q with
  | zero => cases hr
  | succ n ih =>
    rw [add_right_comm]
    rcases passLoop_cases hbs ha pass endSeq h with ⟨r', he⟩ | ⟨blk, t, -, -, -, ht, he⟩
    · rw [he, ← he n, hr]
    · rw [he] at hr ⊢
      exact ih ht hr

omit hbs ha in
theorem scan_goes (h : At c d p q s) (hr : readLog c.bmap c.blockSize d p = some blk)
    (hj : JournalBlock blk) (hq : rd32be blk 8 = q) : passLoop c .scan endSeq 1 s = none := by
  have hread := (h.blocks s.nextLog).trans (by rw [h.log])
  rw [hr] at hread
  rw [← h.seq] at hq
  rcases hj with ⟨hm, ht | ht | ht⟩ <;> simp [passLoop, hread, hm, hq, ht]

/-- In a ring the scan never ends: every round comes to another of its blocks. -/
theorem Ring.endless (hr : Ring c d R) (hp : p ∈ R)
    (hb : readLog c.bmap c.blockSize d p = some blk) (h : At c d p (rd32be blk 8) s) (fuel : Nat) :
    passLoop c .scan endSeq fuel s = none := by
  induction fuel generalizing s p blk with
  | zero => rfl
  | succ fuel ih =>
    obtain ⟨blk₁, hb₁, hj, hnext, blk', hb', hseq⟩ := hr.follows p hp
    obtain rfl := Option.some.inj (hb.symm.trans hb₁)
    rcases passLoop_cases hbs ha .scan endSeq h with ⟨r, he⟩ | ⟨blk₂, t, hb₂, -, -, ht, he⟩
    · cases (he 0).symm.trans (scan_goes h hb hj rfl)
    · obtain rfl := Option.some.inj (hb.symm.trans hb₂)
      rw [he]
      exact ih hnext hb' (hseq ▸ ht)

/-- The positions from which a pass does not end are a ring. -/
theorem passLoop_ends (hn : ¬∃ R, Ring c d R) (pass : Pass) (endSeq : Nat) (h : At c d p q s)
    (h0 : p ≠ 0) (hp : p < 2 ^ 32) : ∃ fuel r, passLoop c pass endSeq fuel s = some r := by
  by_contra hno
  have hnone : ∀ fuel, passLoop c pass endSeq fuel s = none := fun fuel =>
    Option.eq_none_iff_forall_not_mem.mpr fun r hr => hno ⟨fuel, r, hr⟩
  have hgo : ∀ {p q s}, At c d p q s → (∀ fuel, passLoop c pass endSeq fuel s = none) →
      ∃ blk t, readLog c.bmap c.blockSize d p = some blk ∧ JournalBlock blk ∧ rd32be blk 8 = q ∧
        At c d (logAfter c blk p) (seqAfter blk) t ∧
        ∀ fuel, passLoop c pass endSeq fuel t = none := by
    intro p q s h hs
    rcases passLoop_cases hbs ha pass endSeq h with ⟨r, he⟩ | ⟨blk, t, hb, hj, hq, ht, he⟩
    · cases (he 0).symm.trans (hs 1)
    · exact ⟨blk, t, hb, hj, hq, ht, fun fuel => (he fuel).symm.trans (hs _)⟩
  refine hn ⟨{p | p < 2 ^ 32 ∧ ∃ q s, At c d p q s ∧
    ∀ fuel, passLoop c pass endSeq fuel s = none}, ⟨p, ⟨hp, q, s, h, hnone⟩, h0⟩, fun _ h =>
    h.1, ?_⟩
  rintro p ⟨-, q, s, h, hs⟩
  obtain ⟨blk, t, hb, hj, -, ht, hnt⟩ := hgo h hs
  obtain ⟨blk', -, hb', -, hq', -⟩ := hgo ht hnt
  exact ⟨blk, hb, hj, ⟨logAfter_bounded c blk p, _, t, ht, hnt⟩, blk', hb', hq'⟩

theorem jbd2Passes_ends (hn : ¬∃ R, Ring c d R) (h0 : p ≠ 0) (hp : p < 2 ^ 32) (q : Nat) :
    ∃ fuel, (jbd2Passes c fuel p q d).isSome := by
  have hat : ∀ rev, At c d p q ⟨p, q, rev, d, []⟩ := fun _ => ⟨rfl, rfl, fun _ => rfl⟩
  obtain ⟨f1, scan, h1⟩ := passLoop_ends hbs ha hn .scan 0 (hat []) h0 hp
  obtain ⟨f2, revoke, h2⟩ := passLoop_ends hbs ha hn .revoke scan.nextSeq (hat []) h0 hp
  obtain ⟨f3, replay, h3⟩ := passLoop_ends hbs ha hn .replay scan.nextSeq (hat revoke.rev) h0 hp
  refine ⟨f1 + f2 + f3, ?_⟩
  have e1 := passLoop_add hbs ha (hat _) h1 (f2 + f3)
  have e2 := passLoop_add hbs ha (hat _) h2 (f1 + f3)
  have e3 := passLoop_add hbs ha (hat _) h3 (f1 + f2)
  rw [show f1 + (f2 + f3) = f1 + f2 + f3 by omega] at e1
  rw [show f2 + (f1 + f3) = f1 + f2 + f3 by omega] at e2
  rw [show f3 + (f1 + f2) = f1 + f2 + f3 by omega] at e3
  simp only [jbd2Passes, jbd2Pass, e1, e2, e3, Option.bind_eq_bind, Option.bind_some]
  rfl

theorem jbd2Passes_ends_iff :
    (∀ p q, p ≠ 0 → p < 2 ^ 32 → ∃ fuel, (jbd2Passes c fuel p q d).isSome) ↔
      ¬∃ R, Ring c d R := by
  refine ⟨?_, fun hn p q h0 hp => jbd2Passes_ends hbs ha hn h0 hp q⟩
  rintro hends ⟨R, hr⟩
  obtain ⟨p, hp, h0⟩ := hr.start
  obtain ⟨blk, hb, -⟩ := hr.follows p hp
  obtain ⟨fuel, hf⟩ := hends p (rd32be blk 8) h0 (hr.bound p hp)
  rw [jbd2Passes, jbd2Pass, hr.endless hbs ha hp hb ⟨rfl, rfl, fun _ => rfl⟩] at hf
  cases hf

end

/-- The superblock of a journal whose log is the one block 1. -/
def ringJsb : List Byte :=
  patch (patch (patch (patch (zeroFill 1024 (jHeader 4 0)) jMaxlen (be32 2)) jFirst (be32 1))
    jSequence (be32 7)) jStart (be32 1)

def ringImage (btype : Nat) : Image :=
  write (write (fun _ => 0) (100 * 1024) ringJsb) (101 * 1024) (zeroFill 1024 (jHeader btype 7))

def ringEnv : Env := ⟨fun _ _ => 0, fun j => if j < 2 then 100 + j else 0⟩

def ringFs : Ext2 := ⟨[], [], none, 1024, 0, 32, false, false, 0, true⟩

def ringJctx : Jctx := jctxOf ringEnv.bmap 1024 ringJsb

theorem ringImage_log (btype : Nat) :
    readLog ringEnv.bmap 1024 (ringImage btype) 1 = some (zeroFill 1024 (jHeader btype 7)) := by
  have hlen : (zeroFill 1024 (jHeader btype 7)).length = 1024 :=
    length_zeroFill (by rw [length_jHeader]; decide)
  have h := @Disk.read_write _ (write (fun _ => (0 : Byte)) (100 * 1024) ringJsb) (101 * 1024)
    (zeroFill 1024 (jHeader btype 7))
  rw [hlen] at h
  exact congrArg some h

theorem ringImage_super (btype : Nat) :
    readLog ringEnv.bmap 1024 (ringImage btype) 0 = some ringJsb := by
  have hlen : ringJsb.length = 1024 := by decide +kernel
  have h := @Disk.read_write _ (fun _ => (0 : Byte)) (100 * 1024) ringJsb
  rw [hlen] at h
  exact congrArg some ((Disk.read_write_disjoint (.inl (by decide))).trans h)

theorem ringImage_one {btype p : Nat} {blk : List Byte} (h0 : p ≠ 0)
    (h : readLog ringEnv.bmap 1024 (ringImage btype) p = some blk) :
    p = 1 ∧ blk = zeroFill 1024 (jHeader btype 7) := by
  have hp : p < 2 := by
    by_contra hp
    rw [readLog, if_pos (show ringEnv.bmap p = 0 from if_neg hp)] at h
    cases h
  obtain rfl : p = 1 := by omega
  exact ⟨rfl, Option.some.inj (h.symm.trans (ringImage_log btype))⟩

theorem ringImage_apart {btype : Nat}
    (h : rd32be (zeroFill 1024 (jHeader btype 7)) 4 ≠ descriptorBlock) :
    Apart ringJctx (ringImage btype) := by
  intro p blk hb _ hd
  by_cases h0 : p = 0
  · subst h0
    rw [← Option.some.inj ((ringImage_super btype).symm.trans hb)] at hd
    exact absurd hd (by decide +kernel)
  · rw [(ringImage_one h0 hb).2] at hd
    exact absurd hd h

end Cervus.Fs
