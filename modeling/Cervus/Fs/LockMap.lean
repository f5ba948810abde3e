import Cervus.Fs.Flock

/-! What a lock call does to the bytes. Clearing a range cuts every lock of the owner, slot by slot;
the pieces go to free slots, and those that the scan has yet to visit are not cut again. -/

namespace Cervus.Fs

open List

/-- The vnode 0 is `NULL`. -/
def vfsLockSet (g : LockTable) (q : FileLock) : Int × LockTable :=
  if q.vnode = 0 then (-Errno.einval, g)
  else if q.type ≠ .unlock ∧ vfsLockTest g q < 0 then (vfsLockTest g q, g)
  else lockReplace g q

def FileLock.At (l : FileLock) (vnode owner b : Nat) : Prop :=
  l.vnode = vnode ∧ l.owner = owner ∧ l.start ≤ b ∧ b ≤ l.stop

instance (l : FileLock) (vnode owner b : Nat) : Decidable (l.At vnode owner b) :=
  inferInstanceAs (Decidable (_ ∧ _))

/-- `owner` has byte `b` of `vnode` locked for `t`. -/
def Locked (g : LockTable) (vnode owner b : Nat) (t : LockType) : Prop :=
  ∃ l, some l ∈ g ∧ l.At vnode owner b ∧ l.type = t

structure TableOk (g : LockTable) : Prop where
  length : g.length = vfsMaxLocks
  word : ∀ l, some l ∈ g → l.stop < 2 ^ 64
  apart : TableApart g

/-- The lock `l` is one that clearing the range of `q` cuts. -/
def FileLock.Hit (q l : FileLock) : Prop :=
  l.vnode = q.vnode ∧ l.owner = q.owner ∧ l.overlaps q.start q.stop

section
variable {g g' g'' : LockTable} {l q x y : FileLock} {ls ls' : List FileLock}
    {vnode owner b i j start stop : Nat}
  {t : LockType}

theorem hit_of_at (hl : l.At q.vnode q.owner b) (hb : q.start ≤ b ∧ b ≤ q.stop) : q.Hit l := by
  obtain ⟨hv, ho, h1, h2⟩ := hl
  exact ⟨hv, ho, overlaps_iff.mpr (by omega)⟩

theorem not_hit_of_piece (h : x ∈ l.pieces q.start q.stop) : ¬q.Hit x := by
  rintro ⟨-, -, ho⟩
  rw [overlaps_iff] at ho
  obtain ⟨h1, rfl⟩ | ⟨h1, rfl⟩ := mem_pieces.mp h <;> dsimp only at ho <;> omega

/-- Outside the range the pieces hold what the lock held. -/
theorem at_pieces (hle : start ≤ l.stop ∧ l.start ≤ stop) (hb : ¬(start ≤ b ∧ b ≤ stop)) :
    l.At vnode owner b ↔
    ∃ x ∈ l.pieces start stop, x.type = l.type ∧ x.At vnode owner b := by
  constructor
  · rintro ⟨hv, ho, h1, h2⟩
    rcases Nat.lt_or_ge b start with h | h
    · exact ⟨_, mem_pieces.mpr (.inl ⟨by omega, rfl⟩), rfl, hv, ho, h1, by dsimp only; omega⟩
    · exact ⟨_, mem_pieces.mpr (.inr ⟨by omega, rfl⟩), rfl, hv, ho, by dsimp only; omega, h2⟩
  · rintro ⟨x, hx, -, hv, ho, h1, h2⟩
    obtain ⟨h3, rfl⟩ | ⟨h3, rfl⟩ := mem_pieces.mp hx
    · exact ⟨hv, ho, h1, by dsimp only at h1 h2; omega⟩
    · exact ⟨hv, ho, by dsimp only at h1 h2; omega, h2⟩

theorem FileLock.Apart.piece (h : l.Apart y) (hle : start ≤ l.stop ∧ l.start ≤ stop)
    (hx : x ∈ l.pieces start stop) :
    x.Apart y := by
  obtain ⟨h1, rfl⟩ | ⟨h1, rfl⟩ := mem_pieces.mp hx <;> intro hv ho <;> have :=
    h hv ho <;> dsimp only <;> omega

theorem tableApart_drop (hg : TableApart g) (hi : g[i]? = some (some l)) :
    TableApart (g.set i none) ∧ ∀ y, some y ∈ g.set i none → l.Apart y := by
  induction g generalizing i with
  | nil => cases hi
  | cons s g ih =>
    obtain ⟨h1, h2⟩ := pairwise_cons.mp hg
    cases i with
    | zero =>
      cases hi
      refine ⟨pairwise_cons.mpr ⟨nofun, h2⟩, fun y hy => ?_⟩
      exact h1 _ ((mem_cons.mp hy).resolve_left nofun) l rfl y rfl
    | succ i =>
      obtain ⟨ih1, ih2⟩ := ih h2 hi
      refine ⟨pairwise_cons.mpr ⟨fun t ht a ha b hb => ?_, ih1⟩, fun y hy => ?_⟩
      · cases hb
        exact h1 _ (mem_of_mem_set_none ht) a ha b rfl
      · rcases mem_cons.mp hy with rfl | hy
        · exact (h1 _ (mem_of_getElem? hi) y rfl l rfl).symm
        · exact ih2 y hy

theorem pairwise_pieces (hle : start ≤ stop) : (l.pieces start stop).Pairwise FileLock.Apart := by
  unfold FileLock.pieces
  split_ifs
  · refine pairwise_cons.mpr ⟨fun y hy _ _ => ?_, pairwise_singleton ..⟩
    cases mem_singleton.mp hy
    dsimp only
    omega
  · exact pairwise_singleton ..
  · exact pairwise_singleton ..
  · exact .nil

theorem locked_set_none (hi : g[i]? = some (some l)) : Locked g vnode owner b t ↔
    (l.At vnode owner b ∧ l.type = t) ∨ Locked (g.set i none) vnode owner b t := by
  constructor
  · rintro ⟨x, hx, hat⟩
    obtain ⟨j, hj⟩ := mem_iff_getElem?.mp hx
    by_cases hji : i = j
    · subst hji
      cases hi.symm.trans hj
      exact .inl hat
    · exact .inr ⟨x, mem_of_getElem? (getElem?_set_ne hji ▸ hj), hat⟩
  · rintro (hat | ⟨x, hx, hat⟩)
    · exact ⟨l, mem_of_getElem? hi, hat⟩
    · exact ⟨x, mem_of_mem_set_none hx, hat⟩

/-- The outcome of clearing the range of `q`: every lock that it meets is cut, or the second
piece of one that reaches over both ends finds no slot. -/
structure Cleared (q : FileLock) (g : LockTable) (r : Int × LockTable) : Prop where
  length : r.2.length = g.length
  apart : q.start ≤ q.stop → TableApart g → TableApart r.2
  done : (r.1 = 0 ∧ (∀ y, some y ∈ r.2 → ¬q.Hit y) ∧ ∀ vnode owner b t, ¬q.At vnode owner b →
      (Locked r.2 vnode owner b t ↔ Locked g vnode owner b t)) ∨
    (r.1 < 0 ∧ ∃ l, some l ∈ g ∧ q.Hit l ∧ l.start < q.start ∧ q.stop < l.stop ∧
      (TableApart g → q.start ≤ q.stop → ∀ t, ¬Locked r.2 q.vnode q.owner q.start t))

theorem Cleared.of_zero {r : Int × LockTable} (h : Cleared q g r) (h0 : r.1 = 0) :
    (∀ y, some y ∈ r.2 → ¬q.Hit y) ∧
    ∀ vnode owner b t, ¬q.At vnode owner b → (Locked r.2 vnode owner b t ↔
    Locked g vnode owner b t) :=
  (h.done.resolve_right fun hneg => by omega).2

/-- One turn of the loop that meets a lock. -/
theorem Cleared.step {r : Int × LockTable} (hi : g[i]? = some (some l)) (hl : q.Hit l)
    (hf : Filled (g.set i none) (l.pieces q.start q.stop) g') (h : Cleared q g' r) :
    Cleared q g r := by
  obtain ⟨hv, ho, hov⟩ := hl
  have hle := (overlaps_iff.mp hov).symm
  have hapart : q.start ≤ q.stop → TableApart g → TableApart g' := fun hq hg => by
    obtain ⟨h1, h2⟩ := tableApart_drop hg hi
    exact hf.apart h1 (pairwise_pieces hq) fun x hx y hy => (h2 y hy).piece hle hx
  refine ⟨h.length.trans (hf.length.trans length_set), fun hq hg => h.apart hq (hapart hq hg), ?_⟩
  rcases h.done with ⟨h0, hno, hsame⟩ | ⟨hneg, x, hx, hhit, h1, h2, hlost⟩
  · refine .inl ⟨h0, hno, fun vnode owner b t hb => (hsame vnode owner b t hb).trans ?_⟩
    have hcut : l.At vnode owner b ↔ ∃ x ∈ l.pieces q.start q.stop, x.type = l.type ∧
        x.At vnode owner b := by
      by_cases hown : l.vnode = vnode ∧ l.owner = owner
      · refine at_pieces hle fun hin => hb ?_
        exact ⟨hv.symm.trans hown.1, ho.symm.trans hown.2, hin⟩
      · refine iff_of_false (fun hat => hown ⟨hat.1, hat.2.1⟩) ?_
        rintro ⟨x, hx, -, hat⟩
        have hp := part_of_piece hov hx
        exact hown ⟨hp.1 ▸ hat.1, hp.2.1 ▸ hat.2.1⟩
    rw [locked_set_none hi, hcut]
    constructor
    · rintro ⟨x, hx, hat, ht⟩
      rcases hf.mem hx with hp | hx
      · have htype := (part_of_piece hov hp).2.2.1
        exact .inl ⟨⟨x, hp, htype, hat⟩, htype.symm.trans ht⟩
      · exact .inr ⟨x, hx, hat, ht⟩
    · rintro (⟨⟨x, hp, he, hat⟩, ht⟩ | ⟨x, hx, hat, ht⟩)
      · exact ⟨x, hf.added x hp, hat, he.trans ht⟩
      · exact ⟨x, hf.kept x hx, hat, ht⟩
  · refine .inr ⟨hneg, x, ?_, hhit, h1, h2, fun hg hq => hlost (hapart hq hg) hq⟩
    rcases hf.mem hx with hp | hx
    · exact absurd hhit (not_hit_of_piece hp)
    · exact mem_of_mem_set_none hx

/-- Clearing goes once over the table and cuts every lock that it meets. -/
theorem lockClearFrom_spec (q : FileLock) (n i : Nat) (g : LockTable) (hn : g.length ≤ i + n)
    (hst : ∀ j < i, ∀ y, g[j]? = some (some y) → ¬q.Hit y) :
    Cleared q g (lockClearFrom q.vnode q.start q.stop q.owner n i g) := by
  induction n generalizing i g with
  | zero =>
    refine ⟨rfl, fun _ h => h, .inl ⟨rfl, fun y hy => ?_, fun _ _ _ _ _ => Iff.rfl⟩⟩
    obtain ⟨j, hj⟩ := mem_iff_getElem?.mp hy
    have hlt : j < g.length := (List.getElem?_eq_some_iff.mp hj).1
    exact hst j (by omega) y hj
  | succ n ih =>
    have hskip : (∀ y, g[i]? = some (some y) → ¬q.Hit y) →
        Cleared q g (lockClearFrom q.vnode q.start q.stop q.owner n (i + 1) g) := by
      intro hi
      refine ih (i + 1) g (by omega) fun j hj y hy => ?_
      rcases Nat.lt_succ_iff_lt_or_eq.mp hj with hj | rfl
      · exact hst j hj y hy
      · exact hi y hy
    unfold lockClearFrom
    split
    next l hi =>
      split_ifs with hl
      · dsimp only
        rcases lockSplit_spec (mem_set_none hi) l q.start q.stop with ⟨h0, hf⟩ | ⟨hneg, h1, h2, hf⟩
        · rw [if_neg (by omega)]
          refine .step hi hl hf (ih (i + 1) _ ?_ fun j hj y hy => ?_)
          · rw [hf.length, length_set]
            omega
          · rcases hf.slot j y hy with hp | hy
            · exact not_hit_of_piece hp
            · rw [getElem?_set] at hy
              split_ifs at hy with hij
              · cases hy
              · exact hst j (by omega) y hy
        · rw [if_pos hneg]
          have hdrop := fun hg => tableApart_drop (l := l) hg hi
          have hle := (overlaps_iff.mp hl.2.2).symm
          have hleft : { l with stop := q.start - 1 } ∈ l.pieces q.start q.stop :=
            mem_pieces.mpr (.inl ⟨h1, rfl⟩)
          refine ⟨hf.length.trans length_set, fun _ hg =>
            ?_, .inr ⟨hneg, l, mem_of_getElem? hi, hl, h1, h2, ?_⟩⟩
          · refine hf.apart (hdrop hg).1 (pairwise_singleton ..) fun x hx y hy => ?_
            exact ((hdrop hg).2 y hy).piece hle (mem_singleton.mp hx ▸ hleft)
          · rintro hg hq t ⟨x, hx, ⟨hv, ho, h3, h4⟩, -⟩
            rcases hf.mem hx with hx | hx
            · cases mem_singleton.mp hx
              dsimp only at h4
              omega
            · have := (hdrop hg).2 x hx (hl.1.trans hv.symm) (hl.2.1.trans ho.symm)
              omega
      · refine hskip fun y hy => ?_
        cases hi.symm.trans hy
        exact hl
    next hi => exact hskip fun y hy => absurd hy (hi y)

theorem cleared (q : FileLock) (hg : g.length = vfsMaxLocks) :
    Cleared q g (lockClearRange g q.vnode q.start q.stop q.owner) :=
  lockClearFrom_spec q vfsMaxLocks 0 g (by omega) nofun

/-- A call that gets past its test: the range is cleared, and it fails if no slot is left. -/
theorem lockReplace_cases (hg : g.length = vfsMaxLocks) (q : FileLock) :
    let r := lockClearRange g q.vnode q.start q.stop q.owner
    (r.1 < 0 ∧ lockReplace g q = r) ∨ (r.1 = 0 ∧ q.type = .unlock ∧ lockReplace g q = r) ∨
      (r.1 = 0 ∧ lockReplace g q = (-Errno.enolck, r.2)) ∨
      (r.1 = 0 ∧ q.type ≠ .unlock ∧ (lockReplace g q).1 = 0 ∧
      Filled r.2 [q] (lockReplace g q).2) := by
  dsimp only
  unfold lockReplace
  dsimp only
  rcases (cleared q hg).done with ⟨h0, -⟩ | ⟨hneg, -⟩
  · split_ifs with hc
    · rcases lockInsert_spec (lockClearRange g q.vnode q.start q.stop q.owner).2 q
        with ⟨he, -⟩ | ⟨h1, hf⟩
      · exact .inr (.inr (.inl ⟨h0, he⟩))
      · exact .inr (.inr (.inr ⟨h0, hc.2, h1, hf⟩))
    · exact .inr (.inl ⟨h0, not_not.mp fun hu => hc ⟨h0, hu⟩, rfl⟩)
  · rw [if_neg (by omega)]
    exact .inl ⟨hneg, rfl⟩

theorem TableOk.lockReplace (hg : TableOk g) (hq : q.start ≤ q.stop) (hw : q.stop < 2 ^ 64) :
    TableOk (lockReplace g q).2 := by
  have hc := cleared q hg.length
  have hcl : TableOk (lockClearRange g q.vnode q.start q.stop q.owner).2 := by
    refine ⟨hc.length.trans hg.length, fun l hl => ?_, hc.apart hq hg.apart⟩
    obtain ⟨b, hb, hp⟩ := lockClearFrom_refines q.vnode q.start q.stop q.owner vfsMaxLocks 0 g l hl
    exact lt_of_le_of_lt hp.2.2.2.2 (hg.word b hb)
  rcases lockReplace_cases hg.length q with ⟨-, he⟩ | ⟨-, -, he⟩ | ⟨-, he⟩ | ⟨h0, -, -, hf⟩
  · rw [he]
    exact hcl
  · rw [he]
    exact hcl
  · rw [he]
    exact hcl
  · refine ⟨hf.length.trans hcl.length, fun l hl =>
      ?_, hf.apart hcl.apart (pairwise_singleton ..) fun x hx y hy hv ho => ?_⟩
    · rcases hf.mem hl with hl | hl
      · exact mem_singleton.mp hl ▸ hw
      · exact hcl.word l hl
    · cases mem_singleton.mp hx
      have := (hc.of_zero h0).1 y hy
      simp only [FileLock.Hit, overlaps_iff, hv, ho, true_and] at this
      omega

/-- After a clear that succeeds, nothing is locked in the range. -/
theorem Cleared.locked_iff {r : Int × LockTable} (h : Cleared q g r) (h0 : r.1 = 0) :
    Locked r.2 vnode owner b t ↔ ¬q.At vnode owner b ∧ Locked g vnode owner b t := by
  obtain ⟨hno, hsame⟩ := h.of_zero h0
  by_cases hb : q.At vnode owner b
  · refine iff_of_false ?_ fun hn => hn.1 hb
    rintro ⟨x, hx, hat, -⟩
    obtain ⟨rfl, rfl, hin⟩ := hb
    exact hno x hx (hit_of_at hat hin)
  · rw [hsame _ _ _ _ hb]
    exact (and_iff_right hb).symm

theorem Filled.locked_iff (h : Filled g [q] g') :
    Locked g' vnode owner b t ↔ (q.At vnode owner b ∧ q.type = t) ∨ Locked g vnode owner b t := by
  constructor
  · rintro ⟨x, hx, hat⟩
    rcases h.mem hx with hx | hx
    · exact .inl (mem_singleton.mp hx ▸ hat)
    · exact .inr ⟨x, hx, hat⟩
  · rintro (hat | ⟨x, hx, hat⟩)
    · exact ⟨q, h.added q mem_cons_self, hat⟩
    · exact ⟨x, h.kept x hx, hat⟩

end

/-- A call that returns 0 writes its type over the range of its owner, or clears the range, and
changes nothing else; the locks of an owner stay apart, and no bound leaves the 64 bits. -/
theorem lock_set_map {g : LockTable} {q : FileLock} (hg : g.length = vfsMaxLocks)
    (hq : q.start ≤ q.stop) (h : (vfsLockSet g q).1 = 0) :
    (∀ vnode owner b t, Locked (vfsLockSet g q).2 vnode owner b t ↔
      if q.At vnode owner b then q.type = t ∧ t ≠ .unlock else Locked g vnode owner b t) ∧
    (TableOk g → q.stop < 2 ^ 64 → TableOk (vfsLockSet g q).2) := by
  have hset : vfsLockSet g q = lockReplace g q := by
    unfold vfsLockSet at h ⊢
    split_ifs at h ⊢ with h1 h2
    · exact absurd h (by decide : -Errno.einval ≠ 0)
    · dsimp only at h
      omega
    · rfl
  rw [hset] at h ⊢
  have hc := cleared q hg
  refine ⟨fun vnode owner b t => ?_, fun hok hw => hok.lockReplace hq hw⟩
  rcases lockReplace_cases hg q with ⟨hneg, he⟩ | ⟨h0, hu, he⟩ | ⟨-, he⟩ | ⟨h0, hu, -, hf⟩
  · rw [he] at h
    omega
  · rw [he, hc.locked_iff h0, hu]
    split_ifs with hb
    · exact iff_of_false (fun hn => hn.1 hb) fun hn => hn.2 hn.1.symm
    · exact and_iff_right hb
  · rw [he] at h
    exact absurd h (by decide : -Errno.enolck ≠ 0)
  · rw [hf.locked_iff, hc.locked_iff h0]
    split_ifs with hb
    · refine ⟨fun hl => ?_, fun ht => .inl ⟨hb, ht.1⟩⟩
      rcases hl with ⟨-, rfl⟩ | hl
      · exact ⟨rfl, hu⟩
      · exact absurd hb hl.1
    · exact ⟨fun hl => (hl.resolve_left fun hn => hb hn.1).2, fun hl => .inr ⟨hb, hl⟩⟩

/-- Bytes of vnode 1 that the owners 1 and 2 have locked to read. -/
def sharedLocks : LockTable :=
  some ⟨1, 0, 9, .read, 1⟩ :: some ⟨1, 8, 29, .read, 2⟩ :: replicate 254 none

/-- Owner 1 locks three bytes in the middle of its own to write. -/
theorem lock_set_map_split : let g := (vfsLockSet sharedLocks ⟨1, 3, 5, .write, 1⟩).2
    Locked g 1 1 2 .read ∧ Locked g 1 1 4 .write ∧ ¬Locked g 1 1 4 .read ∧ Locked g 1 1 6 .read ∧
      Locked g 1 2 8 .read := by
  have h := (lock_set_map (g := sharedLocks) (q := ⟨1, 3, 5, .write, 1⟩) (by decide +kernel)
    (by decide) (by decide +kernel)).1
  have hown : ∀ b ≤ 9, Locked sharedLocks 1 1 b .read := fun b hb =>
    ⟨_, mem_cons_self, ⟨rfl, rfl, b.zero_le, hb⟩, rfl⟩
  refine ⟨(h ..).mpr ((if_neg (by decide)).mpr (hown 2 (by decide))),
    (h ..).mpr ((if_pos (by decide)).mpr (by decide)), fun hl => ?_,
    (h ..).mpr ((if_neg (by decide)).mpr (hown 6 (by decide))),
    (h ..).mpr ((if_neg (by decide)).mpr ?_)⟩
  · cases ((if_pos (by decide)).mp ((h ..).mp hl)).1
  · exact ⟨_, mem_cons_of_mem _ mem_cons_self, by decide, rfl⟩

/-- A call that fails leaves the bytes as they were, unless it has got past its test and its
owner has locks in the range: those are lost where the table has no room for the pieces or the
new lock. -/
theorem lock_failure_iff {g : LockTable} {q : FileLock} (hg : TableOk g) (hq : q.start ≤ q.stop)
    (h : (vfsLockSet g q).1 < 0) :
    (∀ vnode owner b t, Locked (vfsLockSet g q).2 vnode owner b t ↔ Locked g vnode owner b t) ↔
      (q.vnode = 0 ∨ (q.type ≠ .unlock ∧ vfsLockTest g q < 0)) ∨
        ∀ b t, q.start ≤ b → b ≤ q.stop → ¬Locked g q.vnode q.owner b t := by
  unfold vfsLockSet at h ⊢
  split_ifs at h ⊢ with h1 h2
  · exact iff_of_true (fun _ _ _ _ => Iff.rfl) (.inl (.inl h1))
  · exact iff_of_true (fun _ _ _ _ => Iff.rfl) (.inl (.inr h2))
  have hc := cleared q hg.length
  rw [or_iff_right (by tauto)]
  rcases lockReplace_cases hg.length q with ⟨hneg, he⟩ | ⟨h0, -, he⟩ | ⟨h0, he⟩ | ⟨-, -, h0, -⟩
  · -- the second piece of `l` is lost, and the bytes of the range with it
    obtain ⟨-, l, hl, hhit, h3, h4, hlost⟩ := hc.done.resolve_left fun h0 => by omega
    have hheld : Locked g q.vnode q.owner q.start l.type :=
      ⟨l, hl, ⟨hhit.1, hhit.2.1, by omega, by omega⟩, rfl⟩
    rw [he]
    refine iff_of_false (fun hs => ?_) fun hn => hn q.start l.type (le_refl _) hq hheld
    exact hlost hg.apart hq l.type ((hs ..).mpr hheld)
  · rw [he] at h
    omega
  · rw [he]
    constructor
    · intro hs b t hb1 hb2 hl
      exact (hc.locked_iff h0).mp ((hs ..).mpr hl) |>.1 ⟨rfl, rfl, hb1, hb2⟩
    · intro hn vnode owner b t
      refine (hc.locked_iff h0).trans (and_iff_right_of_imp fun hl hb => ?_)
      obtain ⟨rfl, rfl, hb1, hb2⟩ := hb
      exact hn b t hb1 hb2 hl
  · omega

/-- The first ten bytes of vnode 1 locked by 1, and no slot left. -/
def fullLocks : LockTable :=
  some ⟨1, 0, 9, .write, 1⟩ :: (range 255).map fun k => some ⟨k + 2, 0, 0, .read, 2⟩

theorem fullLocks_ok : TableOk fullLocks := by
  have h : fullLocks.length = vfsMaxLocks ∧ (∀ s ∈ fullLocks, ∀ l ∈ s, l.stop < 2 ^ 64) ∧
      fullLocks.Pairwise fun s t => ∀ a ∈ s, ∀ b ∈ t, a.Apart b := by decide +kernel
  exact ⟨h.1, fun l hl => h.2.1 _ hl l rfl, h.2.2⟩

/-- A new owner is refused for want of a slot. -/
theorem lock_failure_iff_full : (vfsLockSet fullLocks ⟨3, 5, 6, .read, 3⟩).1 < 0 ∧
    ∀ b t, Locked (vfsLockSet fullLocks ⟨3, 5, 6, .read, 3⟩).2 3 3 b t ↔
    Locked fullLocks 3 3 b t := by
  have hneg : (vfsLockSet fullLocks ⟨3, 5, 6, .read, 3⟩).1 < 0 := by decide +kernel
  refine ⟨hneg, fun b t => (lock_failure_iff fullLocks_ok (by decide) hneg).mpr (.inr ?_) 3 3 b t⟩
  rintro b t - - ⟨l, hl, hat, -⟩
  have h : ∀ s ∈ fullLocks, ∀ l ∈ s, l.owner ≠ 3 := by decide +kernel
  exact h _ hl l rfl hat.2.1

/-- Unlocking the middle fails, and the end of the lock is gone. -/
theorem unlock_loses_end :
    TableOk fullLocks ∧ (vfsLockSet fullLocks ⟨1, 3, 5, .unlock, 1⟩).1 = -Errno.enolck ∧
    Locked fullLocks 1 1 9 .write ∧
    ¬Locked (vfsLockSet fullLocks ⟨1, 3, 5, .unlock, 1⟩).2 1 1 9 .write := by
  refine ⟨fullLocks_ok, by decide +kernel, ⟨_, mem_cons_self, by decide, rfl⟩, ?_⟩
  rintro ⟨l, hl, hat, -⟩
  have h : ∀ s ∈ (vfsLockSet fullLocks ⟨1, 3, 5, .unlock, 1⟩).2, ∀ l ∈ s, ¬l.At 1 1 9 := by
    decide +kernel
  exact h _ hl l rfl hat

end Cervus.Fs
