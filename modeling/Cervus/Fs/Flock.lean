import Mathlib.Algebra.Group.Nat.Defs
import Mathlib.Data.Nat.Basic
import Cervus.Errno
import Cervus.Lib.Run

/-! Record locks: one table of byte ranges, searched in one critical section and
changed in another. -/

namespace Cervus.Fs

open List Function

inductive LockType
  | read | write | unlock
  deriving DecidableEq

structure FileLock where
  vnode : Nat
  start : Nat
  stop : Nat
  type : LockType
  owner : Nat
  deriving DecidableEq

def vfsMaxLocks : Nat := 256

/-- A slot that is not used is `none`. -/
abbrev LockTable := List (Option FileLock)

def FileLock.overlaps (l : FileLock) (start stop : Nat) : Bool := l.start ≤ stop && start ≤ l.stop

def lockInsert : LockTable → FileLock → Int × LockTable
  | [], _ => (-Errno.enolck, [])
  | none :: g, l => (0, some l :: g)
  | some x :: g, l => ((lockInsert g l).1, some x :: (lockInsert g l).2)

def lockSplit (g : LockTable) (l : FileLock) (start stop : Nat) : Int × LockTable :=
  let r := if l.start < start then lockInsert g { l with stop := start - 1 } else (0, g)
  if r.1 < 0 then r
  else if l.stop > stop then lockInsert r.2 { l with start := stop + 1 }
  else (0, r.2)

def lockClearFrom (vnode start stop owner : Nat) : Nat → Nat → LockTable → Int × LockTable
  | 0, _, g => (0, g)
  | n + 1, i, g =>
    match g[i]? with
    | some (some l) =>
      if l.vnode = vnode ∧ l.owner = owner ∧ l.overlaps start stop then
        let r := lockSplit (g.set i none) l start stop
        if r.1 < 0 then r else lockClearFrom vnode start stop owner n (i + 1) r.2
      else lockClearFrom vnode start stop owner n (i + 1) g
    | _ => lockClearFrom vnode start stop owner n (i + 1) g

def lockClearRange (g : LockTable) (vnode start stop owner : Nat) : Int × LockTable :=
  lockClearFrom vnode start stop owner vfsMaxLocks 0 g

def vfsLockConflict (g : LockTable) (q : FileLock) : Option FileLock :=
  (g.filterMap id).find? fun l => l.vnode = q.vnode && l.owner != q.owner &&
    l.overlaps q.start q.stop && !(q.type = .read && l.type = .read)

def vfsLockTest (g : LockTable) (q : FileLock) : Int :=
  if (vfsLockConflict g q).isSome then -Errno.eagain else 0

def lockReplace (g : LockTable) (q : FileLock) : Int × LockTable :=
  let r := lockClearRange g q.vnode q.start q.stop q.owner
  if r.1 = 0 ∧ q.type ≠ .unlock then lockInsert r.2 q else r

def vfsLockReleaseOwner (g : LockTable) (owner : Nat) : LockTable :=
  g.map fun s => s.filter fun l => l.owner != owner

def vfsLockReleaseVnode (g : LockTable) (vnode owner : Nat) : LockTable :=
  g.map fun s => s.filter fun l => !(l.vnode = vnode && l.owner = owner)

/-- The table and, per task, the request that is past its test. -/
structure LockState where
  table : LockTable
  calls : Nat → Option FileLock

inductive LockAction
  | set (task : Nat) (q : FileLock)
  | replace (task : Nat)
  | releaseOwner (owner : Nat)
  | releaseVnode (vnode owner : Nat)

/-- One critical section. A call of `vfs_lock_set` that only unlocks has no test. -/
def lockNext (s : LockState) : LockAction → Option LockState
  | .set task q =>
    match s.calls task with
    | some _ => none
    | none =>
      if q.type ≠ .unlock ∧ vfsLockTest s.table q < 0 then some s
      else some { s with calls := update s.calls task (some q) }
  | .replace task =>
    match s.calls task with
    | none => none
    | some q => some ⟨(lockReplace s.table q).2, update s.calls task none⟩
  | .releaseOwner owner => some { s with table := vfsLockReleaseOwner s.table owner }
  | .releaseVnode vnode owner => some { s with table := vfsLockReleaseVnode s.table vnode owner }

def lockSystem : System LockState LockAction where
  init := ⟨List.replicate vfsMaxLocks none, fun _ => none⟩
  next := lockNext

def FileLock.Clash (a b : FileLock) : Prop :=
  a.vnode = b.vnode ∧ a.owner ≠ b.owner ∧ (a.start ≤ b.stop ∧ b.start ≤ a.stop) ∧
    ¬(a.type = .read ∧ b.type = .read)

def Exclusive (g : LockTable) : Prop := ∀ a b, some a ∈ g → some b ∈ g → ¬a.Clash b

/-- The test still passes when the second critical section begins. -/
def StillFree (s : LockState) : LockAction → Prop
  | .replace task => ∀ q ∈ s.calls task, q.type ≠ .unlock → vfsLockTest s.table q = 0
  | _ => True

instance : ∀ s a, Decidable (StillFree s a)
  | s, .replace task => inferInstanceAs (Decidable (∀ q ∈ s.calls task, _))
  | _, .set _ _ | _, .releaseOwner _ | _, .releaseVnode _ _ => isTrue trivial

def FileLock.Part (a b : FileLock) : Prop :=
  a.vnode = b.vnode ∧ a.owner = b.owner ∧ a.type = b.type ∧ b.start ≤ a.start ∧ a.stop ≤ b.stop

def FileLock.Apart (a b : FileLock) : Prop :=
  a.vnode = b.vnode → a.owner = b.owner → a.stop < b.start ∨ b.stop < a.start

instance (a b : FileLock) : Decidable (a.Apart b) := inferInstanceAs (Decidable (_ → _ → _))

/-- The locks of one owner on one vnode do not overlap. -/
def TableApart (g : LockTable) : Prop := g.Pairwise fun s t => ∀ a ∈ s, ∀ b ∈ t, a.Apart b

def FileLock.pieces (l : FileLock) (start stop : Nat) : List FileLock :=
  (if l.start < start then [{ l with stop := start - 1 }] else []) ++
    if l.stop > stop then [{ l with start := stop + 1 }] else []

section
variable {g g' g'' : LockTable} {a b c l q x y : FileLock} {ls ls' : List FileLock}
    {start stop : Nat}

theorem FileLock.Part.refl (a : FileLock) : a.Part a := ⟨rfl, rfl, rfl, le_refl _, le_refl _⟩

theorem FileLock.Part.trans (h : a.Part b) (h' : b.Part c) : a.Part c :=
  ⟨h.1.trans h'.1, h.2.1.trans h'.2.1, h.2.2.1.trans h'.2.2.1, le_trans h'.2.2.2.1 h.2.2.2.1,
    le_trans h.2.2.2.2 h'.2.2.2.2⟩

theorem FileLock.Clash.symm (h : a.Clash b) : b.Clash a :=
  ⟨h.1.symm, Ne.symm h.2.1, ⟨h.2.2.1.2, h.2.2.1.1⟩, fun hr => h.2.2.2 ⟨hr.2, hr.1⟩⟩

theorem FileLock.Clash.of_part (h : a.Clash b) (hp : b.Part c) : a.Clash c := by
  obtain ⟨hv, ho, ht, hs, he⟩ := hp
  refine ⟨h.1.trans hv, ho ▸ h.2.1, ⟨le_trans h.2.2.1.1 he, le_trans hs h.2.2.1.2⟩, ?_⟩
  rw [← ht]
  exact h.2.2.2

/-- Every lock of `g'` is a part of a lock of `g`. -/
def Refines (g' g : LockTable) : Prop := ∀ a, some a ∈ g' → ∃ b, some b ∈ g ∧ a.Part b

theorem Refines.refl (g : LockTable) : Refines g g := fun a ha => ⟨a, ha, .refl a⟩

theorem Refines.trans {g'' : LockTable} (h : Refines g'' g') (h' : Refines g' g) :
    Refines g'' g := by
  intro a ha
  obtain ⟨b, hb, hab⟩ := h a ha
  obtain ⟨c, hc, hbc⟩ := h' b hb
  exact ⟨c, hc, hab.trans hbc⟩

theorem Refines.exclusive (h : Refines g' g) (hg : Exclusive g) : Exclusive g' := by
  intro a b ha hb hc
  obtain ⟨a', ha', hpa⟩ := h a ha
  obtain ⟨b', hb', hpb⟩ := h b hb
  exact hg a' b' ha' hb' ((hc.of_part hpb).symm.of_part hpa).symm

theorem Refines.of_subset (h : ∀ a, some a ∈ g' → some a ∈ g) : Refines g' g :=
  fun a ha => ⟨a, h a ha, .refl a⟩

theorem FileLock.Apart.symm (h : x.Apart y) : y.Apart x := fun hv ho => (h hv.symm ho.symm).symm

theorem overlaps_iff : l.overlaps start stop = true ↔ l.start ≤ stop ∧ start ≤ l.stop := by
  simp only [FileLock.overlaps, Bool.and_eq_true, decide_eq_true_eq]

theorem mem_pieces :
    x ∈ l.pieces start stop ↔ (l.start < start ∧ x = { l with stop := start - 1 }) ∨
    (stop < l.stop ∧ x = { l with start := stop + 1 }) := by
  unfold FileLock.pieces
  split_ifs <;> simp [*]

theorem part_of_piece (ho : l.overlaps start stop = true) (h : x ∈ l.pieces start stop) :
    x.Part l := by
  have := overlaps_iff.mp ho
  obtain ⟨-, rfl⟩ | ⟨-, rfl⟩ := mem_pieces.mp h
  · exact ⟨rfl, rfl, rfl, le_refl _, by dsimp only; omega⟩
  · exact ⟨rfl, rfl, rfl, by dsimp only; omega, le_refl _⟩

/-- `g'` is `g` with the locks `ls` in slots that were free. -/
structure Filled (g : LockTable) (ls : List FileLock) (g' : LockTable) : Prop where
  length : g'.length = g.length
  slot : ∀ (j : Nat) y, g'[j]? = some (some y) → y ∈ ls ∨ g[j]? = some (some y)
  kept : ∀ y, some y ∈ g → some y ∈ g'
  added : ∀ y ∈ ls, some y ∈ g'
  apart : TableApart g → ls.Pairwise FileLock.Apart → (∀ x ∈ ls, ∀ y, some y ∈ g → x.Apart y) →
    TableApart g'

theorem Filled.refl (g : LockTable) : Filled g [] g :=
  ⟨rfl, fun _ _ h => .inr h, fun _ h => h, nofun, fun h _ _ => h⟩

theorem Filled.mem (h : Filled g ls g') (hy : some y ∈ g') : y ∈ ls ∨ some y ∈ g := by
  obtain ⟨j, hj⟩ := mem_iff_getElem?.mp hy
  exact (h.slot j y hj).imp_right mem_of_getElem?

theorem Filled.trans (h : Filled g ls g') (h' : Filled g' ls' g'') : Filled g (ls ++ ls') g'' where
  length := h'.length.trans h.length
  slot j y hj := by
    rw [mem_append]
    rcases h'.slot j y hj with hy | hy
    · exact .inl (.inr hy)
    · exact (h.slot j y hy).imp_left .inl
  kept y hy := h'.kept y (h.kept y hy)
  added y hy := (mem_append.mp hy).elim (fun hy => h'.kept y (h.added y hy)) (h'.added y)
  apart hg hp hx := by
    obtain ⟨hp1, hp2, hp3⟩ := pairwise_append.mp hp
    refine h'.apart (h.apart hg hp1 fun x hm => hx x (mem_append_left _ hm)) hp2 fun x hm y hy => ?_
    rcases h.mem hy with hy | hy
    · exact (hp3 y hy x hm).symm
    · exact hx x (mem_append_right _ hm) y hy

/-- A lock is put in a free slot, or none is free. -/
theorem lockInsert_spec (g : LockTable) (l : FileLock) :
    (lockInsert g l = (-Errno.enolck, g) ∧ none ∉ g) ∨
    ((lockInsert g l).1 = 0 ∧ Filled g [l] (lockInsert g l).2) := by
  induction g with
  | nil => exact .inl ⟨rfl, not_mem_nil⟩
  | cons s g ih =>
    cases s with
    | none =>
      refine .inr ⟨rfl, rfl, fun j y hj => ?_, fun y hy => ?_, fun y hy => ?_, fun hg _ hx => ?_⟩
      · cases j with
        | zero => exact .inl (by simpa [lockInsert, eq_comm] using hj)
        | succ j => exact .inr hj
      · exact mem_cons_of_mem _ ((mem_cons.mp hy).resolve_left nofun)
      · exact mem_cons.mpr (.inl (congrArg some (mem_singleton.mp hy)))
      · refine pairwise_cons.mpr ⟨fun t ht a ha b hb => ?_, (pairwise_cons.mp hg).2⟩
        cases ha
        cases hb
        exact hx l mem_cons_self b (mem_cons_of_mem _ ht)
    | some z =>
      obtain ⟨he, hn⟩ | ⟨h0, hf⟩ := ih
      · exact .inl ⟨by rw [lockInsert, he], fun hm => hn ((mem_cons.mp hm).resolve_left nofun)⟩
      refine .inr ⟨h0, congrArg (· + 1) hf.length, fun j y hj => ?_, fun y hy => ?_, fun y hy =>
        ?_, fun hg hp hx => ?_⟩
      · cases j with
        | zero => exact .inr hj
        | succ j => exact hf.slot j y hj
      · exact mem_cons.mpr ((mem_cons.mp hy).imp_right (hf.kept y))
      · exact mem_cons_of_mem _ (hf.added y hy)
      · obtain ⟨h1, h2⟩ := pairwise_cons.mp hg
        refine pairwise_cons.mpr ⟨fun t ht a ha b hb => ?_, ?_⟩
        · cases ha
          cases hb
          rcases hf.mem ht with hb | hb
          · exact (hx b hb z mem_cons_self).symm
          · exact h1 _ hb z rfl b rfl
        · exact hf.apart h2 hp fun x hm y hy => hx x hm y (mem_cons_of_mem _ hy)

theorem lockInsert_free (hg : none ∈ g) (l : FileLock) :
    (lockInsert g l).1 = 0 ∧ Filled g [l] (lockInsert g l).2 :=
  (lockInsert_spec g l).resolve_left fun h => h.2 hg

theorem lockSplit_spec (hg : none ∈ g) (l : FileLock) (start stop : Nat) :
    ((lockSplit g l start stop).1 = 0 ∧ Filled g (l.pieces start stop)
    (lockSplit g l start stop).2) ∨
    ((lockSplit g l start stop).1 < 0 ∧ l.start < start ∧ stop < l.stop ∧
      Filled g [{ l with stop := start - 1 }] (lockSplit g l start stop).2) := by
  unfold lockSplit FileLock.pieces
  by_cases h1 : l.start < start
  · obtain ⟨hr, hf⟩ := lockInsert_free hg { l with stop := start - 1 }
    simp only [if_pos h1]
    rw [if_neg (by omega)]
    split_ifs with h2
    · -- the slot that was free may be the last one
      rcases lockInsert_spec (lockInsert g { l with stop := start - 1 }).2
        { l with start := stop + 1 } with ⟨he, -⟩ | ⟨h0, hf'⟩
      · exact .inr (by rw [he]; exact ⟨(by decide : -Errno.enolck < 0), h1, h2, hf⟩)
      · exact .inl ⟨h0, hf.trans hf'⟩
    · exact .inl ⟨rfl, hf⟩
  · simp only [if_neg h1]
    rw [if_neg (by omega)]
    split_ifs with h2
    · exact .inl (lockInsert_free hg _)
    · exact .inl ⟨rfl, .refl g⟩

theorem mem_lockInsert (h : some a ∈ (lockInsert g l).2) : a = l ∨ some a ∈ g := by
  rcases lockInsert_spec g l with ⟨he, -⟩ | ⟨-, hf⟩
  · rw [he] at h
    exact .inr h
  · exact (hf.mem h).imp_left mem_singleton.mp

theorem mem_of_mem_set_none {i : Nat} (h : some a ∈ g.set i none) : some a ∈ g := by
  rcases mem_or_eq_of_mem_set h with h | h
  · exact h
  · exact absurd h (Option.some_ne_none a)

theorem mem_set_none {i : Nat} (h : g[i]? = some (some l)) : none ∈ g.set i none :=
  mem_set (List.getElem?_eq_some_iff.mp h).1 _

theorem lockClearFrom_refines (vnode start stop owner : Nat) (n i : Nat) (g : LockTable) :
    Refines (lockClearFrom vnode start stop owner n i g).2 g := by
  induction n generalizing i g with
  | zero => exact .refl g
  | succ n ih =>
    unfold lockClearFrom
    split
    next l hl =>
      split_ifs with hc
      · have hsplit : Refines (lockSplit (g.set i none) l start stop).2 g := by
          intro x hx
          have hpart : x ∈ l.pieces start stop ∨ some x ∈ g.set i none := by
            rcases lockSplit_spec (mem_set_none hl) l start stop with ⟨-, hf⟩ | ⟨-, h1, -, hf⟩
            · exact hf.mem hx
            · exact (hf.mem hx).imp_left fun hm => mem_pieces.mpr (.inl ⟨h1, mem_singleton.mp hm⟩)
          rcases hpart with hx | hx
          · exact ⟨l, mem_of_getElem? hl, part_of_piece hc.2.2 hx⟩
          · exact ⟨x, mem_of_mem_set_none hx, .refl x⟩
        dsimp only
        split_ifs
        · exact hsplit
        · exact (ih (i + 1) _).trans hsplit
      · exact ih (i + 1) g
    · exact ih (i + 1) g

theorem vfsLockTest_eq_zero : vfsLockTest g q = 0 ↔ ∀ l, some l ∈ g → ¬l.Clash q := by
  have hsome : vfsLockTest g q = 0 ↔ vfsLockConflict g q = none := by
    unfold vfsLockTest
    cases vfsLockConflict g q with
    | none => simp
    | some l => simp [Errno.eagain]
  rw [hsome, vfsLockConflict, List.find?_eq_none]
  refine forall_congr' fun l => ?_
  rw [mem_filterMap]
  simp only [id, exists_eq_right]
  refine imp_congr_right fun _ => not_congr ?_
  simp only [FileLock.overlaps, FileLock.Clash, Bool.and_eq_true, decide_eq_true_eq, bne_iff_ne,
    ne_eq,
    Bool.not_eq_true', Bool.and_eq_false_iff, decide_eq_false_iff_not]
  constructor
  · rintro ⟨⟨⟨h1, h2⟩, h3⟩, h4⟩
    exact ⟨h1, h2, h3, fun hr => h4.elim (· hr.2) (· hr.1)⟩
  · rintro ⟨h1, h2, h3, h4⟩
    refine ⟨⟨⟨h1, h2⟩, h3⟩, ?_⟩
    by_contra hn
    push Not at hn
    exact h4 ⟨hn.2, hn.1⟩

theorem Exclusive.lockReplace (hg : Exclusive g) (hq : q.type ≠ .unlock → vfsLockTest g q = 0) :
    Exclusive (lockReplace g q).2 := by
  have href := lockClearFrom_refines q.vnode q.start q.stop q.owner vfsMaxLocks 0 g
  unfold Fs.lockReplace lockClearRange
  dsimp only
  split_ifs with hc
  · have hfree := vfsLockTest_eq_zero.mp (hq hc.2)
    -- what is left of another owner's lock does not clash with the new one
    have hold : ∀ b, some b ∈ (lockClearFrom q.vnode q.start q.stop q.owner vfsMaxLocks 0 g).2 →
        ¬q.Clash b := by
      intro b hb hclash
      obtain ⟨b', hb', hp⟩ := href b hb
      exact hfree b' hb' (hclash.of_part hp).symm
    intro a b ha hb hclash
    rcases mem_lockInsert ha with rfl | ha <;> rcases mem_lockInsert hb with rfl | hb
    · exact hclash.2.1 rfl
    · exact hold b hb hclash
    · exact hold a ha hclash.symm
    · exact href.exclusive hg a b ha hb hclash
  · exact href.exclusive hg

theorem mem_of_mem_filter_slots {p : FileLock → Bool} (h : some a ∈ g.map fun s => s.filter p) :
    some a ∈ g := by
  obtain ⟨s, hs, he⟩ := mem_map.mp h
  obtain ⟨rfl, -⟩ := Option.filter_eq_some_iff.mp he
  exact hs

end

theorem lockNext_exclusive {s t : LockState} {a : LockAction} (hs : Exclusive s.table)
    (ha : StillFree s a) (h : lockNext s a = some t) : Exclusive t.table := by
  cases a with
  | set task q =>
    simp only [lockNext] at h
    split at h
    · cases h
    · split_ifs at h <;> cases h <;> exact hs
  | replace task =>
    simp only [lockNext] at h
    split at h
    · cases h
    next q hq =>
      cases h
      exact hs.lockReplace (ha q hq)
  | releaseOwner owner | releaseVnode vnode owner =>
    cases h
    exact (Refines.of_subset fun _ => mem_of_mem_filter_slots).exclusive hs

/-- In a run where no conflicting lock comes in between the two critical sections
of a call, locks exclude each other. -/
theorem locks_exclusive {s : LockState} (h : lockSystem.Reach StillFree s) : Exclusive s.table := by
  refine h.invariant (I := fun s => Exclusive s.table) (fun a b ha => ?_) fun s a t _ hi hok hn =>
    lockNext_exclusive hi hok hn
  exact absurd (eq_of_mem_replicate ha) (Option.some_ne_none a)

def wholeFile (owner : Nat) : FileLock := ⟨1, 0, 2 ^ 64 - 1, .write, owner⟩

def bothTestFirst : List LockAction :=
  [.set 1 (wholeFile 1), .set 2 (wholeFile 2), .replace 1, .replace 2]

/-- Two tasks pass their tests one after the other and both insert. -/
theorem two_writers : lockSystem.Reach System.anyStep (lockSystem.final bothTestFirst) ∧
    ¬Exclusive (lockSystem.final bothTestFirst).table := by
  have hrun : (lockSystem.run lockSystem.init bothTestFirst).isSome ∧
      ∀ l ∈ [wholeFile 1, wholeFile 2], some l ∈ (lockSystem.final bothTestFirst).table := by
      decide +kernel
  refine ⟨System.Reach.final System.runOk_any hrun.1, fun h => ?_⟩
  refine h (wholeFile 1) (wholeFile 2) (hrun.2 _ (by simp)) (hrun.2 _ (by simp)) ?_
  exact ⟨rfl, by decide, ⟨by decide, by decide⟩, by decide⟩

def oneAfterTheOther : List LockAction :=
  [.set 1 ⟨1, 0, 9, .read, 1⟩, .replace 1, .set 2 ⟨1, 5, 9, .read, 2⟩, .replace 2]

theorem locks_exclusive_readers : Exclusive (lockSystem.final oneAfterTheOther).table ∧
    ∀ l ∈ ([⟨1, 0, 9, .read, 1⟩, ⟨1, 5, 9, .read, 2⟩] : List FileLock),
      some l ∈ (lockSystem.final oneAfterTheOther).table := by
  have hrun : lockSystem.RunOk StillFree lockSystem.init oneAfterTheOther ∧
      (lockSystem.run lockSystem.init oneAfterTheOther).isSome ∧
      ∀ l ∈ ([⟨1, 0, 9, .read, 1⟩, ⟨1, 5, 9, .read, 2⟩] : List FileLock),
        some l ∈ (lockSystem.final oneAfterTheOther).table := by decide +kernel
  exact ⟨locks_exclusive (System.Reach.final hrun.1 hrun.2.1), hrun.2.2⟩

end Cervus.Fs
