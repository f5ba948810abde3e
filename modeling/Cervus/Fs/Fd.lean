import Mathlib.Algebra.BigOperators.Group.Finset.Piecewise
import Mathlib.Algebra.Order.BigOperators.Group.Finset
import Mathlib.Tactic.Ring
import Cervus.Errno
import Cervus.Lib.Run

/-! Descriptor tables that share files: every pointer to a file, in a table or in
somebody's hands, is counted in the file's `refcount`. -/

namespace Cervus.Fs

open Function (apply_update update update_of_ne update_self)
open Finset

def fdTableInitial : Nat := 64
def fdFreeBatch : Nat := 64
def taskMaxFds : Nat := 1048576

structure FdEntry where
  file : Option Nat
  flags : Nat
  deriving DecidableEq

def FdEntry.cloexec (e : FdEntry) : Bool := e.file.isSome && e.flags % 2 == 1

def noEntry : FdEntry := ⟨none, 0⟩

structure FdTable where
  entries : Nat → FdEntry
  cap : Nat
  refs : Nat

/-- Tables and files by number. `held` counts the references in somebody's hands:
those of `fd_get`, that of an open before `fd_alloc`, and those that were taken out
of a table and are about to be freed. -/
structure FdState where
  tables : Nat → FdTable
  ntables : Nat
  refcount : Nat → Nat
  held : Nat → Nat
  opened : Nat → Bool
  released : Nat → Nat

def FdTable.set (tb : FdTable) (i : Nat) (e : FdEntry) : FdTable :=
  ⟨update tb.entries i e, tb.cap, tb.refs⟩

def FdState.setEntry (s : FdState) (t i : Nat) (e : FdEntry) : FdState :=
  { s with tables := update s.tables t ((s.tables t).set i e) }

def FdState.hold (s : FdState) (f : Nat) : FdState :=
  { s with held := update s.held f (s.held f + 1) }

def FdState.incref (s : FdState) (f : Nat) : FdState :=
  { s with refcount := update s.refcount f (s.refcount f + 1) }

def vfsFileAlloc (s : FdState) (f : Nat) : FdState :=
  { s with
    refcount := update s.refcount f 1
    held := update s.held f 1
    opened := update s.opened f true }

def vfsFileFree (s : FdState) (f : Nat) : FdState :=
  { s with
    refcount := update s.refcount f (s.refcount f - 1)
    held := update s.held f (s.held f - 1)
    released := if s.refcount f = 1 then update s.released f (s.released f + 1) else s.released }

def fdTableCreate (s : FdState) : FdState :=
  { s with
    tables := update s.tables s.ntables ⟨fun _ => noEntry, fdTableInitial, 1⟩
    ntables := s.ntables + 1 }

def doubleTo (want : Nat) : Nat → Nat → Nat
  | 0, ncap => ncap
  | n + 1, ncap => if ncap < want then doubleTo want n (ncap * 2) else ncap

/-- `fd_table_grow` with the capacity it read first; `mem` tells whether there is memory. -/
def fdTableGrow (s : FdState) (t want seen : Nat) (mem : Bool) : Int × FdState :=
  if want > taskMaxFds then (-Errno.emfile, s)
  else if seen ≥ want then (0, s)
  else
    let ncap := doubleTo want 21 (if seen ≠ 0 then seen else fdTableInitial)
    let ncap := if ncap > taskMaxFds then taskMaxFds else ncap
    if !mem then (-Errno.enomem, s)
    else if (s.tables t).cap ≥ ncap then (0, s)
    else (0, { s with tables := update s.tables t { s.tables t with cap := ncap } })

/-- What one turn of the loop of `fd_alloc` comes to. -/
inductive AllocTurn
  | fd (i : Nat)
  | emfile
  | grow (want : Nat)
  deriving DecidableEq

def fdAllocTurn (s : FdState) (t minFd lim : Nat) : AllocTurn :=
  let stop := if (s.tables t).cap < lim then (s.tables t).cap else lim
  match (List.range' minFd (stop - minFd)).find? fun i => ((s.tables t).entries i).file.isNone with
  | some i => .fd i
  | none =>
    if (s.tables t).cap ≥ lim then .emfile
    else .grow ((if minFd > (s.tables t).cap then minFd else (s.tables t).cap) + 1)

def fdInstall (s : FdState) (t i f : Nat) : FdState :=
  { s.setEntry t i ⟨some f, 0⟩ with held := update s.held f (s.held f - 1) }

def fdAllocLoop (t f minFd lim : Nat) (mem : Bool) : Nat → FdState → Option (Int × FdState)
  | 0, _ => none
  | n + 1, s =>
    match fdAllocTurn s t minFd lim with
    | .fd i => some (i, fdInstall s t i f)
    | .emfile => some (-Errno.emfile, s)
    | .grow want =>
      let r := fdTableGrow s t want (s.tables t).cap mem
      if r.1 < 0 then some r else fdAllocLoop t f minFd lim mem n r.2

def fdAlloc (t f minFd lim : Nat) (mem : Bool) (fuel : Nat) (s : FdState) :
    Option (Int × FdState) :=
  if minFd ≥ lim then some (-Errno.einval, s) else fdAllocLoop t f minFd lim mem fuel s

def FdState.dropEntry (s : FdState) (t i : Nat) : FdState :=
  match ((s.tables t).entries i).file with
  | none => s
  | some f => (s.setEntry t i noEntry).hold f

def FdTable.fileAt (tb : FdTable) (fd : Nat) : Option Nat :=
  if fd < tb.cap then (tb.entries fd).file else none

def fdGet (s : FdState) (t fd : Nat) : Option Nat × FdState :=
  match (s.tables t).fileAt fd with
  | none => (none, s)
  | some f => (some f, (s.incref f).hold f)

def fdClose (s : FdState) (t fd : Nat) : Int × FdState :=
  match (s.tables t).fileAt fd with
  | none => (-Errno.ebadf, s)
  | some _ => (0, s.dropEntry t fd)

def fdDup2 (s : FdState) (t oldfd newfd : Nat) : Int × FdState :=
  match (s.tables t).fileAt oldfd with
  | none => (-Errno.ebadf, s)
  | some f => (newfd, ((s.dropEntry t newfd).incref f).setEntry t newfd ⟨some f, 0⟩)

def fdSetFlags (s : FdState) (t fd flags : Nat) : Int × FdState :=
  match (s.tables t).fileAt fd with
  | none => (-Errno.ebadf, s)
  | some f => (0, s.setEntry t fd ⟨some f, flags⟩)

def cloneEntry (src dst : Nat) (s : FdState) (i : Nat) : FdState :=
  match ((s.tables src).entries i).file with
  | none => s
  | some f => (s.incref f).setEntry dst i ((s.tables src).entries i)

/-- `fd_table_clone` into the next table, with the capacity it read first. -/
def fdTableClone (s : FdState) (src seen : Nat) : FdState :=
  if (s.tables src).cap > seen then s
  else
    let s := { s with
      tables := update s.tables s.ntables ⟨fun _ => noEntry, seen, 1⟩
      ntables := s.ntables + 1 }
    (List.range (s.tables src).cap).foldl (cloneEntry src (s.ntables - 1)) s

/-- One critical section of `fd_table_cloexec`, from `i` on with `k` entries to go. -/
def cloexecBatch (t : Nat) : Nat → Nat → Nat → FdState → Nat × FdState
  | 0, i, _, s => (i, s)
  | k + 1, i, n, s =>
    if n < fdFreeBatch then
      if ((s.tables t).entries i).cloexec then cloexecBatch t k (i + 1) (n + 1) (s.dropEntry t i)
      else cloexecBatch t k (i + 1) n s
    else (i, s)

def fdTableCloexecFrom (s : FdState) (t i : Nat) : Nat × FdState :=
  cloexecBatch t ((s.tables t).cap - i) i 0 s

/-- `fd_table_cloexec` with nobody in between: batches until the end is reached. -/
def fdTableCloexec (t : Nat) : Nat → Nat → FdState → FdState
  | 0, _, s => s
  | n + 1, i, s =>
    let r := fdTableCloexecFrom s t i
    if r.1 ≥ (r.2.tables t).cap then r.2 else fdTableCloexec t n r.1 r.2

def FdState.setRefs (s : FdState) (t refs : Nat) : FdState :=
  { s with tables := update s.tables t { s.tables t with refs := refs } }

def fdTableDestroy (s : FdState) (t : Nat) : FdState :=
  let s := s.setRefs t ((s.tables t).refs - 1)
  if (s.tables t).refs > 0 then s
  else
    let s := (List.range (s.tables t).cap).foldl (fun s i => s.dropEntry t i) s
    { s with tables := update s.tables t { s.tables t with cap := 0 } }

inductive FdAction
  | opened (f : Nat)
  | create
  | alloc (t f minFd lim : Nat)
  | grow (t want seen : Nat) (mem : Bool)
  | get (t fd : Nat)
  | put (f : Nat)
  | close (t fd : Nat)
  | dup2 (t oldfd newfd : Nat)
  | setFlags (t fd flags : Nat)
  | clone (t seen : Nat)
  | cloexec (t i : Nat)
  | ref (t : Nat)
  | destroy (t : Nat)

/-- A table that a task still has. -/
def FdState.live (s : FdState) (t : Nat) : Prop := t < s.ntables ∧ 0 < (s.tables t).refs

instance (s : FdState) (t : Nat) : Decidable (s.live t) := inferInstanceAs (Decidable (_ ∧ _))

def fdNext (s : FdState) : FdAction → Option FdState
  | .opened f => if s.opened f = false then some (vfsFileAlloc s f) else none
  | .create => some (fdTableCreate s)
  | .alloc t f minFd lim =>
    if s.live t ∧ 0 < s.held f then
      match fdAllocTurn s t minFd lim with
      | .fd i => some (fdInstall s t i f)
      | _ => some s
    else none
  | .grow t want seen mem =>
    if s.live t ∧ seen ≤ (s.tables t).cap then some (fdTableGrow s t want seen mem).2 else none
  | .get t fd => if s.live t then some (fdGet s t fd).2 else none
  | .put f => if 0 < s.held f then some (vfsFileFree s f) else none
  | .close t fd => if s.live t then some (fdClose s t fd).2 else none
  | .dup2 t oldfd newfd =>
    if s.live t ∧ newfd < (s.tables t).cap then some (fdDup2 s t oldfd newfd).2 else none
  | .setFlags t fd flags => if s.live t then some (fdSetFlags s t fd flags).2 else none
  | .clone t seen => if s.live t then some (fdTableClone s t seen) else none
  | .cloexec t i => if s.live t then some (fdTableCloexecFrom s t i).2 else none
  | .ref t => if s.live t then some (s.setRefs t ((s.tables t).refs + 1)) else none
  | .destroy t => if s.live t then some (fdTableDestroy s t) else none

def fdSystem : System FdState FdAction where
  init := ⟨fun _ => ⟨fun _ => noEntry, 0, 0⟩, 0, fun _ => 0, fun _ => 0, fun _ => false, fun _ => 0⟩
  next := fdNext

def FdEntry.points (e : FdEntry) (f : Nat) : Nat := if e.file = some f then 1 else 0

def FdTable.count (tb : FdTable) (f : Nat) : Nat := ∑ i ∈ range tb.cap, (tb.entries i).points f

def FdState.pointing (s : FdState) (f : Nat) : Nat := ∑ t ∈ range s.ntables, (s.tables t).count f

structure FdInv (s : FdState) : Prop where
  count : ∀ f, s.refcount f = s.pointing f + s.held f
  tail : ∀ t i, (s.tables t).cap ≤ i → (s.tables t).entries i = noEntry
  flags : ∀ t i, ((s.tables t).entries i).file = none → (s.tables t).entries i = noEntry
  fresh : ∀ t, s.ntables ≤ t → (s.tables t).cap = 0
  unopened : ∀ f, s.opened f = false → s.refcount f = 0 ∧ s.released f = 0
  once : ∀ f, s.opened f = true → s.released f = if s.refcount f = 0 then 1 else 0

section
variable {s : FdState} {t i f g : Nat} {e : FdEntry} {tb : FdTable} {k seen src want : Nat}
    {r : FdState}

theorem sum_update_range (n : Nat) (h : Nat → Nat) {i v : Nat} (hi : i < n) :
    ∑ k ∈ range n, update h i v k + h i = ∑ k ∈ range n, h k + v := by
  have hm : i ∈ range n := mem_range.mpr hi
  rw [sum_update_of_mem hm, sum_eq_sum_sdiff_singleton_add hm h]
  ring

theorem points_noEntry (f : Nat) : noEntry.points f = 0 := rfl

theorem FdTable.set_entries (tb : FdTable) (i j : Nat) (e : FdEntry) :
    (tb.set i e).entries j = if j = i then e else tb.entries j := by
  by_cases hj : j = i
  · rw [hj, if_pos rfl]
    exact update_self ..
  · rw [if_neg hj]
    exact update_of_ne hj _ _

theorem FdTable.count_set (tb : FdTable) (hi : i < tb.cap) (e : FdEntry) (f : Nat) :
    (tb.set i e).count f + (tb.entries i).points f = tb.count f + e.points f := by
  rw [FdTable.count, FdTable.count, ← sum_update_range tb.cap (fun k => (tb.entries k).points f)
    (v := e.points f) hi]
  exact congrArg (· + _) (sum_congr rfl fun k _ =>
    apply_update (fun _ x => FdEntry.points x f) tb.entries i e k)

theorem pointing_update (tables : Nat → FdTable) {n t : Nat} (ht : t < n) (tb : FdTable) (f : Nat) :
    ∑ k ∈ range n, (update tables t tb k).count f + (tables t).count f =
      ∑ k ∈ range n, (tables k).count f + tb.count f := by
  rw [← sum_update_range n (fun k => (tables k).count f) (v := tb.count f) ht]
  exact congrArg (· + _) (sum_congr rfl fun k _ =>
    apply_update (fun _ x => FdTable.count x f) tables t tb k)

variable (h : FdInv s) (ht : t < s.ntables) (hf : 0 < s.refcount f) (hi : i < (s.tables t).cap)
  (hfree : ((s.tables t).entries i).file = none)

include ht hi in
theorem pointing_setEntry (e : FdEntry) (f : Nat) :
    (s.setEntry t i e).pointing f + ((s.tables t).entries i).points f = s.pointing f +
    e.points f := by
  have h1 := pointing_update s.tables ht ((s.tables t).set i e) f
  have h2 := (s.tables t).count_set hi e f
  unfold FdState.pointing FdState.setEntry
  dsimp only
  omega

theorem setEntry_self (s : FdState) (t i : Nat) (e : FdEntry) :
    (s.setEntry t i e).tables t = (s.tables t).set i e :=
  update_self ..

theorem setEntry_ne (s : FdState) {t t' : Nat} (h : t' ≠ t) (i : Nat) (e : FdEntry) :
    (s.setEntry t i e).tables t' = s.tables t' := update_of_ne h _ _

theorem setEntry_cap (s : FdState) (t i t' : Nat) (e : FdEntry) :
    ((s.setEntry t i e).tables t').cap = (s.tables t').cap := by
  by_cases h : t' = t
  · rw [h, setEntry_self, FdTable.set]
  · rw [setEntry_ne s h]

theorem setEntry_entries (s : FdState) (t i t' j : Nat) (e : FdEntry) :
    ((s.setEntry t i e).tables t').entries j = if t' = t ∧
    j = i then e else (s.tables t').entries j := by
  by_cases h : t' = t
  · rw [h, setEntry_self, FdTable.set_entries]
    exact if_congr (by simp) rfl rfl
  · rw [setEntry_ne s h, if_neg fun hc => h hc.1]

structure FdShape (tables : Nat → FdTable) (n : Nat) : Prop where
  tail : ∀ t i, (tables t).cap ≤ i → (tables t).entries i = noEntry
  flags : ∀ t i, ((tables t).entries i).file = none → (tables t).entries i = noEntry
  fresh : ∀ t, n ≤ t → (tables t).cap = 0

theorem FdShape.setEntry (h : FdShape s.tables s.ntables) (hi : i < (s.tables t).cap)
    (he : e.file = none → e = noEntry) : FdShape (s.setEntry t i e).tables s.ntables := by
  refine ⟨fun t' j hj => ?_, fun t' j hj => ?_, fun t' ht' => ?_⟩
  · rw [setEntry_cap] at hj
    rw [setEntry_entries, if_neg]
    · exact h.tail t' j hj
    · rintro ⟨rfl, rfl⟩
      omega
  · rw [setEntry_entries] at hj ⊢
    split_ifs at hj ⊢ with hc
    · exact he hj
    · exact h.flags t' j hj
  · rw [setEntry_cap]
    exact h.fresh t' ht'

theorem FdInv.of_shape (hs : FdShape s.tables s.ntables)
    (hc : ∀ f, s.refcount f = s.pointing f + s.held f)
    (hu : ∀ f, s.opened f = false → s.refcount f = 0 ∧ s.released f = 0)
    (ho : ∀ f, s.opened f = true → s.released f = if s.refcount f = 0 then 1 else 0) : FdInv s :=
  ⟨hc, hs.tail, hs.flags, hs.fresh, hu, ho⟩

theorem points_of_file (he : e.file = some f) (g : Nat) : e.points g = if g = f then 1 else 0 := by
  simp only [FdEntry.points, he, Option.some.injEq, eq_comm]

theorem points_some (f g fl : Nat) : FdEntry.points ⟨some f, fl⟩ g = if g = f then 1 else 0 :=
  points_of_file rfl g

theorem points_of_free (he : e.file = none) (g : Nat) : e.points g = 0 := by
  simp [FdEntry.points, he]

theorem update_add (h : Nat → Nat) (f g v : Nat) :
    update h f (h f + v) g = h g + if g = f then v else 0 := by
  by_cases hg : g = f
  · rw [hg, update_self, if_pos rfl]
  · rw [update_of_ne hg, if_neg hg, add_zero]

theorem update_sub (h : Nat → Nat) (f g : Nat) (hf : 0 < h f) :
    update h f (h f - 1) g + (if g = f then 1 else 0) = h g := by
  by_cases hg : g = f
  · rw [hg, update_self, if_pos rfl]
    omega
  · rw [update_of_ne hg, if_neg hg, add_zero]

theorem dropEntry_of_none (h : ((s.tables t).entries i).file = none) : s.dropEntry t i = s := by
  rw [FdState.dropEntry, h]

theorem dropEntry_of_some (h : ((s.tables t).entries i).file = some f) :
    s.dropEntry t i = (s.setEntry t i noEntry).hold f := by
  rw [FdState.dropEntry, h]

include hf in
theorem incref_eq_zero (g : Nat) :
    update s.refcount f (s.refcount f + 1) g = 0 ↔ s.refcount g = 0 := by
  rw [update_add]
  split_ifs with hgf
  · rw [hgf]
    exact iff_of_false id hf.ne'
  · rfl

theorem FdShape.update {tables : Nat → FdTable} {n m : Nat} (h : FdShape tables n) (hn : n ≤ m)
    (ht : t < m) (htail : ∀ i, tb.cap ≤ i → tb.entries i = noEntry)
    (hflags : ∀ i, (tb.entries i).file = none → tb.entries i = noEntry) :
    FdShape (Function.update tables t tb) m := by
  have key : ∀ (P : Nat → FdTable → Prop) t', P t tb → P t' (tables t') →
      P t' (Function.update tables t tb t') := by
    intro P t' h1 h2
    by_cases htt : t' = t
    · rwa [htt, update_self]
    · rwa [update_of_ne htt]
  refine ⟨fun t' => key (fun _ x => ∀ i, x.cap ≤ i → x.entries i = noEntry) t' htail (h.tail t'),
    fun t' => key (fun _ x => ∀ i, (x.entries i).file = none →
      x.entries i = noEntry) t' hflags (h.flags t'),
    fun t' => key (fun t' x => m ≤ t' → x.cap = 0) t' (fun hm => by omega) fun hm =>
      h.fresh t' (hn.trans hm)⟩

/-- No descriptor from `minFd` on and below `j` is free. -/
def UsedBelow (s : FdState) (t minFd j : Nat) : Prop :=
  ∀ k, minFd ≤ k → k < j → (s.tables t).fileAt k ≠ none

/-- The least free descriptor from `minFd` on is `j`, and it is below the limit. -/
structure LeastFree (s : FdState) (t minFd lim j : Nat) : Prop where
  ge : minFd ≤ j
  lt : j < lim
  free : (s.tables t).fileAt j = none
  least : UsedBelow s t minFd j

theorem fileAt_of_lt (h : i < tb.cap) : tb.fileAt i = (tb.entries i).file := if_pos h

/-- A turn of `fd_alloc` under the lock finds the least free entry or asks for room. -/
theorem fdAllocTurn_spec (s : FdState) (t minFd lim : Nat) : match fdAllocTurn s t minFd lim with
    | .fd j => LeastFree s t minFd lim j ∧ j < (s.tables t).cap
    | .emfile => UsedBelow s t minFd lim ∧ lim ≤ (s.tables t).cap
    | .grow want => UsedBelow s t minFd (s.tables t).cap ∧ (s.tables t).cap < lim ∧
        want = max minFd (s.tables t).cap + 1 := by
  unfold fdAllocTurn
  dsimp only
  generalize hstop : (if (s.tables t).cap < lim then (s.tables t).cap else lim) = stop
  have hs : stop ≤ (s.tables t).cap ∧ stop ≤ lim ∧ (stop = (s.tables t).cap ∨ stop = lim) := by
    split_ifs at hstop <;> omega
  cases hfind : (List.range' minFd (stop - minFd)).find? fun i =>
    ((s.tables t).entries i).file.isNone with
  | some j =>
    obtain ⟨hnone, hmem, hless⟩ := List.find?_range'_eq_some.mp hfind
    obtain ⟨h1, h2⟩ := List.mem_range'_1.mp hmem
    have hcap : j < (s.tables t).cap := by omega
    refine ⟨⟨h1, by omega, ?_, fun k hk hkj => ?_⟩, hcap⟩
    · rw [fileAt_of_lt hcap]
      exact Option.isNone_iff_eq_none.mp hnone
    · rw [fileAt_of_lt (by omega)]
      have := hless k hk hkj
      intro he
      simp [he] at this
  | none =>
    have hall : UsedBelow s t minFd stop := by
      intro k hk hkj
      rw [fileAt_of_lt (by omega)]
      have := List.find?_eq_none.mp hfind k (List.mem_range'_1.mpr ⟨hk, by omega⟩)
      intro he
      simp [he] at this
    by_cases hc : (s.tables t).cap ≥ lim
    · rw [if_pos hc]
      obtain rfl : stop = lim := by omega
      exact ⟨hall, hc⟩
    · rw [if_neg hc]
      obtain rfl : stop = (s.tables t).cap := by omega
      refine ⟨hall, by omega, ?_⟩
      split_ifs <;> omega

theorem doubleTo_ge (n ncap : Nat) (h : want ≤ ncap * 2 ^ n) : want ≤ doubleTo want n ncap := by
  induction n generalizing ncap with
  | zero => simpa [doubleTo] using h
  | succ n ih =>
    unfold doubleTo
    split_ifs with hlt
    · refine ih _ ?_
      rwa [mul_assoc, ← pow_succ']
    · omega

theorem fdTableGrow_cap (hw : want ≤ taskMaxFds) :
    ∃ r, fdTableGrow s t want (s.tables t).cap true = (0, r) ∧ want ≤ (r.tables t).cap ∧
      (r.tables t).entries = (s.tables t).entries := by
  unfold fdTableGrow
  rw [if_neg (not_lt.mpr hw)]
  by_cases hseen : (s.tables t).cap ≥ want
  · rw [if_pos hseen]
    exact ⟨s, rfl, hseen, rfl⟩
  rw [if_neg hseen]
  dsimp only
  have hge : want ≤ doubleTo want 21 (if (s.tables t).cap ≠ 0 then (s.tables t).cap
      else fdTableInitial) := by
    refine doubleTo_ge 21 _ ?_
    have hpos : 1 ≤ if (s.tables t).cap ≠ 0 then (s.tables t).cap else fdTableInitial := by
      split_ifs with h0
      · omega
      · decide
    have hmax : taskMaxFds ≤ 1 * 2 ^ 21 := by decide
    exact hw.trans (hmax.trans (Nat.mul_le_mul_right _ hpos))
  generalize doubleTo want 21 (if (s.tables t).cap ≠ 0 then (s.tables t).cap else fdTableInitial) =
    d at hge ⊢
  generalize hn : (if d > taskMaxFds then taskMaxFds else d) = ncap
  have hncap : want ≤ ncap := by
    rw [← hn]
    split_ifs
    · exact hw
    · exact hge
  rw [if_neg (by decide), if_neg (by omega)]
  refine ⟨_, rfl, ?_, ?_⟩
  · simp only [update_self]
    exact hncap
  · simp only [update_self]

theorem fileAt_some {fd : Nat} (h : (s.tables t).fileAt fd = some f) :
    fd < (s.tables t).cap ∧ ((s.tables t).entries fd).file = some f := by
  unfold FdTable.fileAt at h
  split_ifs at h with hlt
  exact ⟨hlt, h⟩

/-- A turn of `fd_alloc` finds the least free descriptor, and gives up only if there
is none below the limit; with memory and nobody in between the call ends so. -/
def AllocRight (s : FdState) (t : Nat) : Prop :=
  ∀ minFd lim, (∀ j, fdAllocTurn s t minFd lim = .fd j → LeastFree s t minFd lim j) ∧
    (fdAllocTurn s t minFd lim = .emfile → UsedBelow s t minFd lim) ∧
    (minFd < lim → lim ≤ taskMaxFds → ∀ f, ∃ r, fdAlloc t f minFd lim true 2 s = some r ∧
      ((∃ j : Nat, r.1 = j ∧ LeastFree s t minFd lim j) ∨
        (r.1 = -Errno.emfile ∧ UsedBelow s t minFd lim)))

/-- The new table has the entries the old one has at that instant. -/
def CloneRight (s : FdState) (t : Nat) : Prop :=
  ∀ seen, (s.tables t).cap ≤ seen →
    ((fdTableClone s t seen).tables s.ntables).entries = (s.tables t).entries ∧
    ∀ t' ≠ s.ntables, (fdTableClone s t seen).tables t' = s.tables t'

/-- A batch takes out exactly the flagged entries among those it comes past, and with
nobody in between the whole call takes out exactly the flagged entries. -/
def CloexecRight (s : FdState) (t : Nat) : Prop :=
  (∀ i ≤ (s.tables t).cap, ∀ j, ((fdTableCloexecFrom s t i).2.tables t).entries j =
    if (i ≤ j ∧ j < (fdTableCloexecFrom s t i).1) ∧
      ((s.tables t).entries j).cloexec = true then noEntry
    else (s.tables t).entries j) ∧
  ∀ j, ((fdTableCloexec t ((s.tables t).cap + 1) 0 s).tables t).entries j =
    if ((s.tables t).entries j).cloexec = true then noEntry else (s.tables t).entries j

section
include h

theorem FdInv.shape : FdShape s.tables s.ntables := ⟨h.tail, h.flags, h.fresh⟩

/-- The references move between the entries and the calls that hold one. -/
theorem FdInv.recount {tables : Nat → FdTable} {rc held : Nat → Nat} (hs : FdShape tables s.ntables)
    (hz : ∀ g, rc g = 0 ↔ s.refcount g = 0) (hc : ∀ g, rc g + s.pointing g + s.held g =
      s.refcount g + ∑ k ∈ range s.ntables, (tables k).count g + held g) :
    FdInv { s with tables := tables, refcount := rc, held := held } := by
  refine .of_shape hs (fun g => ?_) (fun g hg => ?_) fun g hg => ?_
  · have h1 := h.count g
    have h2 := hc g
    show rc g = ∑ k ∈ range s.ntables, (tables k).count g + held g
    omega
  · exact ⟨(hz g).mpr (h.unopened g hg).1, (h.unopened g hg).2⟩
  · exact (h.once g hg).trans (if_congr (hz g).symm rfl rfl)

include hf in
theorem FdInv.opened_of_pos : s.opened f = true := by
  by_contra ho
  have := (h.unopened f (Bool.eq_false_of_not_eq_true ho)).1
  omega

include hf in
theorem FdInv.get : FdInv ((s.incref f).hold f) := by
  refine h.recount h.shape (incref_eq_zero hf) fun g => ?_
  show update s.refcount f _ g + _ + _ = s.refcount g + s.pointing g +
    update s.held f (s.held f + 1) g
  rw [update_add, update_add]
  omega

theorem FdInv.fileAlloc (hf : s.opened f = false) : FdInv (vfsFileAlloc s f) := by
  obtain ⟨hr, hrel⟩ := h.unopened f hf
  have hzero := h.count f
  refine .of_shape h.shape (fun g => ?_) (fun g hg => ?_) fun g hg => ?_
  · show update s.refcount f 1 g = s.pointing g + update s.held f 1 g
    by_cases hgf : g = f
    · rw [hgf, update_self, update_self]
      omega
    · rw [update_of_ne hgf, update_of_ne hgf]
      exact h.count g
  · have hgf : g ≠ f := by
      rintro rfl
      simp [vfsFileAlloc] at hg
    simp only [vfsFileAlloc, update_of_ne hgf] at hg ⊢
    exact h.unopened g hg
  · by_cases hgf : g = f
    · simp [vfsFileAlloc, hgf, hrel]
    · simp only [vfsFileAlloc, update_of_ne hgf] at hg ⊢
      exact h.once g hg

/-- Giving a reference in hand back keeps the counts. -/
theorem FdInv.fileFree (hf : 0 < s.held f) : FdInv (vfsFileFree s f) := by
  have hc := h.count f
  have ho := h.opened_of_pos (f := f) (by omega)
  have hother : ∀ g ≠ f, (vfsFileFree s f).released g = s.released g := by
    intro g hg
    simp only [vfsFileFree]
    split_ifs
    · exact update_of_ne hg _ _
    · rfl
  refine .of_shape h.shape (fun g => ?_) (fun g hg => ?_) fun g hg => ?_
  · have h1 := update_sub s.refcount f g (by omega)
    have h2 := update_sub s.held f g hf
    have h3 := h.count g
    show update s.refcount f (s.refcount f - 1) g =
      s.pointing g + update s.held f (s.held f - 1) g
    omega
  · have hgf : g ≠ f := by
      rintro rfl
      rw [show s.opened g = false from hg] at ho
      cases ho
    rw [hother g hgf]
    show update s.refcount f _ g = 0 ∧ _
    rw [update_of_ne hgf]
    exact h.unopened g hg
  · show _ = if update s.refcount f _ g = 0 then 1 else 0
    by_cases hgf : g = f
    · -- the last reference is the one that releases
      subst hgf
      have hone := h.once g hg
      rw [if_neg (by omega)] at hone
      simp only [vfsFileFree, update_self]
      by_cases h1 : s.refcount g = 1
      · rw [if_pos h1, if_pos (by omega), update_self]
        omega
      · rw [if_neg h1, if_neg (by omega)]
        exact hone
    · rw [hother g hgf, update_of_ne hgf]
      exact h.once g hg

theorem FdInv.newTable (cap : Nat) : FdInv { s with
    tables := update s.tables s.ntables ⟨fun _ => noEntry, cap, 1⟩, ntables := s.ntables + 1 } := by
  refine .of_shape (h.shape.update (Nat.le_succ _) (Nat.lt_succ_self _) (fun _ _ => rfl) fun _ _ =>
    rfl) (fun g => ?_)
    h.unopened h.once
  show s.refcount g = ∑ k ∈ range (s.ntables + 1),
    (update s.tables s.ntables _ k).count g + s.held g
  have hold : ∑ k ∈ range s.ntables, (update s.tables s.ntables
      (⟨fun _ => noEntry, cap, 1⟩ : FdTable) k).count g = s.pointing g := by
    refine sum_congr rfl fun k hk => ?_
    rw [update_of_ne (mem_range.mp hk).ne]
  have hnew : FdTable.count ⟨fun _ => noEntry, cap, 1⟩ g = 0 :=
    sum_eq_zero fun _ _ => points_noEntry g
  rw [sum_range_succ, hold, update_self, hnew, add_zero]
  exact h.count g

include ht

theorem FdInv.replaceTable (hc : ∀ f, tb.count f = (s.tables t).count f)
    (htail : ∀ i, tb.cap ≤ i → tb.entries i = noEntry)
    (hflags : ∀ i, (tb.entries i).file = none → tb.entries i = noEntry) :
    FdInv { s with tables := Function.update s.tables t tb } := by
  refine h.recount (h.shape.update (le_refl _) ht htail hflags) (fun _ => Iff.rfl) fun g => ?_
  have h1 := pointing_update s.tables ht tb g
  have h2 := hc g
  unfold FdState.pointing
  omega

theorem FdInv.setRefs (refs : Nat) : FdInv (s.setRefs t refs) :=
  h.replaceTable ht (fun _ => rfl) (h.tail t) (h.flags t)

theorem FdInv.setCap {cap : Nat} (hcap : (s.tables t).cap ≤ cap) :
    FdInv { s with tables := update s.tables t { s.tables t with cap := cap } } := by
  refine h.replaceTable ht (fun f => ?_) (fun i hi => h.tail t i (hcap.trans hi)) (h.flags t)
  refine (sum_subset (range_mono hcap) fun i _ hi => ?_).symm
  rw [h.tail t i (not_lt.mp fun hlt => hi (mem_range.mpr hlt)), points_noEntry]

theorem FdInv.grow (want seen : Nat) (mem : Bool) : FdInv (fdTableGrow s t want seen mem).2 := by
  unfold fdTableGrow
  dsimp only
  generalize (if doubleTo want 21 (if seen ≠ 0 then seen else fdTableInitial) > taskMaxFds
    then taskMaxFds
    else doubleTo want 21 (if seen ≠ 0 then seen else fdTableInitial)) = ncap
  split_ifs with h1 h2 h3 h4
  · exact h
  · exact h
  · exact h
  · exact h
  · exact h.setCap ht (by omega)

include hi

theorem FdInv.refcount_pos (hf : ((s.tables t).entries i).file = some f) : 0 < s.refcount f := by
  have h1 : (s.tables t).count f ≤ s.pointing f :=
    single_le_sum (fun k _ => Nat.zero_le ((s.tables k).count f)) (mem_range.mpr ht)
  have h2 : ((s.tables t).entries i).points f ≤ (s.tables t).count f :=
    single_le_sum (fun k _ => Nat.zero_le (((s.tables t).entries k).points f)) (mem_range.mpr hi)
  have h3 : ((s.tables t).entries i).points f = 1 := if_pos hf
  have := h.count f
  omega

theorem FdInv.setEntry (rc held : Nat → Nat) (he : e.file = none → e = noEntry)
    (hz : ∀ g, rc g = 0 ↔ s.refcount g = 0)
    (hc : ∀ g, rc g + ((s.tables t).entries i).points g + s.held g =
      s.refcount g + e.points g + held g) :
    FdInv { s.setEntry t i e with refcount := rc, held := held } := by
  refine h.recount (h.shape.setEntry hi he) hz fun g => ?_
  have h1 := pointing_setEntry ht hi e g
  have h2 := hc g
  show _ = s.refcount g + (s.setEntry t i e).pointing g + held g
  omega

theorem FdInv.dropEntry : FdInv (s.dropEntry t i) := by
  cases hf : ((s.tables t).entries i).file with
  | none =>
    rw [dropEntry_of_none hf]
    exact h
  | some f =>
    rw [dropEntry_of_some hf]
    refine h.setEntry ht hi s.refcount (update s.held f (s.held f + 1)) (fun _ => rfl)
      (fun _ => Iff.rfl) fun g => ?_
    rw [points_of_file hf, points_noEntry, update_add]
    omega

theorem FdInv.setFlags (hf : ((s.tables t).entries i).file = some f) (fl : Nat) :
    FdInv (s.setEntry t i ⟨some f, fl⟩) := by
  refine h.setEntry ht hi s.refcount s.held nofun (fun _ => Iff.rfl) fun g => ?_
  rw [points_of_file hf, points_some]

include hfree

theorem FdInv.addEntry (hf : 0 < s.refcount f) (fl : Nat) :
    FdInv ((s.incref f).setEntry t i ⟨some f, fl⟩) := by
  refine h.setEntry ht hi (update s.refcount f (s.refcount f + 1)) s.held nofun
    (incref_eq_zero hf) fun g => ?_
  rw [points_of_free hfree, points_some, update_add]
  omega

theorem FdInv.install (hf : 0 < s.held f) : FdInv (fdInstall s t i f) := by
  refine h.setEntry ht hi s.refcount (update s.held f (s.held f - 1)) nofun
    (fun _ => Iff.rfl) fun g => ?_
  have h4 := update_sub s.held f g hf
  rw [points_of_free hfree, points_some]
  omega

end

/-- After the first `k` entries have been copied into the new table `n`. -/
structure Cloned (s : FdState) (src n seen k : Nat) (r : FdState) : Prop where
  inv : FdInv r
  ntables : r.ntables = n + 1
  cap : (r.tables n).cap = seen
  copied : ∀ j, (r.tables n).entries j = if j < k then (s.tables src).entries j else noEntry
  others : ∀ t ≠ n, r.tables t = s.tables t

/-- Copying one entry takes one reference more. -/
theorem Cloned.step {n : Nat} (h : Cloned s src n seen k r) (hs : FdInv s)
    (hsrc : src < n) (hk : k < (s.tables src).cap) (hseen : (s.tables src).cap ≤ seen) :
    Cloned s src n seen (k + 1) (cloneEntry src n r k) := by
  have hsrct : r.tables src = s.tables src := h.others src hsrc.ne
  have hent : (r.tables n).entries k = noEntry := by rw [h.copied, if_neg (lt_irrefl k)]
  unfold cloneEntry
  rw [hsrct]
  cases hf : ((s.tables src).entries k).file with
  | none =>
    refine ⟨h.inv, h.ntables, h.cap, fun j => ?_, h.others⟩
    rw [h.copied]
    by_cases hj : j = k
    · rw [hj, if_neg (lt_irrefl k), if_pos (Nat.lt_succ_self k), hs.flags src k hf]
    · exact if_congr (by omega) rfl rfl
  | some f =>
    have hpos : 0 < r.refcount f := h.inv.refcount_pos (t := src) (i :=
      k) (by rw [h.ntables]; omega)
      (by rw [hsrct]; exact hk) (by rw [hsrct]; exact hf)
    have he : (s.tables src).entries k = ⟨some f, ((s.tables src).entries k).flags⟩ := by rw [← hf]
    refine ⟨?_, h.ntables, ?_, fun j => ?_, fun t ht => ?_⟩
    · rw [he]
      exact h.inv.addEntry (by rw [h.ntables]; omega) (by rw [h.cap]; omega)
        (by rw [hent]; rfl) hpos _
    · rw [setEntry_cap]
      exact h.cap
    · rw [setEntry_entries]
      by_cases hj : j = k
      · rw [if_pos ⟨rfl, hj⟩, hj, if_pos (Nat.lt_succ_self k)]
      · rw [if_neg fun hc => hj hc.2]
        exact (h.copied j).trans (if_congr (by omega) rfl rfl)
    · rw [setEntry_ne _ ht]
      exact h.others t ht

structure Dropped (s : FdState) (t : Nat) (out : Nat → Bool) (r : FdState) : Prop where
  inv : FdInv r
  ntables : r.ntables = s.ntables
  cap : (r.tables t).cap = (s.tables t).cap
  entries : ∀ j, (r.tables t).entries j = if out j then noEntry else (s.tables t).entries j
  others : ∀ t' ≠ t, r.tables t' = s.tables t'

theorem dropEntry_tables (s : FdState) (t i t' j : Nat) :
    ((s.dropEntry t i).tables t').cap = (s.tables t').cap ∧ (s.dropEntry t i).ntables = s.ntables ∧
    (t' ≠ t → (s.dropEntry t i).tables t' = s.tables t') ∧
    (((s.tables t).entries i).file ≠ none → ((s.dropEntry t i).tables t').entries j =
      if t' = t ∧ j = i then noEntry else (s.tables t').entries j) := by
  cases hf : ((s.tables t).entries i).file with
  | none =>
    rw [dropEntry_of_none hf]
    exact ⟨rfl, rfl, fun _ => rfl, fun h => absurd rfl h⟩
  | some f =>
    rw [dropEntry_of_some hf]
    exact ⟨setEntry_cap .., rfl, fun h => setEntry_ne s h _ _, fun _ => setEntry_entries ..⟩

theorem Dropped.step {out : Nat → Bool} (h : Dropped s t out r) (ht : t < s.ntables)
    (hi : i < (s.tables t).cap) (hf : ((r.tables t).entries i).file ≠ none) :
    Dropped s t (fun j => out j || j == i) (r.dropEntry t i) := by
  obtain ⟨h1, h2, -, -⟩ := dropEntry_tables r t i t 0
  refine ⟨h.inv.dropEntry (by rw [h.ntables]; exact ht) (by rw [h.cap]; exact hi),
    h2.trans h.ntables,
    h1.trans h.cap, fun j => ?_, fun t' ht' =>
    ((dropEntry_tables r t i t' 0).2.2.1 ht').trans (h.others t' ht')⟩
  rw [(dropEntry_tables r t i t j).2.2.2 hf, h.entries]
  by_cases hj : j = i
  · simp [hj]
  · simp [hj]

theorem Dropped.congr {out out' : Nat → Bool} (h : Dropped s t out r)
    (he : ∀ j, out j = out' j ∨ (s.tables t).entries j = noEntry) : Dropped s t out' r := by
  refine ⟨h.inv, h.ntables, h.cap, fun j => ?_, h.others⟩
  rw [h.entries]
  rcases he j with he | he
  · rw [he]
  · rw [he, ite_self, ite_self]

def flagged (s : FdState) (t lo hi : Nat) (j : Nat) : Bool :=
  lo ≤ j && j < hi && ((s.tables t).entries j).cloexec

theorem cloexec_file {e : FdEntry} (h : e.cloexec = true) : e.file ≠ none := by
  rintro he
  simp [FdEntry.cloexec, he] at h

theorem flagged_succ (s : FdState) (t lo j : Nat) (hlo : lo ≤ i) :
    flagged s t lo (i + 1) j = (flagged s t lo i j ||
      (j == i && ((s.tables t).entries i).cloexec)) := by
  rw [Bool.eq_iff_iff]
  simp only [flagged, Bool.and_eq_true, decide_eq_true_eq, Bool.or_eq_true, beq_iff_eq]
  constructor
  · rintro ⟨⟨h1, h2⟩, h3⟩
    rcases Nat.lt_succ_iff_lt_or_eq.mp h2 with h2 | rfl
    · exact .inl ⟨⟨h1, h2⟩, h3⟩
    · exact .inr ⟨rfl, h3⟩
  · rintro (⟨⟨h1, h2⟩, h3⟩ | ⟨rfl, h3⟩)
    · exact ⟨⟨h1, by omega⟩, h3⟩
    · exact ⟨⟨hlo, by omega⟩, h3⟩

theorem cloexecBatch_dropped (ht : t < s.ntables) {lo n : Nat} (hlo : lo ≤ i)
    (hk : i + k = (s.tables t).cap) (h : Dropped s t (flagged s t lo i) r) :
    Dropped s t (flagged s t lo (cloexecBatch t k i n r).1) (cloexecBatch t k i n r).2 ∧
    i ≤ (cloexecBatch t k i n r).1 ∧ (cloexecBatch t k i n r).1 ≤ (s.tables t).cap ∧
    (0 < k → n < fdFreeBatch → i < (cloexecBatch t k i n r).1) := by
  induction k generalizing i n r with
  | zero => exact ⟨h, le_refl _, by show i ≤ _; omega, fun hk => absurd hk (lt_irrefl _)⟩
  | succ k ih =>
    have hent : (r.tables t).entries i = (s.tables t).entries i := by
      rw [h.entries, flagged]
      simp
    unfold cloexecBatch
    by_cases hn : n < fdFreeBatch
    swap
    · rw [if_neg hn]
      exact ⟨h, le_refl _, by show i ≤ _; omega, fun _ hn' => absurd hn' hn⟩
    rw [if_pos hn, hent]
    split_ifs with hc
    · have hstep : Dropped s t (flagged s t lo (i + 1)) (r.dropEntry t i) := by
        refine (h.step ht (by omega) (by rw [hent]; exact cloexec_file hc)).congr fun j => .inl ?_
        rw [flagged_succ s t lo j hlo, hc, Bool.and_true]
      obtain ⟨h1, h2, h3, -⟩ := ih (n := n + 1) (by omega) (by omega) hstep
      exact ⟨h1, by omega, h3, fun _ _ => by omega⟩
    · have hstep : Dropped s t (flagged s t lo (i + 1)) r := by
        refine h.congr fun j => .inl ?_
        rw [flagged_succ s t lo j hlo, Bool.eq_false_of_not_eq_true hc, Bool.and_false,
          Bool.or_false]
      obtain ⟨h1, h2, h3, -⟩ := ih (n := n) (by omega) (by omega) hstep
      exact ⟨h1, by omega, h3, fun _ _ => by omega⟩

section
include h

theorem fdTableClone_cloned (hsrc : src < s.ntables) (hseen : (s.tables src).cap ≤ seen) :
    Cloned s src s.ntables seen (s.tables src).cap (fdTableClone s src seen) := by
  have hstart : Cloned s src s.ntables seen 0 { s with
      tables := update s.tables s.ntables ⟨fun _ => noEntry, seen, 1⟩
      ntables := s.ntables + 1 } := by
    refine ⟨h.newTable seen, rfl, ?_, fun j => ?_, fun t ht => update_of_ne ht _ _⟩
    · simp only [update_self]
    · simp only [update_self, Nat.not_lt_zero, if_false]
  have hall : ∀ k ≤ (s.tables src).cap, Cloned s src s.ntables seen k
      ((List.range k).foldl (cloneEntry src s.ntables) { s with
        tables := update s.tables s.ntables ⟨fun _ => noEntry, seen, 1⟩
        ntables := s.ntables + 1 }) := by
    intro k hk
    induction k with
    | zero => exact hstart
    | succ k ih =>
      rw [List.range_succ, List.foldl_append]
      exact (ih (by omega)).step h hsrc (by omega) hseen
  unfold fdTableClone
  rw [if_neg (by omega)]
  dsimp only
  rw [update_of_ne hsrc.ne, Nat.add_sub_cancel]
  exact hall _ (le_refl _)

theorem Dropped.start (t : Nat) : Dropped s t (fun _ => false) s :=
  ⟨h, rfl, rfl, fun _ => by simp, fun _ _ => rfl⟩

/-- With memory, `fd_alloc` returns the least free descriptor or none is free. -/
theorem fdAlloc_least {minFd lim : Nat} (hmin : minFd < lim) (hlim : lim ≤ taskMaxFds) :
    ∃ r, fdAlloc t f minFd lim true 2 s = some r ∧
      ((∃ j : Nat, r.1 = j ∧ LeastFree s t minFd lim j) ∨
      (r.1 = -Errno.emfile ∧ UsedBelow s t minFd lim)) := by
  have h1 := fdAllocTurn_spec s t minFd lim
  rw [fdAlloc, if_neg (not_le.mpr hmin)]
  unfold fdAllocLoop
  cases hturn : fdAllocTurn s t minFd lim with
  | fd j =>
    rw [hturn] at h1
    exact ⟨_, rfl, .inl ⟨j, rfl, h1.1⟩⟩
  | emfile =>
    rw [hturn] at h1
    exact ⟨_, rfl, .inr ⟨rfl, h1.1⟩⟩
  | grow want =>
    rw [hturn] at h1
    obtain ⟨hused, hcap, hwant⟩ := h1
    obtain ⟨r, hgrow, hrcap, hent⟩ := fdTableGrow_cap (s := s) (t :=
      t) (by omega : want ≤ taskMaxFds)
    dsimp only
    rw [hgrow, if_neg (show ¬(0 : Int) < 0 by decide)]
    -- the first descriptor beyond the old capacity is free now
    have hfree : (r.tables t).fileAt (max minFd (s.tables t).cap) = none := by
      rw [fileAt_of_lt (by omega), hent, h.tail t _ (le_max_right _ _)]
      rfl
    have h2 := fdAllocTurn_spec r t minFd lim
    unfold fdAllocLoop
    cases hturn2 : fdAllocTurn r t minFd lim with
    | emfile | grow want2 =>
      rw [hturn2] at h2
      exact absurd hfree (h2.1 _ (le_max_left _ _) (by omega))
    | fd j =>
      rw [hturn2] at h2
      obtain ⟨⟨hge, hlt, hjfree, hleast⟩, hjcap⟩ := h2
      refine ⟨_, rfl, .inl ⟨j, rfl, hge, hlt, ?_, fun k hk hkj => ?_⟩⟩
      · unfold FdTable.fileAt at hjfree ⊢
        rw [hent, if_pos hjcap] at hjfree
        split_ifs
        · exact hjfree
        · rfl
      · have hk2 := hleast k hk hkj
        rw [fileAt_of_lt (by omega), hent] at hk2
        have hklt : k < (s.tables t).cap := by
          by_contra hge'
          exact hk2 (by rw [h.tail t k (not_lt.mp hge')]; rfl)
        rwa [fileAt_of_lt hklt]

theorem FdInv.allocRight (t : Nat) : AllocRight s t := by
  intro minFd lim
  have hspec := fdAllocTurn_spec s t minFd lim
  refine ⟨fun j hj => ?_, fun he => ?_, fun hmin hlim f => fdAlloc_least h hmin hlim⟩
  · rw [hj] at hspec
    exact hspec.1
  · rw [he] at hspec
    exact hspec.1

include ht

theorem dropAll_dropped (k : Nat) (hk : k ≤ (s.tables t).cap) :
    Dropped s t (fun j => j < k) ((List.range k).foldl (fun s i => s.dropEntry t i) s) := by
  induction k with
  | zero => exact (Dropped.start h t).congr fun j => .inl (by simp)
  | succ k ih =>
    have hr := ih (by omega)
    rw [List.range_succ, List.foldl_append]
    generalize (List.range k).foldl (fun s i => s.dropEntry t i) s = r at hr
    show Dropped s t _ (r.dropEntry t k)
    have hent : (r.tables t).entries k = (s.tables t).entries k := by
      rw [hr.entries]
      simp
    cases hf : ((s.tables t).entries k).file with
    | none =>
      rw [dropEntry_of_none (by rw [hent]; exact hf)]
      refine hr.congr fun j => ?_
      by_cases hj : j = k
      · exact .inr (by rw [hj]; exact h.flags t k hf)
      · exact .inl (by simp only [decide_eq_decide]; omega)
    | some f =>
      refine (hr.step ht (by omega) (by rw [hent, hf]; exact Option.some_ne_none f)).congr fun j =>
        .inl ?_
      rw [Bool.eq_iff_iff]
      simp only [Bool.or_eq_true, decide_eq_true_eq, beq_iff_eq]
      omega

theorem FdInv.destroy : FdInv (fdTableDestroy s t) := by
  unfold fdTableDestroy
  have hr := h.setRefs ht ((s.tables t).refs - 1)
  have htr : t < (s.setRefs t ((s.tables t).refs - 1)).ntables := ht
  generalize s.setRefs t ((s.tables t).refs - 1) = r at hr htr
  dsimp only
  split_ifs
  · exact hr
  have hd := dropAll_dropped hr htr (r.tables t).cap (le_refl _)
  generalize (List.range (r.tables t).cap).foldl (fun s i => s.dropEntry t i) r = q at hd
  have hall : ∀ j, (q.tables t).entries j = noEntry := by
    intro j
    rw [hd.entries]
    split_ifs with hj
    · rfl
    · exact hr.tail t j (by simpa using hj)
  refine hd.inv.replaceTable (by rw [hd.ntables]; exact htr) (fun f => ?_)
    (fun i _ => hall i) fun i _ => hall i
  have hzero : (q.tables t).count f = 0 := sum_eq_zero fun i _ => by rw [hall i, points_noEntry]
  rw [hzero]
  rfl

theorem fdTableCloexecFrom_dropped (hi : i ≤ (s.tables t).cap) :
    Dropped s t (flagged s t i (fdTableCloexecFrom s t i).1) (fdTableCloexecFrom s t i).2 :=
  (cloexecBatch_dropped ht (le_refl i) (by omega)
    ((Dropped.start h t).congr fun j => .inl (by
      rw [flagged, eq_comm, Bool.and_eq_false_iff, Bool.and_eq_false_iff, decide_eq_false_iff_not,
        decide_eq_false_iff_not]
      omega))).1

theorem FdInv.dup2 {oldfd newfd : Nat} (hn : newfd < (s.tables t).cap) :
    FdInv (fdDup2 s t oldfd newfd).2 := by
  unfold fdDup2
  cases hf : (s.tables t).fileAt oldfd with
  | none => exact h
  | some f =>
    obtain ⟨ho, hfile⟩ := fileAt_some hf
    have hpos := h.refcount_pos ht ho hfile
    obtain ⟨hcap, hnt, -, hent⟩ := dropEntry_tables s t newfd t newfd
    refine (h.dropEntry ht hn).addEntry (by rw [hnt]; exact ht) (by rw [hcap]; exact hn) ?_ ?_ 0
    · by_cases hnew : ((s.tables t).entries newfd).file = none
      · rwa [dropEntry_of_none hnew]
      · rw [hent hnew, if_pos ⟨rfl, rfl⟩]
        rfl
    · have hsame : (s.dropEntry t newfd).refcount = s.refcount := by
        unfold FdState.dropEntry
        split <;> rfl
      rwa [hsame]

theorem FdInv.cloneRight : CloneRight s t := by
  intro seen hseen
  have hc := fdTableClone_cloned h ht hseen
  refine ⟨funext fun j => ?_, hc.others⟩
  rw [hc.copied]
  split_ifs with hj
  · rfl
  · exact (h.tail t j (not_lt.mp hj)).symm

end

theorem fdTableCloexec_dropped (ht : t < s.ntables) {fuel : Nat}
    (hfuel : (s.tables t).cap < i + fuel) (hi : i ≤ (s.tables t).cap)
    (h : Dropped s t (flagged s t 0 i) r) :
    Dropped s t (flagged s t 0 (s.tables t).cap) (fdTableCloexec t fuel i r) := by
  induction fuel generalizing i r with
  | zero => omega
  | succ fuel ih =>
    have hk : i + ((r.tables t).cap - i) = (s.tables t).cap := by rw [h.cap]; omega
    obtain ⟨h1, h2, h3, h4⟩ := cloexecBatch_dropped (n := 0) ht (Nat.zero_le i) hk h
    show Dropped s t _ (if (fdTableCloexecFrom r t i).1 ≥
      ((fdTableCloexecFrom r t i).2.tables t).cap then _ else _)
    unfold fdTableCloexecFrom
    rw [h1.cap]
    split_ifs with hend
    · rwa [le_antisymm h3 hend] at h1
    · have hprog := h4 (by rw [h.cap]; omega) (by decide)
      exact ih (by omega) h3 h1

/-- Every step keeps the counts equal to the references. -/
theorem FdInv.next {u : FdState} {a : FdAction} (h : FdInv s) (hn : fdNext s a = some u) :
    FdInv u := by
  cases a with
  | opened f =>
    obtain ⟨ho, rfl⟩ := of_guard hn
    exact h.fileAlloc ho
  | create =>
    cases hn
    exact h.newTable fdTableInitial
  | alloc t f minFd lim =>
    simp only [fdNext] at hn
    split_ifs at hn with hl
    have hspec := fdAllocTurn_spec s t minFd lim
    cases hturn : fdAllocTurn s t minFd lim with
    | fd j =>
      rw [hturn] at hn hspec
      cases hn
      have hfree := hspec.1.free
      rw [fileAt_of_lt hspec.2] at hfree
      exact h.install hl.1.1 hspec.2 hfree hl.2
    | emfile | grow want =>
      rw [hturn] at hn
      cases hn
      exact h
  | grow t want seen mem =>
    obtain ⟨hl, rfl⟩ := of_guard hn
    exact h.grow hl.1.1 want seen mem
  | get t fd =>
    obtain ⟨hl, rfl⟩ := of_guard hn
    unfold fdGet
    split
    · exact h
    next f hf => exact h.get (h.refcount_pos hl.1 (fileAt_some hf).1 (fileAt_some hf).2)
  | put f =>
    obtain ⟨hl, rfl⟩ := of_guard hn
    exact h.fileFree hl
  | close t fd =>
    obtain ⟨hl, rfl⟩ := of_guard hn
    unfold fdClose
    split
    · exact h
    next f hf => exact h.dropEntry hl.1 (fileAt_some hf).1
  | dup2 t oldfd newfd =>
    obtain ⟨hl, rfl⟩ := of_guard hn
    exact h.dup2 hl.1.1 hl.2
  | setFlags t fd flags =>
    obtain ⟨hl, rfl⟩ := of_guard hn
    unfold fdSetFlags
    split
    · exact h
    next f hf => exact h.setFlags hl.1 (fileAt_some hf).1 (fileAt_some hf).2 flags
  | clone t seen =>
    obtain ⟨hl, rfl⟩ := of_guard hn
    by_cases hseen : (s.tables t).cap ≤ seen
    · exact (fdTableClone_cloned h hl.1 hseen).inv
    · rw [fdTableClone, if_pos (by omega)]
      exact h
  | cloexec t i =>
    obtain ⟨hl, rfl⟩ := of_guard hn
    by_cases hi : i ≤ (s.tables t).cap
    · exact (fdTableCloexecFrom_dropped h hl.1 hi).inv
    · have hzero : (s.tables t).cap - i = 0 := by omega
      rw [fdTableCloexecFrom, hzero]
      exact h
  | ref t =>
    obtain ⟨hl, rfl⟩ := of_guard hn
    exact h.setRefs hl.1 _
  | destroy t =>
    obtain ⟨hl, rfl⟩ := of_guard hn
    exact h.destroy hl.1

theorem FdInv.init : FdInv fdSystem.init :=
  ⟨fun _ => rfl, fun _ _ _ => rfl, fun _ _ _ => rfl, fun _ _ => rfl, fun _ _ => ⟨rfl, rfl⟩, nofun⟩

include h ht in
theorem FdInv.cloexecRight : CloexecRight s t := by
  refine ⟨fun i hi j => ?_, fun j => ?_⟩
  · rw [(fdTableCloexecFrom_dropped h ht hi).entries]
    exact if_congr (by simp [flagged]) rfl rfl
  · have hstart : Dropped s t (flagged s t 0 0) s :=
      (Dropped.start h t).congr fun j => .inl (by simp [flagged])
    rw [(fdTableCloexec_dropped ht (by omega) (Nat.zero_le _) hstart).entries]
    by_cases hj : j < (s.tables t).cap
    · exact if_congr (by simp [flagged, hj]) rfl rfl
    · rw [h.tail t j (not_lt.mp hj), ite_self, ite_self]

/-- Over every interleaving a file is counted once for every entry and every reference
in hand, and released exactly once, when there is none left. -/
theorem fd_tables (h : fdSystem.Reach System.anyStep s) :
    (∀ f, s.refcount f = s.pointing f + s.held f) ∧
    (∀ f, s.released f ≤ 1 ∧
      (s.released f = 1 ↔ s.opened f = true ∧ s.pointing f = 0 ∧ s.held f = 0)) ∧
    ∀ t < s.ntables, AllocRight s t ∧ CloneRight s t ∧ CloexecRight s t := by
  have hinv : FdInv s := h.invariant .init fun s a t _ hi _ hn => hi.next hn
  refine ⟨hinv.count, fun f => ?_, fun t ht =>
    ⟨hinv.allocRight t, hinv.cloneRight ht, hinv.cloexecRight ht⟩⟩
  have hc := hinv.count f
  cases ho : s.opened f with
  | false =>
    have hz := (hinv.unopened f ho).2
    rw [hz]
    exact ⟨Nat.zero_le _, by simp⟩
  | true =>
    rw [hinv.once f ho]
    split_ifs with hz
    · exact ⟨le_refl _, by simp; omega⟩
    · exact ⟨Nat.zero_le _, by simp; omega⟩

end

def openShareClose : List FdAction :=
  [.create, .opened 7, .alloc 0 7 0 16, .clone 0 64, .close 0 0, .put 7]

theorem fd_tables_share : (fdSystem.final openShareClose).refcount 7 = 1 ∧
    (fdSystem.final openShareClose).refcount 7 =
      (fdSystem.final openShareClose).pointing 7 + (fdSystem.final openShareClose).held 7 := by
  have hrun : (fdSystem.run fdSystem.init openShareClose).isSome ∧
      (fdSystem.final openShareClose).refcount 7 = 1 := by decide +kernel
  exact ⟨hrun.2, (fd_tables (System.Reach.final System.runOk_any hrun.1)).1 7⟩

end Cervus.Fs
