import Cervus.Lib.Run

/-! Pids: `task_alloc_pid` looks for an empty entry of the table under a lock, and the new task
is entered there only when it is complete. -/

namespace Cervus.Pid

open Function (update update_apply)

def maxPids : Nat := 4096

/-- A task that is being created has a pid already; a destroyed one keeps its own. -/
inductive Stage
  | absent | made | registered | dead
  deriving DecidableEq

structure Task where
  pid : Nat
  stage : Stage

structure Pids where
  nextPid : Nat
  table : Nat → Option Nat
  task : Nat → Task

/-- The pid that a search from `next_pid` looks at first. -/
def firstPid (nextPid : Nat) : Nat := if nextPid = 0 ∨ nextPid ≥ maxPids then 1 else nextPid

def followPid (i : Nat) : Nat := if i + 1 ≥ maxPids then 1 else i + 1

def allocLoop (table : Nat → Option Nat) : Nat → Nat → Nat × Nat
  | 0, nextPid => (0, nextPid)
  | attempts + 1, nextPid =>
    let i := firstPid nextPid
    if table i = none then (i, followPid i) else allocLoop table attempts (followPid i)

/-- The pid found, or 0, and the new `next_pid`. -/
def taskAllocPid (s : Pids) : Nat × Nat := allocLoop s.table (maxPids - 1) s.nextPid

def setEntry (s : Pids) (pid : Nat) (x : Option Nat) : Nat → Option Nat :=
  if pid ≠ 0 ∧ pid < maxPids then update s.table pid x else s.table

def pidRegister (s : Pids) (t : Nat) : Nat → Option Nat := setEntry s (s.task t).pid (some t)

def pidUnregister (s : Pids) (t : Nat) : Nat → Option Nat := setEntry s (s.task t).pid none

/-- The exchange of pids in `task_exec_dethread`. -/
def swapPids (s : Pids) (leader t : Nat) : Pids :=
  let lpid := (s.task leader).pid
  let tpid := (s.task t).pid
  { s with
    table := update (update s.table lpid (some t)) tpid (some leader)
    task := update (update s.task t { s.task t with pid := lpid }) leader
      { s.task leader with pid := tpid } }

inductive Action
  | alloc (t : Nat)
  | abort (t : Nat)
  | register (t : Nat)
  | destroy (t : Nat)
  | swap (leader t : Nat)

def next (s : Pids) : Action → Option Pids
  | .alloc t =>
    let r := taskAllocPid s
    if (s.task t).stage = .absent then
      some { s with
        nextPid := r.2
        task := if r.1 = 0 then s.task else update s.task t ⟨r.1, .made⟩ }
    else none
  | .abort t =>
    if (s.task t).stage = .made then some { s with task := update s.task t ⟨0, .absent⟩ }
    else none
  | .register t =>
    if (s.task t).stage = .made then
      some { s with
        table := pidRegister s t
        task := update s.task t { s.task t with stage := .registered } }
    else none
  | .destroy t =>
    if (s.task t).stage = .registered then
      some { s with
        table := pidUnregister s t
        task := update s.task t { s.task t with stage := .dead } }
    else none
  | .swap leader t =>
    if leader ≠ t ∧ (s.task t).stage = .registered ∧
        ((s.task leader).stage = .registered ∨ (s.task leader).stage = .dead) then
      some (swapPids s leader t)
    else none

def pidSystem : System Pids Action where
  init := ⟨1, fun _ => none, fun _ => ⟨0, .absent⟩⟩
  next := next

def Pids.Live (s : Pids) (t : Nat) : Prop :=
  (s.task t).stage = .made ∨ (s.task t).stage = .registered

structure PidsUnique (s : Pids) : Prop where
  unique : ∀ t u, s.Live t → s.Live u → (s.task t).pid = (s.task u).pid → t = u
  entry : ∀ t, (s.task t).stage = .registered → s.table (s.task t).pid = some t

/-- How many pids stand before `p` in a search that begins at `first`. -/
def ahead (first p : Nat) : Nat := if first ≤ p then p - first else p + (maxPids - 1) - first

/-- When a pid is looked for, an empty entry comes before the pid of every task under creation; and
no leader is destroyed before its pid is taken over. -/
def PidOk (s : Pids) : Action → Prop
  | .alloc _ => ∀ u, (s.task u).stage = .made → ∃ p, p ≠ 0 ∧ p < maxPids ∧ s.table p = none ∧
      ahead (firstPid s.nextPid) p < ahead (firstPid s.nextPid) (s.task u).pid
  | .swap leader _ => (s.task leader).stage = .registered
  | _ => True

structure Inv (s : Pids) : Prop extends PidsUnique s where
  range : ∀ t, s.Live t → (s.task t).pid ≠ 0 ∧ (s.task t).pid < maxPids

theorem firstPid_range (nextPid : Nat) : firstPid nextPid ≠ 0 ∧ firstPid nextPid < maxPids := by
  grind [firstPid, maxPids]

theorem allocLoop_spec (table : Nat → Option Nat) (n nextPid : Nat) :
    (allocLoop table n nextPid).1 = 0 ∨ ((allocLoop table n nextPid).1 ≠ 0 ∧
      (allocLoop table n nextPid).1 < maxPids ∧ table (allocLoop table n nextPid).1 = none) := by
  induction n generalizing nextPid with
  | zero => exact .inl rfl
  | succ n ih =>
    rw [allocLoop]
    split_ifs with hnone
    · exact .inr ⟨(firstPid_range nextPid).1, (firstPid_range nextPid).2, hnone⟩
    · exact ih _

theorem ahead_follow {i p : Nat} (hi : i ≠ 0 ∧ i < maxPids) (hp : p ≠ 0 ∧ p < maxPids)
    (hne : p ≠ i) :
    ahead (firstPid (followPid i)) p + 1 = ahead i p := by
  grind [ahead, firstPid, followPid, maxPids]

/-- The search stops no later than at an empty entry. -/
theorem allocLoop_first {table : Nat → Option Nat} {p n nextPid : Nat} (hp : p ≠ 0 ∧ p < maxPids)
    (hnone : table p = none) (hn : ahead (firstPid nextPid) p < n) :
    (allocLoop table n nextPid).1 ≠ 0 ∧
      ahead (firstPid nextPid) (allocLoop table n nextPid).1 ≤ ahead (firstPid nextPid) p := by
  induction n generalizing nextPid with
  | zero => omega
  | succ n ih =>
    have hi := firstPid_range nextPid
    rw [allocLoop]
    split_ifs with hempty
    · exact ⟨hi.1, by simp [ahead]⟩
    · have hp1 := ahead_follow hi hp fun h => hempty (h ▸ hnone)
      obtain ⟨h0, hle⟩ := @ih (followPid (firstPid nextPid)) (by omega)
      obtain ⟨-, hlt, hr⟩ := (allocLoop_spec table n (followPid (firstPid nextPid))).resolve_left h0
      have hr1 := ahead_follow hi ⟨h0, hlt⟩ fun h => hempty (h ▸ hr)
      exact ⟨h0, by omega⟩

theorem taskAllocPid_fresh {s : Pids} {t u : Nat} (hok : PidOk s (.alloc t))
    (hu : (s.task u).stage = .made) :
    (s.task u).pid ≠ (taskAllocPid s).1 := by
  intro he
  obtain ⟨p, h0, hlt, hnone, hp⟩ := hok u hu
  have hn : ahead (firstPid s.nextPid) p < maxPids - 1 := by grind [ahead, firstPid_range]
  have hle := (allocLoop_first ⟨h0, hlt⟩ hnone hn).2
  rw [he, taskAllocPid] at hp
  omega

/-- Each step that meets the condition keeps the table. -/
theorem Inv.next {s s' : Pids} {a : Action} (h : Inv s) (hok : PidOk s a)
    (hn : next s a = some s') : Inv s' := by
  obtain ⟨⟨hu, he⟩, hr⟩ := h
  cases a with
  | alloc t =>
    obtain ⟨hs, rfl⟩ := of_guard hn
    have hspec := allocLoop_spec s.table (maxPids - 1) s.nextPid
    have hfresh := fun u => taskAllocPid_fresh (u := u) hok
    simp only [taskAllocPid] at hfresh
    refine ⟨⟨?_, ?_⟩, ?_⟩ <;> grind [Pids.Live, taskAllocPid, update_apply]
  | abort t =>
    obtain ⟨hs, rfl⟩ := of_guard hn
    refine ⟨⟨?_, ?_⟩, ?_⟩ <;> grind [Pids.Live, update_apply]
  | register t =>
    obtain ⟨hs, rfl⟩ := of_guard hn
    rw [show pidRegister s t = update s.table (s.task t).pid (some t) from if_pos (hr t (.inl hs))]
    refine ⟨⟨?_, ?_⟩, ?_⟩ <;> grind [Pids.Live, update_apply]
  | destroy t =>
    obtain ⟨hs, rfl⟩ := of_guard hn
    rw [show pidUnregister s t = update s.table (s.task t).pid none from if_pos (hr t (.inr hs))]
    refine ⟨⟨?_, ?_⟩, ?_⟩ <;> grind [Pids.Live, update_apply]
  | swap leader t =>
    obtain ⟨⟨hne, ht, -⟩, rfl⟩ := of_guard hn
    have hl : (s.task leader).stage = .registered := hok
    unfold swapPids
    refine ⟨⟨?_, ?_⟩, ?_⟩ <;> grind [Pids.Live, update_apply]

/-- As long as every search meets an empty entry before the pid of a task under creation, and no
leader is gone before an exec takes its pid, pids are unique and lead to their tasks. -/
theorem pids_unique {s : Pids} (h : pidSystem.Reach PidOk s) : PidsUnique s := by
  have hinit : Inv pidSystem.init := ⟨⟨nofun, nofun⟩, nofun⟩
  exact (h.invariant hinit fun _ _ _ _ hi hok hn => hi.next hok hn).toPidsUnique

theorem pids_unique_two : PidsUnique (pidSystem.final [.alloc 0, .alloc 1, .register 0]) ∧
    ((pidSystem.final [.alloc 0, .alloc 1, .register 0]).task 1).pid = 2 := by
  refine ⟨pids_unique (.final ⟨nofun, fun s₁ h₁ => ⟨fun u hu => ?_,
    fun s₂ h₂ => ⟨trivial, fun _ _ => trivial⟩⟩⟩
    (by decide +kernel)), by decide +kernel⟩
  cases h₁
  have hu : u = 0 := by
    by_contra hne
    simp [pidSystem, taskAllocPid, allocLoop, firstPid, maxPids, hne] at hu
  -- entry 2 is empty, and the search from there comes to entry 1 last
  subst hu
  exact ⟨2, by decide, by decide, rfl, by decide +kernel⟩

/-- Task 0 has pid 1 and is not complete while `n` other creations fail. -/
def slowCreation (n : Nat) : List Action :=
  .alloc 0 :: (List.replicate n [.alloc 1, .abort 1]).flatten

theorem run_slowCreation {n : Nat} (hn : n + 2 ≤ maxPids) :
    pidSystem.run pidSystem.init (slowCreation n) =
    some ⟨if n + 2 ≥ maxPids then 1 else n + 2, fun _ => none, update
      (fun _ => ⟨0, .absent⟩) 0 ⟨1, .made⟩⟩ := by
  induction n with
  | zero => rfl
  | succ n ih =>
    have hsplit : slowCreation (n + 1) = slowCreation n ++ [.alloc 1, .abort 1] := by
      simp [slowCreation, List.replicate_succ']
    have hfirst : allocLoop (fun _ => none) (maxPids - 1) (n + 2) =
        (n + 2, if n + 1 + 2 ≥ maxPids then 1 else n + 1 + 2) := by
      have hi : firstPid (n + 2) = n + 2 := if_neg (by omega)
      rw [show maxPids - 1 = 4094 + 1 from rfl, allocLoop, if_pos rfl, hi]
      rfl
    rw [hsplit, System.run_append, ih (by omega), if_neg (by omega)]
    simp [System.run, pidSystem, next, taskAllocPid, hfirst]

/-- The next creation gets pid 1 as well. -/
def pidTwice : List Action := slowCreation 4094 ++ [.alloc 1, .register 0, .register 1]

/-- Two live tasks with one number. -/
theorem pid_twice :
    (pidSystem.run pidSystem.init pidTwice).isSome ∧ ¬PidsUnique (pidSystem.final pidTwice) := by
  have hrun : (pidSystem.run pidSystem.init pidTwice).isSome ∧
      ((pidSystem.final pidTwice).task 0).stage = .registered ∧
      ((pidSystem.final pidTwice).task 1).stage = .registered ∧
      ((pidSystem.final pidTwice).task 0).pid = ((pidSystem.final pidTwice).task 1).pid := by
    rw [System.final, pidTwice, System.run_append, run_slowCreation (by decide)]
    decide +kernel
  obtain ⟨hsome, h0, h1, hp⟩ := hrun
  exact ⟨hsome, fun h => absurd (h.unique 0 1 (.inr h0) (.inr h1) hp) (by decide)⟩

end Cervus.Pid
