import Mathlib.Algebra.Group.Nat.Defs
import Cervus.Errno
import Cervus.Lib.Run
import Cervus.Sched.Unblock

/-! Semaphore sets: arrays of operations that take effect as a whole or wait, and
the undo records that a process leaves behind. A step under the lock of the sets is one
step up to its wake-ups; these, and every other call of `task_unblock`, go on write by
write. -/

namespace Cervus.Ipc

open Function (update update_eq_self update_of_ne update_self)
open Errno List
open Sched (Sch Stage unblock switchOut)

def semVmx : Int := 32767
def waitqSlots : Nat := 32

/-- One operation; `undo` and `nowait` are bits of its flags. -/
structure SemBuf where
  num : Nat
  op : Int
  undo : Bool
  nowait : Bool
  deriving DecidableEq

structure Ksem where
  val : Int
  pid : Nat
  ncnt : Nat
  zcnt : Nat

/-- Where a waiting task is: between its mark and its return from `sched_reschedule`,
or past `waitq_del`. -/
inductive SemPhase
  | resched | dequeued
  deriving DecidableEq

/-- A task that waits in `sys_semtimedop` for the semaphore `num`; `timed` tells that
it found no slot of the wait queue and comes back by itself after a millisecond. -/
structure SemWait where
  task : Nat
  ops : List SemBuf
  num : Nat
  zero : Bool
  timed : Bool
  phase : SemPhase
  deriving DecidableEq

/-- A set; `undo` has the adjustments of each process that has a record for it. `wakes`
are the calls of `task_unblock` that the holder of the lock has still to make, `other`
those made elsewhere, and `sch` is what the scheduler keeps of the tasks. -/
structure Semset where
  nsems : Nat
  sem : Nat → Ksem
  undo : Nat → Option (Nat → Int)
  dead : Bool
  wq : List Nat
  wakes : List (Nat × Stage)
  waits : List SemWait
  sch : Nat → Sch
  other : Nat → Option (Nat × Stage)

structure SemEnv where
  permitted : Bool
  mem : Bool
  late : Bool
  interrupted : Bool

def waitqWakeAll (s : Semset) : Semset :=
  { s with wq := [], wakes := s.wq.map fun t => (t, .check) }

inductive TryOut
  | ok (tmp : Nat → Int)
  | block (o : SemBuf)
  | range

def runOps : List SemBuf → (Nat → Int) → TryOut
  | [], tmp => .ok tmp
  | o :: ops, tmp =>
    let v := tmp o.num
    if o.op > 0 then
      if v + o.op > semVmx then .range else runOps ops (update tmp o.num (v + o.op))
    else if o.op = 0 then
      if v ≠ 0 then .block o else runOps ops tmp
    else if v + o.op < 0 then .block o
    else runOps ops (update tmp o.num (v + o.op))

def needsUndo (ops : List SemBuf) : Bool := ops.any fun o => o.undo && o.op != 0

def commitOps (tmp : Nat → Int) (pid leader : Nat) : List SemBuf → Semset → Semset
  | [], s => s
  | o :: ops, s =>
    commitOps tmp pid leader ops { s with
      sem := update s.sem o.num { s.sem o.num with val := tmp o.num, pid := pid }
      undo :=
        if o.undo && o.op != 0 then
          update s.undo leader ((s.undo leader).map fun adj =>
            update adj o.num ((adj o.num - o.op).bmod (2 ^ 16)))
        else s.undo }

/-- `undo_for`: the record of the leader, made if there is none. -/
def undoFor (s : Semset) (leader : Nat) : Semset :=
  { s with undo := update s.undo leader (some ((s.undo leader).getD fun _ => 0)) }

inductive SemOut
  | ret (r : Int)
  | block (o : SemBuf)
  deriving DecidableEq

def tryOps (s : Semset) (ops : List SemBuf) (pid leader : Nat) (mem : Bool) : SemOut × Semset :=
  match runOps ops fun k => (s.sem k).val with
  | .range => (.ret (-erange), s)
  | .block o => (.block o, s)
  | .ok tmp =>
    if needsUndo ops && (s.undo leader).isNone && !mem then (.ret (-enomem), s)
    else
      let s := if needsUndo ops then undoFor s leader else s
      (.ret 0, waitqWakeAll (commitOps tmp pid leader ops s))

def semBlock (s : Semset) (task : Nat) (ops : List SemBuf) (o : SemBuf) : Semset :=
  let k := s.sem o.num
  let slot := decide (task ∈ s.wq) || decide (s.wq.length < waitqSlots)
  { s with
    sem := update s.sem o.num
      (if o.op = 0 then { k with zcnt := k.zcnt + 1 } else { k with ncnt := k.ncnt + 1 })
    wq := if task ∈ s.wq then s.wq else if s.wq.length < waitqSlots then s.wq ++ [task] else s.wq
    waits := ⟨task, ops, o.num, o.op = 0, !slot, .resched⟩ :: s.waits
    sch := update s.sch task { s.sch task with runnable := false, state := .blocked } }

def semTurn (s : Semset) (task pid leader : Nat) (ops : List SemBuf) (env : SemEnv) :
    SemOut × Semset :=
  if s.dead then (.ret (-einval), s)
  else if ops.any fun o => s.nsems ≤ o.num then (.ret (-efbig), s)
  else if !env.permitted then (.ret (-eacces), s)
  else
    let r := tryOps s ops pid leader env.mem
    match r.1 with
    | .ret e => (.ret e, r.2)
    | .block o =>
      if o.nowait then (.ret (-eagain), s)
      else if env.late then (.ret (-eagain), s)
      else if env.interrupted then (.ret (-eintr), s)
      else (.block o, semBlock s task ops o)

def semUnwait (s : Semset) (w : SemWait) : Semset :=
  let k := s.sem w.num
  { s with
    sem := if s.dead then s.sem else update s.sem w.num
      (if w.zero then { k with zcnt := k.zcnt - 1 } else { k with ncnt := k.ncnt - 1 })
    waits := s.waits.filter fun x => x.task != w.task }

/-- After a wait: counts down and takes another turn, or finds the set gone. -/
def semResume (s : Semset) (w : SemWait) (pid leader : Nat) (env : SemEnv) : SemOut × Semset :=
  let s := semUnwait s w
  if s.dead then (.ret (-eidrm), s) else semTurn s w.task pid leader w.ops env

def clearUndo (s : Semset) (clear : Nat → Bool) : Semset :=
  { s with undo := fun p => (s.undo p).map fun adj k => if clear k then 0 else adj k }

def semSetval (s : Semset) (num : Nat) (arg : Int) (pid : Nat) (permitted : Bool) : Int × Semset :=
  if s.dead then (-einval, s)
  else if num ≥ s.nsems then (-einval, s)
  else if !permitted then (-eacces, s)
  else if arg < 0 ∨ arg > semVmx then (-erange, s)
  else
    let s := { s with sem := update s.sem num { s.sem num with val := arg, pid := pid } }
    (0, waitqWakeAll (clearUndo s fun k => k = num))

def semSetall (s : Semset) (vals : Nat → Nat) (pid : Nat) (permitted : Bool) : Int × Semset :=
  if s.dead then (-einval, s)
  else if !permitted then (-eacces, s)
  else if (List.range s.nsems).any fun i => (vals i : Int) > semVmx then (-erange, s)
  else
    let s := { s with sem := fun i => if i < s.nsems
      then { s.sem i with val := vals i, pid := pid } else s.sem i }
    (0, waitqWakeAll (clearUndo s fun _ => true))

def semRmid (s : Semset) : Semset := { waitqWakeAll s with dead := true }

def semExitGroup (s : Semset) (leader : Nat) : Semset :=
  match s.undo leader with
  | none => s
  | some adj =>
    waitqWakeAll { s with
      sem := fun i =>
        if i < s.nsems then
          { s.sem i with
            val := min (max ((s.sem i).val + adj i) 0) semVmx
            pid := if adj i ≠ 0 then leader else (s.sem i).pid }
        else s.sem i
      undo := update s.undo leader none }

inductive SemAction
  | call (task pid leader : Nat) (ops : List SemBuf) (env : SemEnv)
  | dequeue (task : Nat)
  | resume (task pid leader : Nat) (env : SemEnv)
  | setval (num : Nat) (arg : Int) (pid : Nat) (permitted : Bool)
  | setall (vals : Nat → Nat) (pid : Nat) (permitted : Bool)
  | rmid
  | exit (leader : Nat)
  | wake
  | otherCall (i t : Nat)
  | otherStep (i : Nat)
  | elsewhere (t : Nat) (k : Sch)
  | signalled (t : Nat)
  | switchOut (t : Nat)
  | pick (t : Nat)
  | drop (t : Nat)

def Semset.waiting (s : Semset) (task : Nat) : Option SemWait :=
  s.waits.find? fun w => w.task == task

def Semset.setPhase (s : Semset) (task : Nat) (phase : SemPhase) : Semset :=
  { s with waits := s.waits.map fun w => if w.task = task then { w with phase := phase } else w }

def Semset.setSch (s : Semset) (t : Nat) (k : Sch) : Semset := { s with sch := update s.sch t k }

/-- What takes the lock of the sets waits for the wake-ups of its holder. A task outside
of this set may do whatever it likes; one inside it is left and taken up by the scheduler,
which also lets it go when it finds a signal. -/
def semNext (s : Semset) : SemAction → Option Semset
  | .call task pid leader ops env =>
    if s.wakes = [] ∧ (s.sch task).onCpu ∧ (s.waiting task).isNone then
      some (semTurn s task pid leader ops env).2
    else none
  | .dequeue task =>
    match s.waiting task with
    | some w =>
      if s.wakes = [] ∧ w.phase = .resched ∧ (s.sch task).onCpu ∧ (s.sch task).runnable then
        some { s.setPhase task .dequeued with wq := s.wq.filter fun t => t != task }
      else none
    | none => none
  | .resume task pid leader env =>
    match s.waiting task with
    | some w =>
      if s.wakes = [] ∧ w.phase = .dequeued ∧ (s.sch task).onCpu then
        some (semResume s w pid leader env).2
      else none
    | none => none
  | .setval num arg pid permitted =>
    if s.wakes = [] then some (semSetval s num arg pid permitted).2 else none
  | .setall vals pid permitted =>
    if s.wakes = [] then some (semSetall s vals pid permitted).2 else none
  | .rmid => if s.wakes = [] ∧ s.dead = false then some (semRmid s) else none
  | .exit leader => if s.wakes = [] then some (semExitGroup s leader) else none
  | .wake =>
    match s.wakes with
    | [] => none
    | (t, stage) :: rest =>
      some { s with
        sch := update s.sch t (unblock (s.sch t) stage).1
        wakes := ((unblock (s.sch t) stage).2.map fun stage => (t, stage)).toList ++ rest }
  | .otherCall i t =>
    if s.other i = none then some { s with other := update s.other i (some (t, .check)) } else none
  | .otherStep i =>
    match s.other i with
    | some (t, stage) =>
      some { s with
        sch := update s.sch t (unblock (s.sch t) stage).1
        other := update s.other i ((unblock (s.sch t) stage).2.map fun stage => (t, stage)) }
    | none => none
  | .elsewhere t k => if (s.waiting t).isNone then some (s.setSch t k) else none
  | .signalled t =>
    if (s.sch t).onCpu ∧ (s.sch t).state = .blocked then
      some (s.setSch t { s.sch t with runnable := true, state := .running })
    else none
  | .switchOut t => if (s.sch t).onCpu then some (s.setSch t (switchOut (s.sch t))) else none
  | .pick t =>
    if (s.sch t).onRq ∧ (s.sch t).runnable ∧ (s.sch t).onCpu = false then
      some (s.setSch t { s.sch t with onRq := false, onCpu := true, state := .running })
    else none
  | .drop t =>
    if (s.sch t).onRq ∧ (s.sch t).runnable = false then
      some (s.setSch t { s.sch t with onRq := false })
    else none

def semSystem (nsems : Nat) : System Semset SemAction where
  init := ⟨nsems, fun _ => ⟨0, 0, 0, 0⟩, fun _ => none, false, [], [], [],
    fun _ => ⟨true, .running, false, true⟩, fun _ => none⟩
  next := semNext

/-- A task comes to where it may mark itself as blocked only when no call of `task_unblock`
for it is between its writes of `runnable` and of the state. -/
def SemOk (s : Semset) : SemAction → Prop
  | .call task _ _ _ _ | .resume task _ _ _ => ∀ i, s.other i ≠ some (task, .state)
  | _ => True

inductive Applies : List SemBuf → (Nat → Int) → (Nat → Int) → Prop
  | nil (vals : Nat → Int) : Applies [] vals vals
  | cons (o : SemBuf) (ops : List SemBuf) (vals vals' : Nat → Int) (h0 : 0 ≤ vals o.num + o.op)
      (h1 : vals o.num + o.op ≤ semVmx) (hz : o.op = 0 → vals o.num = 0)
      (h : Applies ops (update vals o.num (vals o.num + o.op)) vals') :
      Applies (o :: ops) vals vals'

def Semset.vals (s : Semset) : Nat → Int := fun k => (s.sem k).val

def InRange (vals : Nat → Int) : Prop := ∀ k, 0 ≤ vals k ∧ vals k ≤ semVmx

def adjust (adj : Nat → Int) (o : SemBuf) : Nat → Int :=
  if o.undo && o.op != 0 then update adj o.num ((adj o.num - o.op).bmod (2 ^ 16)) else adj

def waitsFor (k : Nat) (zero : Bool) (w : SemWait) : Bool := w.num == k && w.zero == zero

structure SemPre (s : Semset) : Prop where
  range : InRange s.vals
  ncnt : s.dead = false → ∀ k, (s.sem k).ncnt = s.waits.countP (waitsFor k false)
  zcnt : s.dead = false → ∀ k, (s.sem k).zcnt = s.waits.countP (waitsFor k true)
  tasks : (s.waits.map (·.task)).Nodup

/-- The task is in `waitq_block` and only a wake-up brings it back. -/
def Semset.Asleep (s : Semset) (w : SemWait) : Prop :=
  w.phase = .resched ∧ (s.sch w.task).runnable = false

instance (s : Semset) (w : SemWait) : Decidable (s.Asleep w) := inferInstanceAs (Decidable (_ ∧ _))

/-- The wake-ups: a task that is asleep is marked, and has a slot or a wake-up that comes
to it; no call of `task_unblock` is about to overwrite the state of a task that is asleep,
and one that is asleep in a slot cannot go on. -/
structure Wakes (s : Semset) : Prop where
  marked : ∀ w ∈ s.waits, s.Asleep w → (s.sch w.task).state = .blocked
  slots : ∀ w ∈ s.waits, s.Asleep w → w.timed = false →
    w.task ∈ s.wq ∨ (w.task, .check) ∈ s.wakes ∨ (w.task, .runnable) ∈ s.wakes
  late : ∀ w ∈ s.waits, w.phase = .resched → (w.task, .state) ∈ s.wakes →
    (s.sch w.task).runnable = true
  lateOther : ∀ w ∈ s.waits, w.phase = .resched → ∀ i, s.other i = some (w.task, .state) →
    (s.sch w.task).runnable = true
  stuck : ∀ w ∈ s.waits, s.Asleep w → w.timed = false → w.task ∈ s.wq →
    s.dead = false ∧ ∃ o, runOps w.ops s.vals = .block o

section
variable {s : Semset} {ops : List SemBuf} {vals tmp : Nat → Int} {task pid leader : Nat}

theorem InRange.update (h : InRange vals) {k : Nat} {v : Int} (h0 : 0 ≤ v) (h1 : v ≤ semVmx) :
    InRange (update vals k v) := by
  intro j
  by_cases hj : j = k
  · rw [hj, update_self]
    exact ⟨h0, h1⟩
  · rw [update_of_ne hj]
    exact h j

theorem runOps_applies (hr : InRange vals) (h : runOps ops vals = .ok tmp) :
    Applies ops vals tmp ∧ InRange tmp ∧ ∀ k, (∀ o ∈ ops, o.num ≠ k) → tmp k = vals k := by
  induction ops generalizing vals with
  | nil =>
    obtain rfl := TryOut.ok.inj h
    exact ⟨.nil _, hr, fun _ _ => rfl⟩
  | cons o ops ih =>
    have hv := hr o.num
    -- an allowed operation leaves a value in range
    have hgo : ∀ v, v = vals o.num + o.op → 0 ≤ v → v ≤ semVmx → (o.op = 0 → vals o.num = 0) →
        runOps ops (update vals o.num v) = .ok tmp →
        Applies (o :: ops) vals tmp ∧ InRange tmp ∧ ∀ k, (∀ p ∈ o :: ops, p.num ≠ k) →
        tmp k = vals k := by
      rintro v rfl h0 h1 hz hrun
      obtain ⟨ha, hr', hframe⟩ := ih (hr.update h0 h1) hrun
      refine ⟨.cons o ops vals tmp h0 h1 hz ha, hr', fun k hk => ?_⟩
      rw [hframe k fun p hp => hk p (mem_cons_of_mem _ hp)]
      exact update_of_ne (hk o mem_cons_self).symm _ _
    unfold runOps at h
    dsimp only at h
    split_ifs at h with h1 h2 h3 h4 h5
    · exact hgo _ rfl (by omega) (by omega) (by omega) h
    · refine hgo (vals o.num) (by omega) hv.1 hv.2 (fun _ => not_not.mp h4) ?_
      rwa [update_eq_self]
    · exact hgo _ rfl (by omega) (by omega) (by omega) h

theorem counts_update (sem : Nat → Ksem) {k : Nat} {x : Ksem} (hn : x.ncnt = (sem k).ncnt)
    (hz : x.zcnt = (sem k).zcnt) (j : Nat) :
    (update sem k x j).ncnt = (sem j).ncnt ∧ (update sem k x j).zcnt = (sem j).zcnt := by
  by_cases hj : j = k
  · rw [hj, update_self]
    exact ⟨hn, hz⟩
  · rw [update_of_ne hj]
    exact ⟨rfl, rfl⟩

theorem commitOps_frame (tmp : Nat → Int) (pid leader : Nat) (ops : List SemBuf) (s : Semset) :
    ∃ sem undo, commitOps tmp pid leader ops s = { s with sem := sem, undo := undo } ∧
      ∀ k, (sem k).ncnt = (s.sem k).ncnt ∧ (sem k).zcnt = (s.sem k).zcnt := by
  induction ops generalizing s with
  | nil => exact ⟨s.sem, s.undo, rfl, fun _ => ⟨rfl, rfl⟩⟩
  | cons o ops ih =>
    unfold commitOps
    obtain ⟨sem, undo, he, hc⟩ := ih { s with
      sem := update s.sem o.num { s.sem o.num with val := tmp o.num, pid := pid }
      undo :=
        if o.undo && o.op != 0 then
          update s.undo leader ((s.undo leader).map fun adj =>
            update adj o.num ((adj o.num - o.op).bmod (2 ^ 16)))
        else s.undo }
    refine ⟨sem, undo, he, fun k => ?_⟩
    rw [(hc k).1, (hc k).2]
    exact counts_update s.sem (by rfl) (by rfl) k

theorem commit_frame (tmp : Nat → Int) (pid leader : Nat) (ops : List SemBuf) (s : Semset) :
    ∃ sem undo, commitOps tmp pid leader ops (if needsUndo ops then undoFor s leader else s) =
        { s with sem := sem, undo := undo } ∧
      ∀ k, (sem k).ncnt = (s.sem k).ncnt ∧ (sem k).zcnt = (s.sem k).zcnt := by
  split_ifs
  · exact commitOps_frame tmp pid leader ops (undoFor s leader)
  · exact commitOps_frame tmp pid leader ops s

theorem commitOps_vals (ops : List SemBuf) (s : Semset) (k : Nat) :
    ((commitOps tmp pid leader ops s).sem k).val = if ∃ o ∈ ops,
    o.num = k then tmp k else (s.sem k).val := by
  induction ops generalizing s with
  | nil => simp [commitOps]
  | cons o ops ih =>
    unfold commitOps
    rw [ih]
    dsimp only
    by_cases hk : k = o.num
    · subst hk
      simp [update_self]
    · rw [update_of_ne hk]
      exact if_congr (by simp [Ne.symm hk]) rfl rfl

theorem commitOps_undo (ops : List SemBuf) (s : Semset) (p : Nat) :
    (commitOps tmp pid leader ops s).undo p =
      if p = leader then (s.undo leader).map fun adj => ops.foldl adjust adj else s.undo p := by
  induction ops generalizing s with
  | nil => by_cases hp : p = leader <;> simp [commitOps, hp]
  | cons o ops ih =>
    unfold commitOps
    rw [ih]
    dsimp only
    by_cases hu : (o.undo && o.op != 0) = true
    · rw [if_pos hu]
      by_cases hp : p = leader
      · subst hp
        rw [if_pos rfl, if_pos rfl, update_self, Option.map_map]
        congr 1
        funext adj
        simp only [Function.comp, foldl_cons, adjust, hu, if_true]
      · rw [if_neg hp, if_neg hp, update_of_ne hp]
    · rw [if_neg hu]
      congr 2
      funext adj
      rw [foldl_cons, adjust, if_neg hu]

theorem SemPre.of_frame {s' : Semset} (h : SemPre s) (hw : s'.waits = s.waits)
    (hd : s'.dead = s.dead)
    (hc : ∀ k, (s'.sem k).ncnt = (s.sem k).ncnt ∧ (s'.sem k).zcnt = (s.sem k).zcnt)
    (hr : InRange s'.vals) : SemPre s' where
  range := hr
  ncnt hdead k := by rw [(hc k).1, hw]; exact h.ncnt (hd ▸ hdead) k
  zcnt hdead k := by rw [(hc k).2, hw]; exact h.zcnt (hd ▸ hdead) k
  tasks := hw ▸ h.tasks

theorem SemPre.wakeAll (h : SemPre s) : SemPre (waitqWakeAll s) :=
  ⟨h.range, h.ncnt, h.zcnt, h.tasks⟩

theorem SemPre.setSch (h : SemPre s) (t : Nat) (k : Sch) : SemPre (s.setSch t k) :=
  ⟨h.range, h.ncnt, h.zcnt, h.tasks⟩

variable {w : SemWait}

theorem SemPre.setPhase (h : SemPre s) (task : Nat) (phase : SemPhase) (wq : List Nat) :
    SemPre { s.setPhase task phase with wq := wq } := by
  have hcount : ∀ k z, (s.setPhase task phase).waits.countP (waitsFor k z) =
      s.waits.countP (waitsFor k z) := by
    intro k z
    rw [Semset.setPhase, countP_map]
    congr 1
    funext w
    simp only [Function.comp, waitsFor]
    split_ifs <;> rfl
  refine ⟨h.range, fun hd k => ?_, fun hd k => ?_, ?_⟩
  · exact (h.ncnt hd k).trans (hcount k false).symm
  · exact (h.zcnt hd k).trans (hcount k true).symm
  · have htask : (s.setPhase task phase).waits.map (·.task) = s.waits.map (·.task) := by
      rw [Semset.setPhase, map_map]
      refine map_congr_left fun w _ => ?_
      simp only [Function.comp]
      split_ifs <;> rfl
    exact htask ▸ h.tasks

theorem waits_perm {waits : List SemWait} (hn : (waits.map (·.task)).Nodup) (hw : w ∈ waits) :
    waits.Perm (w :: waits.filter fun x => x.task != w.task) := by
  induction waits with
  | nil => cases hw
  | cons x waits ih =>
    obtain ⟨hx, hn⟩ := nodup_cons.mp hn
    have hne : ∀ y ∈ waits, y.task ≠ x.task := fun y hy h => hx (mem_map.mpr ⟨y, hy, h⟩)
    rcases mem_cons.mp hw with rfl | hw
    · rw [filter_cons_of_neg (by simp), filter_eq_self.mpr fun y hy => by simp [hne y hy]]
    · rw [filter_cons_of_pos (by simpa using (hne w hw).symm)]
      exact ((ih hn hw).cons x).trans (.swap _ _ _)

theorem waiting_mem (h : s.waiting task = some w) : w ∈ s.waits ∧ w.task = task :=
  ⟨mem_of_find?_eq_some h, by simpa using List.find?_some h⟩

theorem semBlock_vals (o : SemBuf) : (semBlock s task ops o).vals = s.vals := by
  funext k
  unfold Semset.vals semBlock
  dsimp only
  by_cases hk : k = o.num
  · subst hk
    rw [update_self]
    split_ifs <;> rfl
  · rw [update_of_ne hk]

theorem semBlock_counts (o : SemBuf) (k : Nat) :
    ((semBlock s task ops o).sem k).ncnt = (s.sem k).ncnt +
    (if o.num = k ∧ o.op ≠ 0 then 1 else 0) ∧
    ((semBlock s task ops o).sem k).zcnt = (s.sem k).zcnt +
    (if o.num = k ∧ o.op = 0 then 1 else 0) := by
  unfold semBlock
  dsimp only
  by_cases hk : k = o.num
  · subst hk
    by_cases ho : o.op = 0 <;> simp [ho]
  · rw [update_of_ne hk]
    simp [Ne.symm hk]

theorem not_waiting (ht : s.waiting task = none) (hw : w ∈ s.waits) : w.task ≠ task := by
  simpa using List.find?_eq_none.mp ht w hw

theorem SemPre.block (h : SemPre s) (hd : s.dead = false) (ht : s.waiting task = none)
    (o : SemBuf) :
    SemPre (semBlock s task ops o) := by
  refine ⟨?_, fun _ k => ?_, fun _ k => ?_, ?_⟩
  · rw [semBlock_vals]
    exact h.range
  · rw [(semBlock_counts o k).1, h.ncnt hd k]
    simp [semBlock, countP_cons, waitsFor]
  · rw [(semBlock_counts o k).2, h.zcnt hd k]
    simp [semBlock, countP_cons, waitsFor]
  · refine nodup_cons.mpr ⟨fun hmem => ?_, h.tasks⟩
    obtain ⟨w, hw, hwt⟩ := mem_map.mp hmem
    exact not_waiting ht hw hwt

theorem semUnwait_vals (w : SemWait) : (semUnwait s w).vals = s.vals := by
  funext k
  unfold Semset.vals semUnwait
  dsimp only
  by_cases hk : k = w.num
  · subst hk
    rw [apply_ite (fun f : Nat → Ksem => f w.num), update_self]
    split_ifs <;> rfl
  · rw [apply_ite (fun f : Nat → Ksem => f k), update_of_ne hk, ite_self]

theorem semUnwait_counts (w : SemWait) (hd : s.dead = false) (k : Nat) :
    ((semUnwait s w).sem k).ncnt = (s.sem k).ncnt - (if waitsFor k false w then 1 else 0) ∧
    ((semUnwait s w).sem k).zcnt = (s.sem k).zcnt - (if waitsFor k true w then 1 else 0) := by
  unfold semUnwait waitsFor
  dsimp only
  rw [hd, if_neg Bool.false_ne_true]
  by_cases hk : k = w.num
  · subst hk
    cases w.zero <;> simp
  · rw [update_of_ne hk]
    simp [Ne.symm hk]

theorem SemPre.unwait (h : SemPre s) (hw : w ∈ s.waits) : SemPre (semUnwait s w) := by
  have hcount : ∀ p : SemWait → Bool, (semUnwait s w).waits.countP p =
      s.waits.countP p - (if p w then 1 else 0) := by
    intro p
    rw [(waits_perm h.tasks hw).countP_eq, countP_cons, Nat.add_sub_cancel]
    rfl
  refine ⟨?_, fun hd k => ?_, fun hd k => ?_, h.tasks.sublist (filter_sublist.map _)⟩
  · rw [semUnwait_vals]
    exact h.range
  · have hd : s.dead = false := hd
    rw [(semUnwait_counts w hd k).1, hcount, h.ncnt hd k]
  · have hd : s.dead = false := hd
    rw [(semUnwait_counts w hd k).2, hcount, h.zcnt hd k]

theorem semUnwait_waiting (w : SemWait) : (semUnwait s w).waiting w.task = none := by
  refine List.find?_eq_none.mpr fun x hx => ?_
  have hne : x.task ≠ w.task := by simpa using (mem_filter.mp hx).2
  simpa using hne

end

structure SemEffect (s s' : Semset) (ops : List SemBuf) (leader : Nat) : Prop where
  vals : Applies ops s.vals s'.vals
  record : s'.undo leader =
    if needsUndo ops then some (ops.foldl adjust ((s.undo leader).getD fun _ => 0))
      else s.undo leader
  others : ∀ p, p ≠ leader → s'.undo p = s.undo p

/-- All of the operations took effect, or none. -/
def Atomic (s : Semset) (r : SemOut × Semset) (ops : List SemBuf) (leader : Nat) : Prop :=
  (r.1 = .ret 0 ∧ SemEffect s r.2 ops leader) ∨
    (r.1 ≠ .ret 0 ∧ r.2.vals = s.vals ∧ r.2.undo = s.undo)

section
variable {s : Semset} {ops : List SemBuf} {task pid leader : Nat} {mem : Bool}

theorem foldl_adjust_of_not_needsUndo (h : needsUndo ops = false) (adj : Nat → Int) :
    ops.foldl adjust adj = adj := by
  induction ops generalizing adj with
  | nil => rfl
  | cons o ops ih =>
    obtain ⟨ho, hops⟩ := Bool.or_eq_false_iff.mp h
    rw [foldl_cons, adjust, if_neg (Bool.eq_false_iff.mp ho)]
    exact ih hops adj

theorem tryOps_cases (s : Semset) (ops : List SemBuf) (pid leader : Nat) (mem : Bool) :
    (∃ e, e ≠ 0 ∧ tryOps s ops pid leader mem = (.ret e, s)) ∨
    (∃ o, runOps ops s.vals = .block o ∧ tryOps s ops pid leader mem = (.block o, s)) ∨
    (∃ tmp, runOps ops s.vals = .ok tmp ∧ tryOps s ops pid leader mem =
      (.ret 0, waitqWakeAll (commitOps tmp pid leader ops
        (if needsUndo ops then undoFor s leader else s)))) := by
  unfold tryOps
  rw [show (fun k => (s.sem k).val) = s.vals from rfl]
  cases runOps ops s.vals with
  | range => exact .inl ⟨-erange, by decide, rfl⟩
  | block o => exact .inr (.inl ⟨o, rfl, rfl⟩)
  | ok tmp =>
    by_cases hm : (needsUndo ops && (s.undo leader).isNone && !mem) = true
    · exact .inl ⟨-enomem, by decide, if_pos hm⟩
    · exact .inr (.inr ⟨tmp, rfl, if_neg hm⟩)

/-- A turn is refused and changes nothing, or the task starts to wait, or all operations
are made. -/
theorem semTurn_cases (s : Semset) (task pid leader : Nat) (ops : List SemBuf) (env : SemEnv) :
    (∃ e, e ≠ 0 ∧ semTurn s task pid leader ops env = (.ret e, s)) ∨
    (∃ o, s.dead = false ∧ runOps ops s.vals = .block o ∧
      semTurn s task pid leader ops env = (.block o, semBlock s task ops o)) ∨
    (∃ tmp, runOps ops s.vals = .ok tmp ∧ semTurn s task pid leader ops env =
      (.ret 0, waitqWakeAll (commitOps tmp pid leader ops
        (if needsUndo ops then undoFor s leader else s)))) := by
  unfold semTurn
  split
  · exact .inl ⟨-einval, by decide, rfl⟩
  rename_i hd
  split
  · exact .inl ⟨-efbig, by decide, rfl⟩
  split
  · exact .inl ⟨-eacces, by decide, rfl⟩
  obtain ⟨e, he, hr⟩ | ⟨o, hrun, hr⟩ | ⟨tmp, hrun, hr⟩ := tryOps_cases s ops pid leader env.mem
  · rw [hr]
    exact .inl ⟨e, he, rfl⟩
  · rw [hr]
    dsimp only
    by_cases hnow : o.nowait = true
    · exact .inl ⟨-eagain, by decide, if_pos hnow⟩
    rw [if_neg hnow]
    by_cases hlate : env.late = true
    · exact .inl ⟨-eagain, by decide, if_pos hlate⟩
    rw [if_neg hlate]
    by_cases hint : env.interrupted = true
    · exact .inl ⟨-eintr, by decide, if_pos hint⟩
    · exact .inr (.inl ⟨o, Bool.eq_false_iff.mpr hd, hrun, if_neg hint⟩)
  · rw [hr]
    exact .inr (.inr ⟨tmp, hrun, rfl⟩)

/-- When all operations can be made, the call takes effect as a whole. -/
theorem commit_effect {tmp : Nat → Int} (pid leader : Nat) (h : SemPre s)
    (hr : runOps ops s.vals = .ok tmp) :
    SemEffect s (commitOps tmp pid leader ops (if needsUndo ops then undoFor s leader else s)) ops
      leader ∧
    SemPre (commitOps tmp pid leader ops (if needsUndo ops then undoFor s leader else s)) := by
  obtain ⟨ha, hrange, hframe⟩ := runOps_applies h.range hr
  obtain ⟨sem, undo, he, hc⟩ := commit_frame tmp pid leader ops s
  have hvals : (commitOps tmp pid leader ops (if needsUndo ops then undoFor s leader else s)).vals =
      tmp := by
    funext k
    unfold Semset.vals
    rw [commitOps_vals]
    split_ifs with hk
    · rfl
    all_goals exact (hframe k fun o ho hn => hk ⟨o, ho, hn⟩).symm
  refine ⟨⟨by rw [hvals]; exact ha, ?_, fun p hp => ?_⟩, ?_⟩
  · rw [commitOps_undo, if_pos rfl]
    cases hn : needsUndo ops with
    | true => simp [undoFor]
    | false => simp [foldl_adjust_of_not_needsUndo hn]
  · rw [commitOps_undo, if_neg hp]
    split_ifs
    · exact update_of_ne hp _ _
    · rfl
  · rw [he] at hvals ⊢
    exact h.of_frame rfl rfl hc (hvals ▸ hrange)

theorem SemEffect.wakeAll {s' : Semset} (h : SemEffect s s' ops leader) :
    SemEffect s (waitqWakeAll s') ops leader := ⟨h.vals, h.record, h.others⟩

theorem Atomic.refuse {e : Int} (he : e ≠ 0) : Atomic s (.ret e, s) ops leader :=
  .inr ⟨fun h => he (SemOut.ret.inj h), rfl, rfl⟩

theorem semTurn_spec (pid leader : Nat) (ops : List SemBuf) (h : SemPre s)
    (ht : s.waiting task = none) (env : SemEnv) : SemPre (semTurn s task pid leader ops env).2 ∧
      Atomic s (semTurn s task pid leader ops env) ops leader := by
  obtain ⟨e, he, hr⟩ | ⟨o, hd, -, hr⟩ | ⟨tmp, hrun, hr⟩ := semTurn_cases s task pid leader ops env
  · rw [hr]
    exact ⟨h, .refuse he⟩
  · rw [hr]
    exact ⟨h.block hd ht o, .inr ⟨fun hret => SemOut.noConfusion hret, semBlock_vals o, rfl⟩⟩
  · rw [hr]
    obtain ⟨he, hpre⟩ := commit_effect pid leader h hrun
    exact ⟨hpre.wakeAll, .inl ⟨rfl, he.wakeAll⟩⟩

theorem semResume_spec {w : SemWait} (h : SemPre s) (hw : w ∈ s.waits) (env : SemEnv) :
    SemPre (semResume s w pid leader env).2 ∧
      Atomic s (semResume s w pid leader env) w.ops leader := by
  have h' := h.unwait hw
  have hvals := semUnwait_vals (s := s) w
  unfold semResume
  dsimp only
  split_ifs with hd
  · exact ⟨h', .inr ⟨fun hret => absurd (SemOut.ret.inj hret) (by decide), hvals, rfl⟩⟩
  · obtain ⟨hinv, ⟨hret, he⟩ | ⟨hret, hv, hu⟩⟩ :=
      semTurn_spec pid leader w.ops h' (semUnwait_waiting w) env
    · exact ⟨hinv, .inl ⟨hret, hvals ▸ he.vals, he.record, he.others⟩⟩
    · exact ⟨hinv, .inr ⟨hret, hv.trans hvals, hu⟩⟩

theorem SemPre.set_vals (h : SemPre s) {sem : Nat → Ksem} {undo : Nat → Option (Nat → Int)}
    (hc : ∀ k, (sem k).ncnt = (s.sem k).ncnt ∧ (sem k).zcnt = (s.sem k).zcnt)
    (hr : ∀ k, 0 ≤ (sem k).val ∧ (sem k).val ≤ semVmx) :
    SemPre (waitqWakeAll { s with sem := sem, undo := undo }) :=
  SemPre.wakeAll (h.of_frame rfl rfl hc hr)

theorem SemPre.setval (h : SemPre s) (num : Nat) (arg : Int) (permitted : Bool) :
    SemPre (semSetval s num arg pid permitted).2 := by
  unfold semSetval
  split_ifs with h1 h2 h3 h4
  · exact h
  · exact h
  · exact h
  · exact h
  refine h.set_vals (counts_update s.sem (by rfl) (by rfl)) (fun k => ?_)
  dsimp only
  by_cases hk : k = num
  · rw [hk, update_self]
    exact ⟨Int.not_lt.mp fun h0 => h4 (.inl h0), Int.not_lt.mp fun h1 => h4 (.inr h1)⟩
  · rw [update_of_ne hk]
    exact h.range k

theorem SemPre.setall (h : SemPre s) (vals : Nat → Nat) (permitted : Bool) :
    SemPre (semSetall s vals pid permitted).2 := by
  unfold semSetall
  split_ifs with h1 h2 h3
  · exact h
  · exact h
  · exact h
  · refine h.set_vals (fun k => ?_) (fun k => ?_) <;> dsimp only
    · split_ifs <;> exact ⟨rfl, rfl⟩
    · split_ifs with hk
      · refine ⟨Int.natCast_nonneg _, Int.not_lt.mp fun hlt => h3 ?_⟩
        exact any_eq_true.mpr ⟨k, mem_range.mpr hk, decide_eq_true hlt⟩
      · exact h.range k

theorem clamp_range (v : Int) : 0 ≤ min (max v 0) semVmx ∧ min (max v 0) semVmx ≤ semVmx := by
  have hmax : 0 ≤ semVmx := by decide
  omega

theorem SemPre.exitGroup (h : SemPre s) (leader : Nat) : SemPre (semExitGroup s leader) := by
  unfold semExitGroup
  split
  · exact h
  · refine h.set_vals (fun k => ?_) (fun k => ?_) <;> dsimp only
    · split_ifs <;> exact ⟨rfl, rfl⟩
    · by_cases hk : k < s.nsems
      · rw [if_pos hk]
        exact clamp_range _
      · rw [if_neg hk]
        exact h.range k

theorem SemPre.rmid (h : SemPre s) : SemPre (semRmid s) :=
  ⟨h.range, fun hd => Bool.noConfusion hd, fun hd => Bool.noConfusion hd, h.tasks⟩

/-- Every step keeps the values in range and the counts those of the waits. -/
theorem SemPre.next {s' : Semset} {a : SemAction} (h : SemPre s) (hs : semNext s a = some s') :
    SemPre s' := by
  cases a with
  | call task pid leader ops env =>
    obtain ⟨⟨-, -, hnone⟩, rfl⟩ := of_guard hs
    exact (semTurn_spec pid leader ops h (Option.isNone_iff_eq_none.mp hnone) env).1
  | dequeue task =>
    simp only [semNext] at hs
    split at hs
    · obtain ⟨-, rfl⟩ := of_guard hs
      exact h.setPhase _ _ _
    · cases hs
  | resume task pid leader env =>
    simp only [semNext] at hs
    split at hs
    · rename_i w hw
      obtain ⟨-, rfl⟩ := of_guard hs
      exact (semResume_spec h (waiting_mem hw).1 env).1
    · cases hs
  | setval num arg pid permitted =>
    obtain ⟨-, rfl⟩ := of_guard hs
    exact h.setval num arg permitted
  | setall vals pid permitted =>
    obtain ⟨-, rfl⟩ := of_guard hs
    exact h.setall vals permitted
  | rmid =>
    obtain ⟨-, rfl⟩ := of_guard hs
    exact h.rmid
  | exit leader =>
    obtain ⟨-, rfl⟩ := of_guard hs
    exact h.exitGroup leader
  | wake =>
    simp only [semNext] at hs
    split at hs
    · cases hs
    · cases hs
      exact h.of_frame rfl rfl (fun _ => ⟨rfl, rfl⟩) h.range
  | otherCall i t =>
    obtain ⟨-, rfl⟩ := of_guard hs
    exact h.of_frame rfl rfl (fun _ => ⟨rfl, rfl⟩) h.range
  | otherStep i =>
    simp only [semNext] at hs
    split at hs
    · cases hs
      exact h.of_frame rfl rfl (fun _ => ⟨rfl, rfl⟩) h.range
    · cases hs
  | elsewhere t k | signalled t | switchOut t | pick t | drop t =>
    obtain ⟨-, rfl⟩ := of_guard hs
    exact h.setSch t _

theorem Wakes.set_vals (h : Wakes s) (h0 : s.wakes = []) (sem : Nat → Ksem)
    (undo : Nat → Option (Nat → Int)) (dead : Bool) :
    Wakes (waitqWakeAll { s with sem := sem, undo := undo, dead := dead }) := by
  refine ⟨h.marked, fun w hw ha ht => .inr (.inl ?_), fun w hw hp hl => ?_, h.lateOther, nofun⟩
  · rcases h.slots w hw ha ht with hq | hq | hq
    · exact mem_map.mpr ⟨_, hq, rfl⟩
    · rw [h0] at hq
      cases hq
    · rw [h0] at hq
      cases hq
  · obtain ⟨t, -, ht⟩ := mem_map.mp hl
    cases ht

/-- A task that marks itself is not about to be overwritten, and could not go on. -/
theorem Wakes.block (h : Wakes s) (h0 : s.wakes = []) (hd : s.dead = false) {o : SemBuf}
    (hb : runOps ops s.vals = .block o) (ht : s.waiting task = none)
    (hok : ∀ i, s.other i ≠ some (task, .state)) : Wakes (semBlock s task ops o) := by
  have hsch : ∀ w ∈ s.waits, (semBlock s task ops o).sch w.task = s.sch w.task :=
    fun w hw => update_of_ne (not_waiting ht hw) _ _
  have hasleep : ∀ w ∈ s.waits, (semBlock s task ops o).Asleep w → s.Asleep w := by
    intro w hw ha
    rw [Semset.Asleep, hsch w hw] at ha
    exact ha
  have hin : ∀ t ∈ s.wq, t ∈ (semBlock s task ops o).wq := by
    intro t h'
    unfold semBlock
    dsimp only
    split_ifs
    · exact h'
    · exact mem_append_left _ h'
    · exact h'
  have hout : ∀ t ∈ (semBlock s task ops o).wq, t ≠ task → t ∈ s.wq := by
    intro t h' hne
    unfold semBlock at h'
    dsimp only at h'
    split_ifs at h'
    · exact h'
    · exact (mem_append.mp h').resolve_right (by simpa using hne)
    · exact h'
  refine ⟨fun w hw ha => ?_, fun w hw ha htm => ?_, fun w _ _ hl => ?_, fun w hw hp i hi => ?_,
    fun w hw ha htm hq => ?_⟩
  · rcases mem_cons.mp hw with rfl | hw
    · show (update s.sch task _ task).state = .blocked
      rw [update_self]
    · rw [hsch w hw]
      exact h.marked w hw (hasleep w hw ha)
  · rcases mem_cons.mp hw with rfl | hw
    · -- it came on without a timer, so it has a slot
      refine .inl ?_
      unfold semBlock
      dsimp only at htm ⊢
      split_ifs with h1 h2
      · exact h1
      · simp
      · simp [h1, h2] at htm
    · rcases h.slots w hw (hasleep w hw ha) htm with hq | hq
      · exact .inl (hin _ hq)
      · exact .inr hq
  · rw [show (semBlock s task ops o).wakes = s.wakes from rfl, h0] at hl
    cases hl
  · rcases mem_cons.mp hw with rfl | hw
    · exact absurd hi (hok i)
    · rw [hsch w hw]
      exact h.lateOther w hw hp i hi
  · rw [semBlock_vals]
    rcases mem_cons.mp hw with rfl | hw
    · exact ⟨hd, o, hb⟩
    · exact h.stuck w hw (hasleep w hw ha) htm (hout _ hq (not_waiting ht hw))

theorem Wakes.unwait (h : Wakes s) (w : SemWait) : Wakes (semUnwait s w) := by
  have hsub : ∀ v ∈ (semUnwait s w).waits, v ∈ s.waits := fun v hv => (mem_filter.mp hv).1
  refine ⟨fun v hv => h.marked v (hsub v hv), fun v hv => h.slots v (hsub v hv),
    fun v hv => h.late v (hsub v hv), fun v hv => h.lateOther v (hsub v hv), fun v hv => ?_⟩
  rw [semUnwait_vals]
  exact h.stuck v (hsub v hv)

theorem Wakes.turn (h : Wakes s) (h0 : s.wakes = []) (ht : s.waiting task = none)
    (hok : ∀ i, s.other i ≠ some (task, .state)) (env : SemEnv) :
    Wakes (semTurn s task pid leader ops env).2 := by
  obtain ⟨e, -, hr⟩ | ⟨o, hd, hrun, hr⟩ | ⟨tmp, -, hr⟩ := semTurn_cases s task pid leader ops env
  · rw [hr]
    exact h
  · rw [hr]
    exact h.block h0 hd hrun ht hok
  · rw [hr]
    obtain ⟨sem, undo, he, -⟩ := commit_frame tmp pid leader ops s
    rw [he]
    exact h.set_vals h0 sem undo s.dead

theorem Wakes.resume (h : Wakes s) (h0 : s.wakes = []) {w : SemWait}
    (hok : ∀ i, s.other i ≠ some (w.task, .state)) (env : SemEnv) :
    Wakes (semResume s w pid leader env).2 := by
  unfold semResume
  dsimp only
  split_ifs
  · exact h.unwait w
  · exact (h.unwait w).turn h0 (semUnwait_waiting w) hok env

theorem Wakes.dequeue (h : Wakes s) (task : Nat) :
    Wakes { s.setPhase task .dequeued with wq := s.wq.filter fun t => t != task } := by
  -- a task that is still on its way to sleep is another one, as it was
  have hsame : ∀ v ∈ (s.setPhase task .dequeued).waits, v.phase = .resched →
      v ∈ s.waits ∧ v.task ≠ task := by
    intro v hv hp
    obtain ⟨w, hw, rfl⟩ := mem_map.mp hv
    by_cases hne : w.task = task
    · rw [if_pos hne] at hp
      cases hp
    · rw [if_neg hne]
      exact ⟨hw, hne⟩
  refine ⟨fun v hv ha => h.marked v (hsame v hv ha.1).1 ha, fun v hv ha ht => ?_,
    fun v hv hp => h.late v (hsame v hv hp).1 hp, fun v hv hp => h.lateOther v (hsame v hv hp).1 hp,
    fun v hv ha ht hq => h.stuck v (hsame v hv ha.1).1 ha ht (mem_filter.mp hq).1⟩
  obtain ⟨hv', hne⟩ := hsame v hv ha.1
  exact (h.slots v hv' ha ht).imp_left fun hq => mem_filter.mpr ⟨hq, by simpa using hne⟩

/-- A step on what the scheduler keeps of a task: it makes it runnable, or changes neither
that nor the state. -/
theorem Wakes.setSch (h : Wakes s) {t : Nat} {k : Sch}
    (hk : ∀ w ∈ s.waits, w.task = t → w.phase = .resched → k.runnable = true ∨
      k.runnable = (s.sch t).runnable ∧ k.state = (s.sch t).state) : Wakes (s.setSch t k) := by
  have hsch : ∀ w ∈ s.waits, w.phase = .resched →
      ((s.setSch t k).sch w.task).runnable = true ∨
        ((s.setSch t k).sch w.task).runnable = (s.sch w.task).runnable ∧
        ((s.setSch t k).sch w.task).state = (s.sch w.task).state := by
    intro w hw hp
    by_cases ht : w.task = t
    · rw [ht, show (s.setSch t k).sch t = k from update_self ..]
      exact hk w hw ht hp
    · rw [show (s.setSch t k).sch w.task = s.sch w.task from update_of_ne ht ..]
      exact .inr ⟨rfl, rfl⟩
  have hasleep : ∀ w ∈ s.waits, (s.setSch t k).Asleep w → s.Asleep w ∧
      ((s.setSch t k).sch w.task).state = (s.sch w.task).state := by
    rintro w hw ⟨hp, hr⟩
    rcases hsch w hw hp with hrun | ⟨h1, h2⟩
    · rw [hrun] at hr
      cases hr
    · exact ⟨⟨hp, h1.symm.trans hr⟩, h2⟩
  have hrun : ∀ w ∈ s.waits, w.phase = .resched → (s.sch w.task).runnable = true →
      ((s.setSch t k).sch w.task).runnable = true := by
    intro w hw hp hr
    rcases hsch w hw hp with h1 | ⟨h1, -⟩
    · exact h1
    · exact h1.trans hr
  refine ⟨fun w hw ha => ?_, fun w hw ha => h.slots w hw (hasleep w hw ha).1,
    fun w hw hp hl => hrun w hw hp (h.late w hw hp hl),
    fun w hw hp i hi => hrun w hw hp (h.lateOther w hw hp i hi),
    fun w hw ha => h.stuck w hw (hasleep w hw ha).1⟩
  rw [(hasleep w hw ha).2]
  exact h.marked w hw (hasleep w hw ha).1

theorem unblock_next {k : Sch} {stage : Stage} (h : (unblock k stage).2 = some .state) :
    (unblock k stage).1.runnable = true := by
  cases stage with
  | check =>
    simp only [unblock] at h
    split_ifs at h
    cases h
  | runnable => rfl
  | state | enqueue => cases h

/-- The access of a call of `task_unblock` to its task. -/
theorem Wakes.access (h : Wakes s) (t : Nat) (stage : Stage)
    (hl : stage = .state → ∀ w ∈ s.waits, w.task = t → w.phase = .resched →
      (s.sch t).runnable = true) : Wakes (s.setSch t (unblock (s.sch t) stage).1) := by
  refine h.setSch fun w hw ht hp => ?_
  cases stage with
  | check => exact .inr ⟨rfl, rfl⟩
  | runnable => exact .inl rfl
  | state => exact .inl (hl rfl w hw ht hp)
  | enqueue => exact .inr ⟨rfl, rfl⟩

/-- A step of the wake-ups that the holder of the lock makes. -/
theorem Wakes.wake (h : Wakes s) {t : Nat} {stage : Stage} {rest : List (Nat × Stage)}
    (hw : s.wakes = (t, stage) :: rest) :
    Wakes { s with
      sch := update s.sch t (unblock (s.sch t) stage).1
      wakes := ((unblock (s.sch t) stage).2.map fun stage => (t, stage)).toList ++ rest } := by
  have hu := h.access t stage fun he w hmem ht hp => by
    subst he ht
    exact h.late w hmem hp (hw ▸ mem_cons_self)
  have hself : (s.setSch t (unblock (s.sch t) stage).1).sch t = (unblock (s.sch t) stage).1 :=
    update_self ..
  have hwakes : (s.setSch t (unblock (s.sch t) stage).1).wakes = (t, stage) :: rest := hw
  refine ⟨hu.marked, fun w hmem ha ht => ?_, fun w hmem hp hl => ?_, hu.lateOther, hu.stuck⟩
  · have hs := hu.slots w hmem ha ht
    have hm := hu.marked w hmem ha
    rw [hwakes] at hs
    rcases hs with hq | hq | hq
    · exact .inl hq
    · rcases mem_cons.mp hq with he | hq
      · -- the look at its state finds the task blocked
        obtain ⟨rfl, rfl⟩ := Prod.mk.inj he
        rw [hself] at hm
        have hb : (s.sch w.task).state = .blocked := hm
        exact .inr (.inr (mem_append_left _ (by simp [unblock, hb])))
      · exact .inr (.inl (mem_append_right _ hq))
    · rcases mem_cons.mp hq with he | hq
      · obtain ⟨rfl, rfl⟩ := Prod.mk.inj he
        have hr : ((s.setSch w.task _).sch w.task).runnable = false := ha.2
        rw [hself] at hr
        cases hr
      · exact .inr (.inr (mem_append_right _ hq))
  · rcases mem_append.mp hl with hl | hl
    · obtain ⟨stage', hn, he⟩ := Option.map_eq_some_iff.mp (Option.mem_toList.mp hl)
      obtain ⟨rfl, rfl⟩ := Prod.mk.inj he
      show ((s.setSch w.task _).sch w.task).runnable = true
      rw [hself]
      exact unblock_next hn
    · exact hu.late w hmem hp (hwakes ▸ mem_cons_of_mem _ hl)

theorem Wakes.otherStep (h : Wakes s) {i t : Nat} {stage : Stage}
    (ho : s.other i = some (t, stage)) :
    Wakes { s with
      sch := update s.sch t (unblock (s.sch t) stage).1
      other := update s.other i ((unblock (s.sch t) stage).2.map fun stage => (t, stage)) } := by
  have hu := h.access t stage fun he w hmem ht hp => by
    subst he ht
    exact h.lateOther w hmem hp i ho
  refine ⟨hu.marked, hu.slots, hu.late, fun w hmem hp j hj => ?_, hu.stuck⟩
  dsimp only at hj ⊢
  by_cases hji : j = i
  · rw [hji, update_self] at hj
    obtain ⟨stage', hn, he⟩ := Option.map_eq_some_iff.mp hj
    obtain ⟨rfl, rfl⟩ := Prod.mk.inj he
    rw [update_self]
    exact unblock_next hn
  · rw [update_of_ne hji] at hj
    exact hu.lateOther w hmem hp j hj

theorem Wakes.otherCall (h : Wakes s) (i t : Nat) :
    Wakes { s with other := update s.other i (some (t, .check)) } := by
  refine ⟨h.marked, h.slots, h.late, fun w hw hp j hj => ?_, h.stuck⟩
  dsimp only at hj
  by_cases hji : j = i
  · rw [hji, update_self] at hj
    cases hj
  · rw [update_of_ne hji] at hj
    exact h.lateOther w hw hp j hj

/-- Every step that meets the condition keeps the wake-ups on their way. -/
theorem Wakes.next {s' : Semset} {a : SemAction} (h : Wakes s) (hok : SemOk s a)
    (hs : semNext s a = some s') : Wakes s' := by
  cases a with
  | call task pid leader ops env =>
    obtain ⟨⟨h0, -, hnone⟩, rfl⟩ := of_guard hs
    exact h.turn h0 (Option.isNone_iff_eq_none.mp hnone) hok env
  | dequeue task =>
    simp only [semNext] at hs
    split at hs
    · obtain ⟨-, rfl⟩ := of_guard hs
      exact h.dequeue task
    · cases hs
  | resume task pid leader env =>
    simp only [semNext] at hs
    split at hs
    · rename_i w hw
      obtain ⟨⟨h0, -, -⟩, rfl⟩ := of_guard hs
      obtain ⟨-, rfl⟩ := waiting_mem hw
      exact h.resume h0 hok env
    · cases hs
  | setval num arg pid permitted =>
    obtain ⟨h0, rfl⟩ := of_guard hs
    unfold semSetval
    split_ifs
    · exact h
    · exact h
    · exact h
    · exact h
    · exact h.set_vals h0 _ _ s.dead
  | setall vals pid permitted =>
    obtain ⟨h0, rfl⟩ := of_guard hs
    unfold semSetall
    split_ifs
    · exact h
    · exact h
    · exact h
    · exact h.set_vals h0 _ _ s.dead
  | rmid =>
    obtain ⟨⟨h0, -⟩, rfl⟩ := of_guard hs
    exact h.set_vals h0 s.sem s.undo true
  | exit leader =>
    obtain ⟨h0, rfl⟩ := of_guard hs
    unfold semExitGroup
    split
    · exact h
    · exact h.set_vals h0 _ _ s.dead
  | wake =>
    simp only [semNext] at hs
    split at hs
    · cases hs
    · rename_i t stage rest hw
      cases hs
      exact h.wake hw
  | otherCall i t =>
    obtain ⟨-, rfl⟩ := of_guard hs
    exact h.otherCall i t
  | otherStep i =>
    simp only [semNext] at hs
    split at hs
    · rename_i t stage ho
      cases hs
      exact h.otherStep ho
    · cases hs
  | elsewhere t k =>
    obtain ⟨hnone, rfl⟩ := of_guard hs
    refine h.setSch fun w hw ht => ?_
    exact absurd ht (not_waiting (Option.isNone_iff_eq_none.mp hnone) hw)
  | signalled t =>
    obtain ⟨-, rfl⟩ := of_guard hs
    exact h.setSch fun _ _ _ _ => .inl rfl
  | switchOut t =>
    obtain ⟨-, rfl⟩ := of_guard hs
    refine h.setSch fun _ _ _ _ => ?_
    unfold switchOut
    split_ifs with hr
    · exact .inl hr
    · exact .inr ⟨rfl, rfl⟩
  | pick t =>
    obtain ⟨⟨-, hr, -⟩, rfl⟩ := of_guard hs
    exact h.setSch fun _ _ _ _ => .inl hr
  | drop t =>
    obtain ⟨-, rfl⟩ := of_guard hs
    exact h.setSch fun _ _ _ _ => .inr ⟨rfl, rfl⟩

end

def downOne : List SemBuf := [⟨0, -1, true, false⟩]

def calmEnv : SemEnv := ⟨true, true, false, false⟩

/-- A task waits to count down and is switched away from, and the value is set to 1. -/
def semDown : List SemAction := [.call 1 1 1 downOne calmEnv, .switchOut 1, .setval 0 1 2 true]

/-- A sender of a signal is slow to wake task 1 and has set only `runnable` when a `SETVAL`
wakes it. It is interrupted, calls again and waits; then its state is overwritten, and the
next `SETVAL`, with which it could go on, does not wake it. -/
def missedSetval : List SemAction :=
  [.call 1 1 1 downOne calmEnv, .switchOut 1, .otherCall 0 1, .otherStep 0, .otherStep 0,
    .setval 0 0 2 true, .wake, .wake, .wake, .wake, .pick 1, .dequeue 1,
    .resume 1 1 1 ⟨true, true, false, true⟩, .call 1 1 1 downOne calmEnv, .switchOut 1,
    .otherStep 0, .otherStep 0, .drop 1, .setval 0 1 2 true, .wake]

end Cervus.Ipc
