import Cervus.Lib.Run
import Mathlib.Algebra.BigOperators.Group.Finset.Piecewise

/-! The reader-writer lock of `pthread.c`: a futex mutex for whoever wants to enter, and a count
of readers that a writer waits on while it has the mutex. A step of a thread is one atomic access
or one futex call; what the thread does with the value it got belongs to the same step. -/

namespace Cervus.RwLock

inductive Word
  | free | locked | contended
  deriving DecidableEq

inductive Want
  | rd | wr | timedRd | timedWr
  deriving DecidableEq

def Want.timed : Want → Bool
  | .rd | .wr => false
  | .timedRd | .timedWr => true

inductive Pc
  | idle
  | cas (w : Want)
  | xchg (w : Want)
  | wait (w : Want)
  | asleep (w : Want)
  | tryCas (write : Bool)
  | add
  | load
  | reload
  | loadTimed
  | waitReaders (timed : Bool) (n : Int)
  | asleepReaders (timed : Bool)
  | tryLoad
  | loadUnlock
  | sub
  | release (write : Bool)
  | wakeMutex
  | wakeReaders
  deriving DecidableEq

def Want.owned : Want → Pc
  | .rd | .timedRd => .add
  | .wr => .load
  | .timedWr => .loadTimed

structure Thread where
  pc : Pc
  rd : Nat
  wr : Bool
  deriving DecidableEq

def Thread.goto (th : Thread) (pc : Pc) : Thread := { th with pc }

structure Mem where
  state : Word
  readers : Int
  deriving DecidableEq

def wrap (x : Int) : Int := Int.bmod x (2 ^ 32)

def readersHead (timed : Bool) : Pc := if timed then .loadTimed else .load

/-- The next access of a thread, apart from waking another. `flag` says that the time of a timed
call is up or not valid, or that a futex wait returns at once with an error. -/
def advance (m : Mem) (th : Thread) (flag : Bool) : Option (Mem × Thread) :=
  match th.pc with
  | .cas w =>
    if m.state = .free then some ({ m with state := .locked }, th.goto w.owned)
    else some (m, th.goto (if w.timed && flag then .idle else .xchg w))
  | .xchg w =>
    some ({ m with state := .contended },
      th.goto (if m.state = .free then w.owned else if w.timed && flag then .idle else .wait w))
  | .wait w =>
    some (m, th.goto (if m.state = .contended ∧ flag = false then .asleep w else .xchg w))
  | .tryCas write =>
    if m.state = .free then some ({ m with state := .locked },
      th.goto (if write then .tryLoad else .add))
    else some (m, th.goto .idle)
  | .add => some ({ m with readers := wrap (m.readers + 1) },
    { th with pc := .release false, rd := th.rd + 1 })
  | .load => if 0 < m.readers then some (m, th.goto .reload)
    else some (m, { th with pc := .idle, wr := true })
  | .reload => some (m, th.goto (.waitReaders false m.readers))
  | .loadTimed =>
    if m.readers ≤ 0 then some (m, { th with pc := .idle, wr := true })
    else some (m, th.goto (if flag then .release false else .waitReaders true m.readers))
  | .waitReaders timed n =>
    some (m, th.goto (if m.readers = n ∧ flag = false then .asleepReaders timed
      else readersHead timed))
  | .tryLoad =>
    if 0 < m.readers then some (m, th.goto (.release false))
      else some (m, { th with pc := .idle, wr := true })
  | .loadUnlock => some (m, th.goto (if 0 < m.readers then .sub else .release true))
  | .sub =>
    let r := wrap (m.readers - 1)
    some ({ m with readers := r },
      { th with pc := if r = 0 then .wakeReaders else .idle, rd := th.rd - 1 })
  | .release write =>
    some ({ m with state := .free },
      { th with pc := if m.state = .contended then .wakeMutex else .idle, wr := th.wr && !write })
  | .idle | .asleep _ | .asleepReaders _ | .wakeMutex | .wakeReaders => none

def Pc.resume : Pc → Option Pc
  | .asleep w => some (.xchg w)
  | .asleepReaders timed => some (readersHead timed)
  | _ => none

def Pc.wakes : Pc → Pc → Bool
  | .wakeMutex, .asleep _ => true
  | .wakeReaders, .asleepReaders _ => true
  | _, _ => false

inductive Call
  | rdlock | wrlock | tryrdlock | trywrlock | timedrdlock | timedwrlock | unlock
  deriving DecidableEq

def Call.start : Call → Pc
  | .rdlock => .cas .rd
  | .wrlock => .cas .wr
  | .tryrdlock => .tryCas false
  | .trywrlock => .tryCas true
  | .timedrdlock => .cas .timedRd
  | .timedwrlock => .cas .timedWr
  | .unlock => .loadUnlock

variable {T : Type} [DecidableEq T] [Fintype T]

inductive Move (T : Type)
  | call (c : Call)
  | go (flag : Bool)
  | wake (u : Option T)
  | leave

structure State (T : Type) where
  mem : Mem
  thr : T → Thread

def State.set (s : State T) (t : T) (th : Thread) : State T :=
  { s with thr := Function.update s.thr t th }

def Thread.Holds (th : Thread) : Prop := 0 < th.rd ∨ th.wr = true

instance (th : Thread) : Decidable th.Holds := inferInstanceAs (Decidable (_ ∨ _))

/-- A step of thread `t`. A thread unlocks only what it holds; a wake finds one sleeper if there
is one; a sleeper can also leave by itself, for a signal or because its time is up. -/
def next (s : State T) (a : T × Move T) : Option (State T) :=
  let t := a.1
  let th := s.thr t
  match a.2 with
  | .call c => if th.pc = .idle ∧ (c = .unlock → th.Holds) then some (s.set t (th.goto c.start))
    else none
  | .go flag => (advance s.mem th flag).map fun r => { (s.set t r.2) with mem := r.1 }
  | .wake (some u) =>
    if th.pc.wakes (s.thr u).pc then
      (s.thr u).pc.resume.map fun pc => (s.set t (th.goto .idle)).set u ((s.thr u).goto pc)
    else none
  | .wake none =>
    if (th.pc = .wakeMutex ∨ th.pc = .wakeReaders) ∧ ∀ u, th.pc.wakes (s.thr u).pc = false then
      some (s.set t (th.goto .idle))
    else none
  | .leave => th.pc.resume.map fun pc => s.set t (th.goto pc)

def lock (T : Type) [DecidableEq T] [Fintype T] : System (State T) (T × Move T) where
  init := { mem := ⟨.free, 0⟩, thr := fun _ => ⟨.idle, 0, false⟩ }
  next := next

/-- A thread that has the lock for writing is the only holder. -/
def Exclusive (s : State T) : Prop :=
  ∀ t, (s.thr t).wr = true → (s.thr t).rd = 0 ∧ ∀ u, u ≠ t → ¬ (s.thr u).Holds

/-- A thread sleeps although nobody has the lock and no other thread is in a call. -/
def Stuck (s : State T) : Prop :=
  ∃ t, (s.thr t).pc.resume.isSome ∧ (∀ u, ¬ (s.thr u).Holds) ∧ ∀ u, u ≠ t → (s.thr u).pc = .idle

end Cervus.RwLock
