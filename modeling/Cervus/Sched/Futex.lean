import Mathlib.Data.List.Nodup
import Mathlib.Data.Nat.Basic
import Cervus.Errno
import Cervus.Lib.Run

/-! Futexes: a table of waiters that waits, wakes and requeues change in critical
sections of their own. -/

namespace Cervus.Sched

open Function (update update_of_ne update_self)
open Errno List Option

@[irreducible] def futexWaitersMax : Nat := 1024

theorem futexWaitersMax_eq : futexWaitersMax = 1024 := by unfold futexWaitersMax; rfl

structure FutexKey where
  space : Nat
  addr : Nat
  deriving DecidableEq

/-- `id` numbers the waits; the code does not keep it. -/
structure FutexWaiter where
  used : Bool
  key : FutexKey
  task : Option Nat
  woken : Bool
  bitset : BitVec 32
  id : Nat

structure FutexCall where
  slot : Nat
  deadline : Nat

structure FutexState where
  waiters : Nat → FutexWaiter
  calls : Nat → Option FutexCall
  exited : Nat → Bool
  stamp : Nat
  woken : List (Nat × Nat)
  returned : List (Nat × Nat)
  counted : Nat
  moved : Nat

def futexSlots : List Nat := range futexWaitersMax

theorem mem_futexSlots {i : Nat} : i ∈ futexSlots ↔ i < futexWaitersMax := mem_range

theorem futexSlots_nodup : futexSlots.Nodup := nodup_range

/-- The critical section in which a wait checks the word and takes a slot. The
result is what the wait returns, `none` if it blocks. -/
def futexWait (s : FutexState) (task : Nat) (key : FutexKey) (expected seen : BitVec 32)
    (deadline : Nat) (bitset : BitVec 32) : Option Int × FutexState :=
  if seen ≠ expected then (some (-eagain), s)
  else
    match futexSlots.find? fun i => !(s.waiters i).used with
    | none => (some (-enomem), s)
    | some slot =>
      (none, { s with
        waiters := update s.waiters slot ⟨true, key, some task, false, bitset, s.stamp⟩
        calls := update s.calls task (some ⟨slot, deadline⟩)
        stamp := s.stamp + 1 })

def FutexWaiter.release (w : FutexWaiter) : FutexWaiter := { w with used := false, task := none }

def futexResume (s : FutexState) (task : Nat) (c : FutexCall) (pendingKill signal : Bool) :
    Int × FutexState :=
  let w := s.waiters c.slot
  (if w.woken then 0 else if pendingKill || signal then -eintr else if c.deadline ≠ 0
    then -etimedout else 0,
    { s with
      waiters := update s.waiters c.slot w.release
      calls := update s.calls task none
      returned := if w.woken then s.returned ++ [(w.id, task)] else s.returned })

def FutexWaiter.eligible (key : FutexKey) (bitset : BitVec 32) (w : FutexWaiter) : Bool :=
  w.used && w.key == key && !w.woken && (w.bitset &&& bitset) != 0

def wakeSlot (s : FutexState) (i : Nat) : FutexState :=
  { s with
    waiters := update s.waiters i { s.waiters i with woken := true }
    woken := s.woken ++ [((s.waiters i).id, (s.waiters i).task.getD 0)] }

def futexWakeLoop (key : FutexKey) (count : Nat) (bitset : BitVec 32) :
    List Nat → Nat → FutexState → Nat × FutexState
  | [], woken, s => (woken, s)
  | i :: is, woken, s =>
    if woken < count then
      if (s.waiters i).eligible key bitset then futexWakeLoop key count bitset is (woken + 1)
        (wakeSlot s i)
      else futexWakeLoop key count bitset is woken s
    else (woken, s)

def futexWakeLocked (s : FutexState) (key : FutexKey) (count : Nat) (bitset : BitVec 32) :
    Nat × FutexState :=
  futexWakeLoop key count bitset futexSlots 0 s

def allBits : BitVec 32 := BitVec.allOnes 32

def requeueLoop (k1 k2 : FutexKey) (nreq : Nat) : List Nat → Nat → FutexState → Nat × FutexState
  | [], moved, s => (moved, s)
  | i :: is, moved, s =>
    if moved < nreq then
      let w := s.waiters i
      if w.used && !w.woken && w.key == k1 then
        requeueLoop k1 k2 nreq is (moved + 1)
          { s with waiters := update s.waiters i { w with key := k2 } }
      else requeueLoop k1 k2 nreq is moved s
    else (moved, s)

/-- `futex_requeue` once the word has been compared. -/
def futexRequeue (s : FutexState) (k1 k2 : FutexKey) (nwake nreq : Nat) (cmp : Bool) :
    Nat × FutexState :=
  let r := futexWakeLocked s k1 nwake allBits
  let m := requeueLoop k1 k2 nreq futexSlots 0 r.2
  (r.1 + if cmp then m.1 else 0,
    { m.2 with moved := s.moved + if cmp then m.1 else 0 })

/-- `futex_wake_op` once the second word has been changed; `cond` is its comparison. -/
def futexWakeOp (s : FutexState) (k1 k2 : FutexKey) (n1 n2 : Nat) (cond : Bool) :
    Nat × FutexState :=
  let r := futexWakeLocked s k1 n1 allBits
  if cond then
    let r2 := futexWakeLocked r.2 k2 n2 allBits
    (r.1 + r2.1, r2.2)
  else r

def futexTaskExit (s : FutexState) (who : Nat) : FutexState :=
  { s with
    waiters := fun i =>
      let w := s.waiters i
      if i < futexWaitersMax && w.used && w.task == some who then w.release else w
    calls := update s.calls who none
    exited := update s.exited who true }

inductive FutexAction
  | wait (task : Nat) (key : FutexKey) (expected seen : BitVec 32) (deadline : Nat)
    (bitset : BitVec 32)
  | resume (task : Nat) (pendingKill signal : Bool)
  | wake (key : FutexKey) (count : Nat) (bitset : BitVec 32)
  | requeue (k1 k2 : FutexKey) (nwake nreq : Nat) (cmp : Bool)
  | wakeOp (k1 k2 : FutexKey) (n1 n2 : Nat) (cond : Bool)
  | exit (task : Nat)

def countReturn (r : Nat × FutexState) : FutexState := { r.2 with counted := r.2.counted + r.1 }

def futexNext (s : FutexState) : FutexAction → Option FutexState
  | .wait task key expected seen deadline bitset =>
    if s.exited task = false ∧ (s.calls task).isNone then
      some (futexWait s task key expected seen deadline bitset).2
    else none
  | .resume task pendingKill signal =>
    (s.calls task).map fun c => (futexResume s task c pendingKill signal).2
  | .wake key count bitset => some (countReturn (futexWakeLocked s key count bitset))
  | .requeue k1 k2 nwake nreq cmp => some (countReturn (futexRequeue s k1 k2 nwake nreq cmp))
  | .wakeOp k1 k2 n1 n2 cond => some (countReturn (futexWakeOp s k1 k2 n1 n2 cond))
  | .exit task => some (futexTaskExit s task)

def emptyWaiter : FutexWaiter := ⟨false, ⟨0, 0⟩, none, false, 0, 0⟩

def futexSystem : System FutexState FutexAction where
  init := ⟨fun _ => emptyWaiter, fun _ => none, fun _ => false, 0, [], [], 0, 0⟩
  next := futexNext

def pendingOf (waiters : Nat → FutexWaiter) : Option FutexCall → Nat
  | some c => (waiters c.slot).woken.toNat
  | none => 0

def FutexState.pending (s : FutexState) (task : Nat) : Nat := pendingOf s.waiters (s.calls task)

def ofTask (log : List (Nat × Nat)) (task : Nat) : Nat := log.countP fun e => e.2 == task

structure FutexInv (s : FutexState) : Prop where
  owner : ∀ t c, s.calls t = some c → c.slot < futexWaitersMax ∧ (s.waiters c.slot).used = true ∧
    (s.waiters c.slot).task = some t
  owned : ∀ i, (s.waiters i).used = true → ∃ t c, (s.waiters i).task = some t ∧ s.calls t = some c ∧
    c.slot = i
  gone : ∀ t, s.exited t = true → s.calls t = none
  ids : ∀ i, (s.waiters i).used = true → (s.waiters i).id < s.stamp
  apart : ∀ i j, (s.waiters i).used = true → (s.waiters j).used = true →
    (s.waiters i).id = (s.waiters j).id → i = j
  old : ∀ e ∈ s.woken, e.1 < s.stamp
  fresh : ∀ i, (s.waiters i).used = true → (s.waiters i).woken = false →
    ∀ e ∈ s.woken, e.1 ≠ (s.waiters i).id
  nodup : (s.woken.map (·.1)).Nodup
  count : ∀ t, s.exited t = false → ofTask s.woken t = ofTask s.returned t + s.pending t

section
variable {s : FutexState} {i j t : Nat} {key : FutexKey} {bitset : BitVec 32} {is : List Nat}
    {slot task : Nat}

theorem ofTask_append (log : List (Nat × Nat)) (id t t' : Nat) :
    ofTask (log ++ [(id, t)]) t' = ofTask log t' + if t = t' then 1 else 0 := by
  simp [ofTask, countP_append, countP_cons]

def SameWaiters (f g : Nat → FutexWaiter) : Prop :=
  ∀ i, (f i).used = (g i).used ∧ (f i).task = (g i).task ∧ (f i).woken = (g i).woken ∧
    (f i).id = (g i).id

theorem wakeSlot_self (s : FutexState) (i : Nat) :
    (wakeSlot s i).waiters i = { s.waiters i with woken := true } := update_self ..

theorem wakeSlot_ne (s : FutexState) (h : j ≠ i) : (wakeSlot s i).waiters j = s.waiters j :=
  update_of_ne h _ _

theorem wakeSlot_fields (s : FutexState) (i j : Nat) :
    ((wakeSlot s i).waiters j).used = (s.waiters j).used ∧
    ((wakeSlot s i).waiters j).task = (s.waiters j).task ∧
    ((wakeSlot s i).waiters j).id = (s.waiters j).id := by
  by_cases hj : j = i
  · rw [hj, wakeSlot_self]
    exact ⟨rfl, rfl, rfl⟩
  · rw [wakeSlot_ne s hj]
    exact ⟨rfl, rfl, rfl⟩

theorem wakeSlot_woken (s : FutexState) (i j : Nat) :
    ((wakeSlot s i).waiters j).woken = if j = i then true else (s.waiters j).woken := by
  by_cases hj : j = i
  · rw [hj, wakeSlot_self, if_pos rfl]
  · rw [wakeSlot_ne s hj, if_neg hj]

theorem FutexWaiter.eligible_iff {w : FutexWaiter} : w.eligible key bitset = true ↔
      w.used = true ∧ w.key = key ∧ w.woken = false ∧ w.bitset &&& bitset ≠ 0 := by
  simp [FutexWaiter.eligible, and_assoc]

structure Woke (key : FutexKey) (bitset : BitVec 32) (is : List Nat) (woken : Nat) (s : FutexState)
    (r : Nat × FutexState) : Prop where
  inv : FutexInv r.2
  le : woken ≤ r.1
  count : r.2.woken.length + woken = s.woken.length + r.1
  counted : r.2.counted = s.counted
  moved : r.2.moved = s.moved
  slots : ∀ i, r.2.waiters i = s.waiters i ∨ (i ∈ is ∧ (s.waiters i).eligible key bitset = true ∧
    r.2.waiters i = { s.waiters i with woken := true })

structure Moved (k1 k2 : FutexKey) (s : FutexState) (r : Nat × FutexState) : Prop where
  inv : FutexInv r.2
  woken : r.2.woken = s.woken
  counted : r.2.counted = s.counted
  slots : ∀ i, r.2.waiters i = s.waiters i ∨ ((s.waiters i).used = true ∧
    (s.waiters i).woken = false ∧
    (s.waiters i).key = k1 ∧ r.2.waiters i = { s.waiters i with key := k2 })

/-- After its wakes, requeue gives waiters of the first key that are not woken the
second key, and does nothing else. -/
def RequeueMoves (s : FutexState) : Prop :=
  ∀ k1 k2 nwake nreq cmp i,
    let w := (futexWakeLocked s k1 nwake allBits).2.waiters i
    let w' := (futexRequeue s k1 k2 nwake nreq cmp).2.waiters i
    w' = w ∨ (w.used = true ∧ w.woken = false ∧ w.key = k1 ∧ w' = { w with key := k2 })

section

variable (h : FutexInv s)
include h

theorem FutexInv.same {f : Nat → FutexWaiter} {counted moved : Nat} (hf : SameWaiters f s.waiters) :
    FutexInv { s with waiters := f, counted := counted, moved := moved } := by
  refine ⟨fun t c hc => ?_, fun i hi => ?_, h.gone, fun i hi => ?_, fun i j hi hj he => ?_, h.old,
    fun i hi hw => ?_, h.nodup, fun t ht => ?_⟩
  · obtain ⟨h1, h2, h3⟩ := h.owner t c hc
    exact ⟨h1, (hf c.slot).1.trans h2, (hf c.slot).2.1.trans h3⟩
  · obtain ⟨t, c, h1, h2, h3⟩ := h.owned i ((hf i).1.symm.trans hi)
    exact ⟨t, c, (hf i).2.1.trans h1, h2, h3⟩
  · exact (hf i).2.2.2 ▸ h.ids i ((hf i).1.symm.trans hi)
  · refine h.apart i j ((hf i).1.symm.trans hi) ((hf j).1.symm.trans hj) ?_
    exact (hf i).2.2.2.symm.trans (he.trans (hf j).2.2.2)
  · intro e he
    rw [show (f i).id = _ from (hf i).2.2.2]
    exact h.fresh i ((hf i).1.symm.trans hi) ((hf i).2.2.1.symm.trans hw) e he
  · have hp : pendingOf f (s.calls t) = s.pending t := by
      unfold FutexState.pending
      cases s.calls t with
      | none => rfl
      | some c => exact congrArg Bool.toNat (hf c.slot).2.2.1
    exact (h.count t ht).trans (congrArg (ofTask s.returned t + ·) hp.symm)

/-- Waking the waiter of a slot keeps the accounts. -/
theorem FutexInv.wakeSlot (hu : (s.waiters i).used = true) (hw : (s.waiters i).woken = false) :
    FutexInv (wakeSlot s i) := by
  obtain ⟨t, c, htask, hcall, hslot⟩ := h.owned i hu
  have hlog : (Sched.wakeSlot s i).woken = s.woken ++ [((s.waiters i).id, t)] := by
    rw [Sched.wakeSlot, htask]
    rfl
  refine ⟨fun t' c' hc => ?_, fun j hj => ?_, h.gone, fun j hj => ?_, fun j k hj hk he =>
    ?_, ?_, ?_, ?_, ?_⟩
  · obtain ⟨h1, h2, h3⟩ := h.owner t' c' hc
    obtain ⟨f1, f2, -⟩ := wakeSlot_fields s i c'.slot
    exact ⟨h1, f1.trans h2, f2.trans h3⟩
  · obtain ⟨f1, f2, -⟩ := wakeSlot_fields s i j
    obtain ⟨t', c', h1, h2, h3⟩ := h.owned j (f1.symm.trans hj)
    exact ⟨t', c', f2.trans h1, h2, h3⟩
  · obtain ⟨f1, -, f3⟩ := wakeSlot_fields s i j
    rw [f3]
    exact h.ids j (f1.symm.trans hj)
  · obtain ⟨f1, -, f3⟩ := wakeSlot_fields s i j
    obtain ⟨g1, -, g3⟩ := wakeSlot_fields s i k
    exact h.apart j k (f1.symm.trans hj) (g1.symm.trans hk) (f3.symm.trans (he.trans g3))
  · rw [hlog]
    intro e he
    rcases mem_append.mp he with he | he
    · exact h.old e he
    · rw [mem_singleton.mp he]
      exact h.ids i hu
  · rw [hlog]
    intro j hj hjw e he
    obtain ⟨f1, -, f3⟩ := wakeSlot_fields s i j
    rw [wakeSlot_woken] at hjw
    split_ifs at hjw with hji
    rw [f3]
    rcases mem_append.mp he with he | he
    · exact h.fresh j (f1.symm.trans hj) hjw e he
    · rw [mem_singleton.mp he]
      exact fun heq => hji (h.apart i j hu (f1.symm.trans hj) heq).symm
  · rw [hlog, map_append, nodup_append]
    refine ⟨h.nodup, nodup_singleton _, fun x hx y hy hxy => ?_⟩
    obtain ⟨e, he, rfl⟩ := mem_map.mp hx
    exact h.fresh i hu hw e he (hxy.trans (mem_singleton.mp hy))
  · intro t' ht'
    have hcount := h.count t' ht'
    have hpend : (Sched.wakeSlot s i).pending t' = s.pending t' + if t = t' then 1 else 0 := by
      have hcalls : (Sched.wakeSlot s i).calls = s.calls := rfl
      unfold FutexState.pending
      rw [hcalls]
      by_cases htt : t = t'
      · rw [← htt, hcall, pendingOf, pendingOf, hslot, wakeSlot_woken, hw, if_pos rfl, if_pos rfl]
        rfl
      rw [if_neg htt]
      cases hc' : s.calls t' with
      | none => rfl
      | some c' =>
        have hne : c'.slot ≠ i := by
          intro he
          have htask' := (h.owner t' c' hc').2.2
          rw [he, htask] at htask'
          exact htt (some.inj htask')
        rw [pendingOf, pendingOf, wakeSlot_woken, if_neg hne, Nat.add_zero]
    rw [hlog, ofTask_append, hpend, hcount, Nat.add_assoc]
    rfl

theorem futexWakeLoop_woke (key : FutexKey) (bitset : BitVec 32) (count : Nat) (hn : is.Nodup)
    (woken : Nat) : Woke key bitset is woken s (futexWakeLoop key count bitset is woken s) := by
  have hstop : ∀ {is : List Nat} {s : FutexState} (woken : Nat), FutexInv s →
      Woke key bitset is woken s (woken, s) :=
    fun _ h => ⟨h, le_refl _, rfl, rfl, rfl, fun _ => .inl rfl⟩
  induction is generalizing s woken with
  | nil => exact hstop woken h
  | cons j is ih =>
    obtain ⟨hj, hn⟩ := nodup_cons.mp hn
    unfold futexWakeLoop
    split_ifs with hlt he
    · obtain ⟨hu, -, hw, -⟩ := FutexWaiter.eligible_iff.mp he
      have hr := ih (h.wakeSlot hu hw) hn (woken + 1)
      have hlen : (wakeSlot s j).woken.length = s.woken.length + 1 := by simp [wakeSlot]
      refine ⟨hr.inv,
        by have := hr.le; omega, by have := hr.count; omega, hr.counted, hr.moved, fun i => ?_⟩
      rcases hr.slots i with hs | ⟨hi, hs, ht⟩
      · by_cases hij : i = j
        · subst hij
          exact .inr ⟨mem_cons_self, he, by rw [hs, wakeSlot_self]⟩
        · exact .inl (by rw [hs, wakeSlot_ne s hij])
      · have hij : i ≠ j := fun e => hj (e ▸ hi)
        rw [wakeSlot_ne s hij] at hs ht
        exact .inr ⟨mem_cons_of_mem _ hi, hs, ht⟩
    · have hr := ih h hn woken
      exact ⟨hr.inv, hr.le, hr.count, hr.counted, hr.moved,
        fun i => (hr.slots i).imp_right fun hs => ⟨mem_cons_of_mem _ hs.1, hs.2⟩⟩
    · exact hstop woken h

theorem futexWakeLocked_woke (key : FutexKey) (count : Nat) (bitset : BitVec 32) :
    Woke key bitset futexSlots 0 s (futexWakeLocked s key count bitset) :=
  futexWakeLoop_woke h _ _ _ futexSlots_nodup 0

/-- A requeue moves waiters of one key to the other, and no others. -/
theorem requeueLoop_moved (k1 k2 : FutexKey) (nreq : Nat) (hn : is.Nodup)
    (moved : Nat) : Moved k1 k2 s (requeueLoop k1 k2 nreq is moved s) ∧
      ∀ i ∉ is, (requeueLoop k1 k2 nreq is moved s).2.waiters i = s.waiters i := by
  have hstop : ∀ {s : FutexState} (moved : Nat), FutexInv s → Moved k1 k2 s (moved, s) :=
    fun _ h => ⟨h, rfl, rfl, fun _ => .inl rfl⟩
  induction is generalizing s moved with
  | nil => exact ⟨hstop moved h, fun _ _ => rfl⟩
  | cons j is ih =>
    obtain ⟨hj, hn⟩ := nodup_cons.mp hn
    unfold requeueLoop
    split_ifs with hlt
    swap
    · exact ⟨hstop moved h, fun _ _ => rfl⟩
    dsimp only
    split_ifs with he
    · simp only [Bool.and_eq_true, Bool.not_eq_true', beq_iff_eq] at he
      obtain ⟨⟨hu, hw⟩, hk⟩ := he
      have hsame : SameWaiters (update s.waiters j { s.waiters j with key := k2 }) s.waiters := by
        intro i
        by_cases hij : i = j
        · rw [hij, update_self]
          exact ⟨rfl, rfl, rfl, rfl⟩
        · rw [update_of_ne hij]
          exact ⟨rfl, rfl, rfl, rfl⟩
      have hnext :
        FutexInv { s with waiters := update s.waiters j { s.waiters j with key := k2 } } :=
        h.same hsame
      obtain ⟨hr, hframe⟩ := ih hnext hn (moved + 1)
      refine ⟨⟨hr.inv, hr.woken, hr.counted, fun i => ?_⟩, fun i hi => ?_⟩
      · by_cases hij : i = j
        · subst hij
          rw [hframe i hj]
          exact .inr ⟨hu, hw, hk, update_self ..⟩
        · have hs := hr.slots i
          simp only [update_of_ne hij] at hs
          exact hs
      · rw [mem_cons, not_or] at hi
        rw [hframe i hi.2]
        exact update_of_ne hi.1 _ _
    · obtain ⟨hr, hframe⟩ := ih h hn moved
      exact ⟨hr, fun i hi => hframe i fun hm => hi (mem_cons_of_mem _ hm)⟩

/-- A wait takes a free slot. -/
theorem FutexInv.wait {deadline : Nat} (hlive : s.exited task = false) (hcall : s.calls task = none)
    (hslot : slot < futexWaitersMax) (hfree : (s.waiters slot).used = false) : FutexInv { s with
      waiters := update s.waiters slot ⟨true, key, some task, false, bitset, s.stamp⟩
      calls := update s.calls task (some ⟨slot, deadline⟩)
      stamp := s.stamp + 1 } := by
  have hne : ∀ {i}, (s.waiters i).used = true → i ≠ slot := by
    rintro i hi rfl
    rw [hfree] at hi
    cases hi
  refine ⟨fun t c hc => ?_, fun i hi => ?_, fun t ht => ?_, fun i hi => ?_, fun i j hi hj he =>
    ?_, ?_,
    fun i hi hw e he => ?_, h.nodup, fun t ht => ?_⟩
  · by_cases htt : t = task
    · simp only [htt, update_self, some.injEq] at hc
      subst hc
      refine ⟨hslot, ?_, ?_⟩ <;> simp only [update_self, htt]
    · simp only [update_of_ne htt] at hc
      obtain ⟨h1, h2, h3⟩ := h.owner t c hc
      simp only [update_of_ne (hne h2)]
      exact ⟨h1, h2, h3⟩
  · by_cases his : i = slot
    · subst his
      refine ⟨task, ⟨i, deadline⟩, ?_, update_self .., rfl⟩
      simp only [update_self]
    · simp only [update_of_ne his] at hi ⊢
      obtain ⟨t, c, h1, h2, h3⟩ := h.owned i hi
      have htt : t ≠ task := by
        rintro rfl
        rw [hcall] at h2
        cases h2
      exact ⟨t, c, h1, by rw [update_of_ne htt]; exact h2, h3⟩
  · have htt : t ≠ task := by
      rintro rfl
      have : s.exited t = true := ht
      rw [hlive] at this
      cases this
    show update s.calls task _ t = none
    rw [update_of_ne htt]
    exact h.gone t ht
  · by_cases his : i = slot
    · simp only [his, update_self]
      exact Nat.lt_succ_self _
    · simp only [update_of_ne his] at hi ⊢
      exact Nat.lt_succ_of_lt (h.ids i hi)
  · by_cases his : i = slot <;> by_cases hjs : j = slot
    · rw [his, hjs]
    · simp only [his, update_self, update_of_ne hjs] at he hj
      exact absurd he (ne_of_gt (h.ids j hj))
    · simp only [hjs, update_self, update_of_ne his] at he hi
      exact absurd he (ne_of_lt (h.ids i hi))
    · simp only [update_of_ne his, update_of_ne hjs] at he hi hj
      exact h.apart i j hi hj he
  · exact fun e he => Nat.lt_succ_of_lt (h.old e he)
  · by_cases his : i = slot
    · simp only [his, update_self]
      exact ne_of_lt (h.old e he)
    · simp only [update_of_ne his] at hi hw ⊢
      exact h.fresh i hi hw e he
  · refine (h.count t ht).trans (congrArg (ofTask s.returned t + ·) ?_)
    show pendingOf s.waiters (s.calls t) = pendingOf (update s.waiters slot _)
      (update s.calls task _ t)
    by_cases htt : t = task
    · rw [htt, hcall, update_self, pendingOf, pendingOf, update_self]
      rfl
    · rw [update_of_ne htt]
      cases hc : s.calls t with
      | none => rfl
      | some c => rw [pendingOf, pendingOf, update_of_ne (hne (h.owner t c hc).2.1)]

/-- A call of `who` ends and the slots of `who` are given back. -/
theorem FutexInv.leave {who : Nat} {f : Nat → FutexWaiter} {gone : Nat → Bool}
    {returned : List (Nat × Nat)}
    (hkeep : ∀ i, (f i).used = true → f i = s.waiters i ∧ (s.waiters i).task ≠ some who)
    (hother : ∀ t c, t ≠ who → s.calls t = some c → f c.slot = s.waiters c.slot)
    (hgone : ∀ t ≠ who, gone t = s.exited t ∧ ofTask returned t = ofTask s.returned t)
    (hwho : gone who = false → ofTask s.woken who = ofTask returned who) :
    FutexInv { s with
      waiters := f, calls := update s.calls who none, exited := gone, returned := returned } := by
  refine ⟨fun t c hc => ?_, fun i hi => ?_, fun t ht => ?_, fun i hi => ?_, fun i j hi hj he =>
    ?_, h.old,
    fun i hi hw => ?_, h.nodup, fun t ht => ?_⟩
  · by_cases htw : t = who
    · simp only [htw, update_self, reduceCtorEq] at hc
    · simp only [update_of_ne htw] at hc
      simp only [hother t c htw hc]
      exact h.owner t c hc
  · obtain ⟨hk, hne⟩ := hkeep i hi
    simp only [hk] at hi ⊢
    obtain ⟨t, c, h1, h2, h3⟩ := h.owned i hi
    have htw : t ≠ who := fun e => hne (e ▸ h1)
    exact ⟨t, c, h1, by rw [update_of_ne htw]; exact h2, h3⟩
  · show update s.calls who none t = none
    by_cases htw : t = who
    · rw [htw, update_self]
    · rw [update_of_ne htw]
      exact h.gone t ((hgone t htw).1.symm.trans ht)
  · have hk := (hkeep i hi).1
    simp only [hk] at hi ⊢
    exact h.ids i hi
  · have hki := (hkeep i hi).1
    have hkj := (hkeep j hj).1
    simp only [hki, hkj] at hi hj he
    exact h.apart i j hi hj he
  · have hk := (hkeep i hi).1
    simp only [hk] at hi hw ⊢
    exact h.fresh i hi hw
  · show ofTask s.woken t = ofTask returned t + pendingOf f (update s.calls who none t)
    by_cases htw : t = who
    · rw [htw, update_self, pendingOf, Nat.add_zero]
      exact hwho (htw ▸ ht)
    · rw [h.count t ((hgone t htw).1.symm.trans ht), (hgone t htw).2, update_of_ne htw,
        FutexState.pending]
      cases hc : s.calls t with
      | none => rfl
      | some c => rw [pendingOf, pendingOf, hother t c htw hc]

theorem FutexInv.resume {c : FutexCall} (hc : s.calls task = some c)
    (pendingKill signal : Bool) : FutexInv (futexResume s task c pendingKill signal).2 := by
  have htask := (h.owner task c hc).2.2
  refine h.leave (fun i hi => ?_) (fun t c' ht hc' => ?_) (fun t ht => ⟨rfl, ?_⟩) fun hlive => ?_
  · have his : i ≠ c.slot := by
      rintro rfl
      rw [update_self] at hi
      cases hi
    rw [update_of_ne his] at hi ⊢
    refine ⟨rfl, fun he => ?_⟩
    obtain ⟨t, c', h1, h2, h3⟩ := h.owned i hi
    rw [some.inj (h1.symm.trans he), hc] at h2
    exact his (h3 ▸ some.inj h2 ▸ rfl)
  · refine update_of_ne (fun he => ht ?_) _ _
    exact some.inj ((h.owner t c' hc').2.2.symm.trans (he ▸ htask))
  · split_ifs
    · rw [ofTask_append, if_neg (Ne.symm ht), Nat.add_zero]
    · rfl
  · have hcount := h.count task hlive
    rw [FutexState.pending, hc, pendingOf] at hcount
    rw [hcount]
    cases (s.waiters c.slot).woken with
    | false => rfl
    | true => simp [ofTask_append]

theorem FutexInv.taskExit (who : Nat) : FutexInv (futexTaskExit s who) := by
  refine h.leave (fun i hi => ?_) (fun t c ht hc => ?_)
    (fun t ht => ⟨update_of_ne ht .., rfl⟩) fun hlive => ?_
  · dsimp only at hi ⊢
    split_ifs at hi ⊢ with hif
    · cases hi
    · refine ⟨rfl, fun he => hif ?_⟩
      obtain ⟨t, c, -, h2, h3⟩ := h.owned i hi
      have hlt := (h.owner t c h2).1
      rw [h3] at hlt
      simp [hlt, hi, he]
  · simp [(h.owner t c hc).2.2, ht]
  · rw [update_self] at hlive
    cases hlive

theorem futexWakeLoop_all {count : Nat} (hn : is.Nodup) (woken : Nat)
    (hc : woken + is.countP (fun i => (s.waiters i).eligible key bitset) ≤ count) (hi : i ∈ is)
    (he : (s.waiters i).eligible key bitset = true) :
    (futexWakeLoop key count bitset is woken s).2.waiters i =
    { s.waiters i with woken := true } := by
  induction is generalizing s woken with
  | nil => exact absurd hi not_mem_nil
  | cons j is ih =>
    obtain ⟨hj, hnd⟩ := nodup_cons.mp hn
    have hpos : 0 < (j :: is).countP fun i => (s.waiters i).eligible key bitset :=
      countP_pos_iff.mpr ⟨i, hi, he⟩
    unfold futexWakeLoop
    rw [if_pos (by omega)]
    rw [countP_cons] at hc
    split_ifs with hje
    · obtain ⟨hu, -, hw, -⟩ := FutexWaiter.eligible_iff.mp hje
      rw [if_pos hje] at hc
      by_cases hij : i = j
      · subst hij
        rcases (futexWakeLoop_woke (h.wakeSlot hu hw) key bitset count hnd
          (woken + 1)).slots i with hs | ⟨hm, -⟩
        · rw [hs, wakeSlot_self]
        · exact absurd hm hj
      · have hsame : is.countP (fun k => ((wakeSlot s j).waiters k).eligible key bitset) =
            is.countP fun k => (s.waiters k).eligible key bitset := by
          refine countP_congr fun k hk => ?_
          have hkj : k ≠ j := fun e => hj (e ▸ hk)
          rw [wakeSlot_ne s hkj]
        have hr := ih (h.wakeSlot hu hw) hnd (woken + 1) (by rw [hsame]; omega)
          ((mem_cons.mp hi).resolve_left hij) (by rw [wakeSlot_ne s hij]; exact he)
        rw [hr, wakeSlot_ne s hij]
    · rw [if_neg hje] at hc
      refine ih h hnd woken hc ((mem_cons.mp hi).resolve_left ?_) he
      rintro rfl
      exact hje he

theorem FutexInv.requeueMoves : RequeueMoves s := by
  intro k1 k2 nwake nreq cmp i
  have hw := futexWakeLocked_woke h k1 nwake allBits
  have hm := (requeueLoop_moved hw.inv k1 k2 nreq futexSlots_nodup 0).1.slots i
  exact hm

end

structure FutexOk (s : FutexState) : Prop where
  inv : FutexInv s
  total : s.counted = s.woken.length + s.moved

theorem FutexOk.count {r : Nat × FutexState} (h : FutexOk s)
    (hr : Woke key bitset futexSlots 0 s r) : FutexOk (countReturn r) := by
  have hinv : FutexInv { r.2 with counted := r.2.counted + r.1 } :=
    hr.inv.same fun i => ⟨rfl, rfl, rfl, rfl⟩
  refine ⟨hinv, ?_⟩
  have h1 := hr.count
  have h2 := h.total
  have h3 := hr.counted
  have h4 := hr.moved
  show r.2.counted + r.1 = r.2.woken.length + r.2.moved
  omega

theorem FutexOk.requeue (h : FutexOk s) (k1 k2 : FutexKey) (nwake nreq : Nat) (cmp : Bool) :
    FutexOk (countReturn (futexRequeue s k1 k2 nwake nreq cmp)) := by
  have hw := futexWakeLocked_woke h.inv k1 nwake allBits
  obtain ⟨hm, -⟩ := requeueLoop_moved hw.inv k1 k2 nreq futexSlots_nodup 0
  unfold futexRequeue countReturn
  refine ⟨hm.inv.same fun i => ⟨rfl, rfl, rfl, rfl⟩, ?_⟩
  have h1 := hw.count
  have h2 := h.total
  have h3 := hw.counted
  have h5 := hm.counted
  have h6 := congrArg length hm.woken
  dsimp only
  omega

theorem FutexOk.wakeOp (h : FutexOk s) (k1 k2 : FutexKey) (n1 n2 : Nat) (cond : Bool) :
    FutexOk (countReturn (futexWakeOp s k1 k2 n1 n2 cond)) := by
  have hw := futexWakeLocked_woke h.inv k1 n1 allBits
  unfold futexWakeOp
  generalize futexWakeLocked s k1 n1 allBits = r at hw
  cases cond with
  | false => exact h.count hw
  | true =>
    have hw2 := futexWakeLocked_woke hw.inv k2 n2 allBits
    dsimp only
    generalize futexWakeLocked r.2 k2 n2 allBits = r2 at hw2
    refine ⟨hw2.inv.same fun i => ⟨rfl, rfl, rfl, rfl⟩, ?_⟩
    have h1 := hw.count
    have h2 := h.total
    have h3 := hw.counted
    have h4 := hw.moved
    have h5 := hw2.count
    have h6 := hw2.counted
    have h7 := hw2.moved
    simp only [countReturn, if_true]
    omega

theorem find_free (h : (futexSlots.find? fun i => !(s.waiters i).used) = some slot) :
    slot < futexWaitersMax ∧ (s.waiters slot).used = false :=
  ⟨mem_futexSlots.mp (mem_of_find?_eq_some h), by simpa using List.find?_some h⟩

/-- Every step keeps the accounts of the slots. -/
theorem FutexOk.next {u : FutexState} {a : FutexAction} (h : FutexOk s)
    (hn : futexNext s a = some u) :
    FutexOk u := by
  cases a with
  | wait task key expected seen deadline bitset =>
    simp only [futexNext] at hn
    split_ifs at hn with hg
    cases hn
    have hcall : s.calls task = none := Option.isNone_iff_eq_none.mp hg.2
    unfold futexWait
    split_ifs
    · exact h
    · split
      · exact h
      next slot hfind =>
        obtain ⟨hlt, hfree⟩ := find_free hfind
        exact ⟨h.inv.wait hg.1 hcall hlt hfree, h.total⟩
  | resume task pendingKill signal =>
    obtain ⟨c, hc, rfl⟩ := Option.map_eq_some_iff.mp hn
    exact ⟨h.inv.resume hc pendingKill signal, h.total⟩
  | wake key count bitset =>
    cases hn
    exact h.count (futexWakeLocked_woke h.inv key count bitset)
  | requeue k1 k2 nwake nreq cmp =>
    cases hn
    exact h.requeue k1 k2 nwake nreq cmp
  | wakeOp k1 k2 n1 n2 cond =>
    cases hn
    exact h.wakeOp k1 k2 n1 n2 cond
  | exit task =>
    cases hn
    exact ⟨h.inv.taskExit task, h.total⟩

theorem FutexOk.init : FutexOk futexSystem.init :=
  ⟨⟨nofun, nofun, nofun, nofun, nofun, nofun, nofun, nodup_nil, fun _ _ => rfl⟩, rfl⟩

/-- A wait that finds the expected value takes a slot in the same critical section,
unless there is none. -/
def WaitEnqueues (s : FutexState) : Prop :=
  ∀ task key expected deadline bitset,
    ((∀ i < futexWaitersMax, (s.waiters i).used = true) ∧
      futexWait s task key expected expected deadline bitset = (some (-enomem), s)) ∨
    ∃ slot < futexWaitersMax, (s.waiters slot).used = false ∧
      futexWait s task key expected expected deadline bitset = (none, { s with
        waiters := update s.waiters slot ⟨true, key, some task, false, bitset, s.stamp⟩
        calls := update s.calls task (some ⟨slot, deadline⟩)
        stamp := s.stamp + 1 })

/-- A waiter is woken by every wake on its key that covers it. -/
def WakeCovers (s : FutexState) : Prop :=
  ∀ key count bitset i, i < futexWaitersMax → (s.waiters i).eligible key bitset = true →
    futexSlots.countP (fun j => (s.waiters j).eligible key bitset) ≤ count →
    (futexWakeLocked s key count bitset).2.waiters i = { s.waiters i with woken := true }

theorem futexWait_enqueues (s : FutexState) : WaitEnqueues s := by
  intro task key expected deadline bitset
  unfold futexWait
  rw [if_neg (not_not.mpr rfl)]
  cases hf : futexSlots.find? fun i => !(s.waiters i).used with
  | none =>
    refine .inl ⟨fun i hi => ?_, rfl⟩
    simpa using List.find?_eq_none.mp hf i (mem_futexSlots.mpr hi)
  | some slot =>
    obtain ⟨hlt, hfree⟩ := find_free hf
    exact .inr ⟨slot, hlt, hfree, rfl⟩

/-- Over every interleaving no wait is woken twice, the waits of a live task that
returned because woken or are about to are the wakes of that task, and what the
wake operations returned is the number of wakes and of waiters that a comparing
requeue moved. -/
theorem futex_accounting (h : futexSystem.Reach System.anyStep s) :
    (s.woken.map (·.1)).Nodup ∧
    (∀ t, s.exited t = false → ofTask s.woken t = ofTask s.returned t + s.pending t) ∧
    s.counted = s.woken.length + s.moved ∧ WaitEnqueues s ∧ WakeCovers s ∧ RequeueMoves s := by
  have hok : FutexOk s := h.invariant .init fun s a t _ hi _ hn => hi.next hn
  refine ⟨hok.inv.nodup, hok.inv.count, hok.total, futexWait_enqueues s, ?_, hok.inv.requeueMoves⟩
  intro key count bitset i hi he hc
  have hall : 0 + futexSlots.countP (fun j => (s.waiters j).eligible key bitset) ≤ count := by
    rw [Nat.zero_add]
    exact hc
  exact futexWakeLoop_all hok.inv futexSlots_nodup 0 hall (mem_futexSlots.mpr hi) he

end

def someKey : FutexKey := ⟨0, 4096⟩

def waitingState (n : Nat) : FutexState where
  waiters i := if i < n then ⟨true, someKey, some i, false, allBits, i⟩ else emptyWaiter
  calls t := if t < n then some ⟨t, 0⟩ else none
  exited _ := false
  stamp := n
  woken := []
  returned := []
  counted := 0
  moved := 0

theorem waitingState_reach (n : Nat) (hn : n ≤ futexWaitersMax) :
    futexSystem.Reach System.anyStep (waitingState n) := by
  induction n with
  | zero => exact .start
  | succ n ih =>
    refine (ih (by omega)).step (a := .wait n someKey 0 0 0 allBits) trivial ?_
    have hfind : (futexSlots.find? fun i => !((waitingState n).waiters i).used) = some n := by
      rw [futexSlots, List.find?_range_eq_some]
      refine ⟨by simp [waitingState, emptyWaiter], mem_range.mpr (by omega), fun j hj => ?_⟩
      simp [waitingState, hj]
    have hnext : futexSystem.next = futexNext := rfl
    rw [hnext, futexNext, if_pos ⟨rfl, by simp [waitingState]⟩, futexWait, if_neg (not_not.mpr rfl),
      hfind]
    have hw : update (waitingState n).waiters n ⟨true, someKey, some n, false, allBits, n⟩ =
        (waitingState (n + 1)).waiters := by
      funext i
      by_cases hi : i = n
      · simp [hi, waitingState]
      · rw [update_of_ne hi]
        exact if_congr (by omega) rfl rfl
    have hc : update (waitingState n).calls n (some ⟨n, 0⟩) = (waitingState (n + 1)).calls := by
      funext t
      by_cases ht : t = n
      · simp [ht, waitingState]
      · rw [update_of_ne ht]
        exact if_congr (by omega) rfl rfl
    show some (FutexState.mk _ _ _ _ _ _ _ _) = some _
    rw [show (waitingState n).stamp = n from rfl, hw, hc]
    rfl

/-- With 1024 tasks waiting the next wait finds its word as expected and is not
enqueued. -/
theorem full_table_refuses : futexSystem.Reach System.anyStep (waitingState 1024) ∧
    futexWait (waitingState 1024) 1024 someKey 0 0 0 allBits = (some (-enomem), waitingState 1024) ∧
    (waitingState 1024).calls 1024 = none := by
  refine ⟨waitingState_reach 1024 (le_of_eq futexWaitersMax_eq.symm), ?_, rfl⟩
  have hfind : (futexSlots.find? fun i => !((waitingState 1024).waiters i).used) = none := by
    rw [List.find?_eq_none]
    intro i hi
    have hlt : i < 1024 := futexWaitersMax_eq ▸ mem_futexSlots.mp hi
    simp [waitingState, hlt]
  rw [futexWait, if_neg (not_not.mpr rfl), hfind]

def wakeOne : List FutexAction :=
  [.wait 7 someKey 3 3 0 allBits, .wake someKey 1 allBits, .resume 7 false false]

theorem futex_accounting_one : (futexSystem.final wakeOne).counted = 1 ∧
    ofTask (futexSystem.final wakeOne).returned 7 = 1 ∧
    ofTask (futexSystem.final wakeOne).woken 7 = ofTask (futexSystem.final wakeOne).returned 7 +
      (futexSystem.final wakeOne).pending 7 := by
  have hrun : (futexSystem.run futexSystem.init wakeOne).isSome ∧
    (futexSystem.final wakeOne).counted = 1 ∧
      ofTask (futexSystem.final wakeOne).returned 7 = 1 ∧
      (futexSystem.final wakeOne).exited 7 = false := by
    decide +kernel
  exact ⟨hrun.2.1, hrun.2.2.1,
    (futex_accounting (System.Reach.final System.runOk_any hrun.1)).2.1 7 hrun.2.2.2⟩

end Cervus.Sched
