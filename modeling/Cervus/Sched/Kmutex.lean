import Cervus.Lib.Run
import Cervus.Sched.Unblock

/-! The sleeping mutex of `kmutex.c`. What runs under `wait_lock` is one step, and so is
each access to the task outside of it, with no lock that the waiter holds. -/

namespace Cervus.Kmutex

open List Prod Sched
open Function (forall_update_iff update update_eq_self update_of_ne update_self)

inductive Pc
  | out
  | contend
  | wait
  | resched
  | recheck
  | owner
  | held
  | waking (target : Nat) (stage : Stage)
  deriving DecidableEq

/-- The mutex and its waiters with the numbers of their arrival, the tasks with the flags of
their waiters, and the calls of `task_unblock` made elsewhere. -/
structure State where
  locked : Bool
  owner : Option Nat
  queue : List (Nat × Nat)
  arrivals : Nat
  pc : Nat → Pc
  granted : Nat → Bool
  sch : Nat → Sch
  other : Nat → Option (Nat × Stage)

def State.setPc (s : State) (t : Nat) (pc : Pc) : State := { s with pc := update s.pc t pc }

def State.setSch (s : State) (t : Nat) (k : Sch) : State := { s with sch := update s.sch t k }

def State.mark (s : State) (t : Nat) : State :=
  s.setSch t { s.sch t with runnable := false, state := .blocked }

def trylock (s : State) (t : Nat) (failed : Pc) : State :=
  if s.locked then s.setPc t failed else { s.setPc t .owner with locked := true }

/-- The part of `kmutex_lock` under `wait_lock`. -/
def enqueue (s : State) (t : Nat) : State :=
  if s.locked then
    { (s.setPc t .wait).mark t with
      granted := update s.granted t false
      queue := s.queue ++ [(t, s.arrivals)], arrivals := s.arrivals + 1 }
  else { s.setPc t .owner with locked := true }

def recheck (s : State) (t : Nat) : State :=
  if s.granted t then s.setPc t .wait else (s.setPc t .wait).mark t

/-- `kmutex_unlock` up to its call of `task_unblock`. -/
def unlock (s : State) (t : Nat) : State :=
  match s.queue with
  | [] => { s.setPc t .out with locked := false, owner := none }
  | (w, _) :: q =>
    { s.setPc t (.waking w .check) with
      granted := update s.granted w true, queue := q, owner := none }

inductive Action
  | tryOnly (t : Nat)
  | lock (t : Nat)
  | setOwner (t : Nat)
  | enqueue (t : Nat)
  | check (t : Nat)
  | resumed (t : Nat)
  | recheck (t : Nat)
  | unlock (t : Nat)
  | wake (t : Nat)
  | otherCall (i t : Nat)
  | otherStep (i : Nat)
  | signalled (t : Nat)
  | switchOut (t : Nat)
  | pick (t : Nat)
  | drop (t : Nat)

def Pc.waiting : Pc → Bool
  | .wait | .resched | .recheck => true
  | _ => false

def Pc.inside : Pc → Bool
  | .owner | .held => true
  | _ => false

/-- The call of `task_unblock` after `kmutex_unlock` goes on, or returns. -/
def Pc.ofCall (w : Nat) : Option Stage → Pc
  | some stage => .waking w stage
  | none => .out

/-- A task takes its steps while it is on a processor. `drop` is `sched_pick_next` passing
over a queued task that is not runnable, and `signalled` the start of `sched_reschedule` for
a task that is marked blocked outside the loop of `kmutex_lock`. -/
def next (s : State) : Action → Option State
  | .tryOnly t => if (s.sch t).onCpu ∧ s.pc t = .out then some (trylock s t .out) else none
  | .lock t =>
    if (s.sch t).onCpu ∧ (s.pc t = .out ∨ s.pc t = .contend) then some (trylock s t .contend)
      else none
  | .setOwner t => if (s.sch t).onCpu ∧ s.pc t = .owner
    then some { s.setPc t .held with owner := some t } else none
  | .enqueue t => if (s.sch t).onCpu ∧ s.pc t = .contend then some (enqueue s t) else none
  | .check t =>
    if (s.sch t).onCpu ∧ s.pc t = .wait
      then some (s.setPc t (if s.granted t then .owner else .resched)) else none
  | .resumed t =>
    if (s.sch t).onCpu ∧ s.pc t = .resched
      then some (s.setPc t (if s.granted t then .wait else .recheck)) else none
  | .recheck t => if (s.sch t).onCpu ∧ s.pc t = .recheck then some (recheck s t) else none
  | .unlock t => if (s.sch t).onCpu ∧ s.pc t = .held then some (unlock s t) else none
  | .wake t =>
    match s.pc t with
    | .waking w stage =>
      if (s.sch t).onCpu then
        some ((s.setSch w (unblock (s.sch w) stage).1).setPc t
          (.ofCall w (unblock (s.sch w) stage).2))
      else none
    | _ => none
  | .otherCall i t =>
    if s.other i = none then some { s with other := update s.other i (some (t, .check)) } else none
  | .otherStep i =>
    match s.other i with
    | some (t, stage) =>
      some { s.setSch t (unblock (s.sch t) stage).1 with
        other := update s.other i ((unblock (s.sch t) stage).2.map fun stage => (t, stage)) }
    | none => none
  | .signalled t =>
    if (s.sch t).onCpu ∧ (s.sch t).state = .blocked ∧ (s.pc t).waiting = false then
      some (s.setSch t { s.sch t with runnable := true, state := .running })
    else none
  | .switchOut t => if (s.sch t).onCpu then some (s.setSch t (switchOut (s.sch t))) else none
  | .pick t =>
    if (s.sch t).onRq ∧ (s.sch t).runnable ∧ (s.sch t).onCpu = false then
      some (s.setSch t { s.sch t with onRq := false, onCpu := true, state := .running })
    else none
  | .drop t =>
    if (s.sch t).onRq ∧ (s.sch t).runnable = false
      then some (s.setSch t { s.sch t with onRq := false }) else none

def kmutexSystem : System State Action where
  init :=
    ⟨false, none, [], 0, fun _ => .out, fun _ => false,
      fun _ => ⟨true, .ready, true, false⟩, fun _ => none⟩
  next := next

/-! Who has the mutex. -/

/-- The task has the mutex, or it has been handed to it. -/
def Has (pc : Nat → Pc) (granted : Nat → Bool) (t : Nat) : Prop :=
  (pc t).inside = true ∨ (pc t).waiting = true ∧ granted t = true

structure Owned (locked : Bool) (queue : List (Nat × Nat)) (n : Nat) (pc : Nat → Pc)
    (granted : Nat → Bool) :
    Prop where
  one : ∀ t u, Has pc granted t → Has pc granted u → t = u
  taken : ∀ t, Has pc granted t → locked = true
  busy : queue ≠ [] → locked = true
  queued : ∀ t, t ∈ queue.map fst ↔ (pc t).waiting = true ∧ granted t = false
  nodup : (queue.map fst).Nodup
  order : queue.Pairwise fun e e' => e.2 < e'.2
  below : ∀ e ∈ queue, e.2 < n

section
variable {l : Bool} {q : List (Nat × Nat)} {n t : Nat} {pc : Nat → Pc} {g : Nat → Bool} {x : Pc}

theorem has_update_ne {u : Nat} (h : u ≠ t) : Has (update pc t x) g u ↔ Has pc g u := by
  simp only [Has, update_of_ne h]

theorem has_update_self :
    Has (update pc t x) g t ↔ x.inside = true ∨ x.waiting = true ∧ g t = true := by
  simp only [Has, update_self]

theorem not_waiting (h : x.inside = true) : x.waiting = false := by
  revert h
  cases x <;> simp [Pc.inside, Pc.waiting]

section
variable (h : Owned l q n pc g) (hx : x.waiting = true ∧ g t = false ↔ (pc t).waiting = true ∧
    g t = false)
include h hx

theorem Owned.queued_update (u : Nat) :
    u ∈ q.map fst ↔ (update pc t x u).waiting = true ∧ g u = false :=
  (forall_update_iff pc fun u p => u ∈ q.map fst ↔ p.waiting = true ∧ g u = false).mpr
    ⟨(h.queued t).trans hx.symm, fun u _ => h.queued u⟩ u

theorem Owned.set (hhas : x.inside = true ∨ x.waiting = true ∧ g t = true → Has pc g t) :
    Owned l q n (update pc t x) g := by
  have hsub : ∀ u, Has (update pc t x) g u → Has pc g u :=
    (forall_update_iff pc fun u p => p.inside = true ∨ p.waiting = true ∧ g u = true →
    Has pc g u).mpr
      ⟨hhas, fun _ _ => id⟩
  exact ⟨fun u v hu hv => h.one u v (hsub u hu) (hsub v hv), fun u hu =>
    h.taken u (hsub u hu), h.busy,
    h.queued_update hx, h.nodup, h.order, h.below⟩

end

theorem Owned.move (h : Owned l q n pc g) (hi : x.inside = (pc t).inside)
    (hw : x.waiting = (pc t).waiting) :
    Owned l q n (update pc t x) g :=
  h.set (by rw [hw]) fun hx => by rwa [hi, hw] at hx

theorem Owned.acquire (h : Owned false q n pc g) (hw : (pc t).waiting = false) :
    Owned true q n (update pc t .owner) g := by
  have hnone : ∀ u, ¬Has pc g u := fun u hu => Bool.noConfusion (h.taken u hu)
  have honly : ∀ u, Has (update pc t .owner) g u → u = t := fun u hu => by
    by_contra hne
    exact hnone u ((has_update_ne hne).mp hu)
  exact ⟨fun u v hu hv => (honly u hu).trans (honly v hv).symm, fun _ _ => rfl, fun _ => rfl,
    h.queued_update (by rw [hw]; simp [Pc.waiting]), h.nodup, h.order, h.below⟩

theorem Owned.take (h : Owned l q n pc g) (hw : (pc t).waiting = true) (hg : g t = true) :
    Owned l q n (update pc t .owner) g :=
  h.set (by simp [hg]) fun _ => .inr ⟨hw, hg⟩

theorem Owned.enqueue (h : Owned true q n pc g) (hw : (pc t).waiting = false) :
    Owned true (q ++ [(t, n)]) (n + 1) (update pc t .wait) (update g t false) := by
  have hhas : ∀ u, Has (update pc t .wait) (update g t false) u → Has pc g u := by
    intro u hu
    by_cases hut : u = t
    · rw [hut, Has, update_self, update_self] at hu
      simp [Pc.inside] at hu
    · simpa only [Has, update_of_ne hut] using hu
  have hnew : t ∉ q.map fst := fun hm => by
    have := ((h.queued t).mp hm).1
    rw [hw] at this
    cases this
  refine ⟨fun u v hu hv => h.one u v (hhas u hu) (hhas v hv), fun _ _ => rfl, fun _ => rfl, fun u =>
    ?_, ?_, ?_, ?_⟩
  · rw [map_append, mem_append, h.queued]
    by_cases hut : u = t
    · rw [hut, update_self, update_self]
      simp [Pc.waiting]
    · rw [update_of_ne hut, update_of_ne hut]
      simp [hut]
  · rw [map_append]
    exact nodup_append.mpr ⟨h.nodup, by simp, by
      simpa using fun a ha (he : a = t) => hnew (he ▸ ha)⟩
  · refine pairwise_append.mpr ⟨h.order, pairwise_singleton .., fun e he e' he' => ?_⟩
    rw [mem_singleton.mp he']
    exact h.below e he
  · intro e he
    rcases mem_append.mp he with he | he
    · exact Nat.lt_succ_of_lt (h.below e he)
    · rw [mem_singleton.mp he]
      exact Nat.lt_succ_self n

theorem Owned.free (h : Owned l [] n pc g) (hi : (pc t).inside = true) :
    Owned false [] n (update pc t .out) g := by
  have hnone : ∀ u, ¬Has (update pc t .out) g u := by
    intro u hu
    by_cases hut : u = t
    · rw [hut, has_update_self] at hu
      simp [Pc.inside, Pc.waiting] at hu
    · exact hut (h.one u t ((has_update_ne hut).mp hu) (.inl hi))
  exact ⟨fun u _ hu => absurd hu (hnone u), fun u hu => absurd hu (hnone u), fun hne =>
    absurd rfl hne,
    h.queued_update (by rw [not_waiting hi]; simp [Pc.waiting]), h.nodup, h.order, h.below⟩

theorem Owned.hand {w i : Nat} (h : Owned l ((w, i) :: q) n pc g) (hi : (pc t).inside = true)
    (hx : x.inside = false) (hxw : x.waiting = false) :
    Owned l q n (update pc t x) (update g w true) := by
  obtain ⟨hww, hgw⟩ := (h.queued w).mp (by simp)
  have htw : (pc t).waiting = false := not_waiting hi
  have hne : w ≠ t := fun he => by rw [he, htw] at hww; cases hww
  have honly : ∀ u, Has (update pc t x) (update g w true) u → u = w := by
    intro u hu
    by_contra huw
    by_cases hut : u = t
    · rw [hut, has_update_self, hx, hxw] at hu
      simp at hu
    · rw [has_update_ne hut, Has, update_of_ne huw] at hu
      exact hut (h.one u t hu (.inl hi))
  have hnd := nodup_cons.mp h.nodup
  refine ⟨fun u v hu hv => (honly u hu).trans (honly v hv).symm, fun _ _ => h.taken t (.inl hi),
    fun _ => h.taken t (.inl hi), fun u => ?_, hnd.2, (pairwise_cons.mp h.order).2,
    fun e he => h.below e (mem_cons_of_mem _ he)⟩
  have hu := h.queued u
  by_cases huw : u = w
  · rw [huw, update_self]
    simpa using hnd.1
  · rw [update_of_ne huw]
    by_cases hut : u = t
    · subst hut
      rw [update_self, hxw]
      rw [htw] at hu
      simpa [huw] using hu
    · rw [update_of_ne hut, ← hu]
      simp [huw]

end

theorem owned_init : Owned false [] 0 (fun _ => .out) fun _ => false :=
  ⟨fun t _ h => by simp [Has, Pc.inside, Pc.waiting] at h, fun t h => by
    simp [Has, Pc.inside, Pc.waiting] at h,
    fun h => absurd rfl h, fun t => by simp [Pc.waiting], .nil, .nil, nofun⟩

def State.Owned (s : State) : Prop := Kmutex.Owned s.locked s.queue s.arrivals s.pc s.granted

section
variable {s s' : State} {t : Nat} (h : s.Owned)
include h

theorem State.Owned.trylock (hw : (s.pc t).waiting = false) (hi : (s.pc t).inside = false) {x : Pc}
    (hx : x.inside = false) (hxw : x.waiting = false) : (trylock s t x).Owned := by
  unfold Kmutex.trylock
  split
  · exact h.move (hx.trans hi.symm) (hxw.trans hw.symm)
  · rename_i hl
    have hf : s.locked = false := by simpa using hl
    unfold State.Owned at h
    rw [hf] at h
    exact h.acquire hw

theorem State.Owned.enqueue (hp : s.pc t = .contend) : (enqueue s t).Owned := by
  have hw : (s.pc t).waiting = false := by rw [hp]; rfl
  unfold State.Owned at h
  unfold Kmutex.enqueue
  split
  · rename_i hl
    rw [hl] at h
    have := h.enqueue hw
    rw [← hl] at this
    exact this
  · rename_i hl
    rw [show s.locked = false by simpa using hl] at h
    exact h.acquire hw

theorem State.Owned.unlock (hp : s.pc t = .held) : (unlock s t).Owned := by
  have hi : (s.pc t).inside = true := by rw [hp]; rfl
  unfold State.Owned at h
  unfold Kmutex.unlock
  split
  · rename_i hq
    rw [hq] at h
    have := h.free hi
    rw [← hq] at this
    exact this
  · rename_i w i q hq
    rw [hq] at h
    exact h.hand hi rfl rfl

/-- Every step keeps one owner at most and the queue in order. -/
theorem State.Owned.next {a : Action} (hn : next s a = some s') : s'.Owned := by
  cases a with
  | tryOnly t =>
    obtain ⟨hc, rfl⟩ := of_guard hn
    exact h.trylock (by rw [hc.2]; rfl) (by rw [hc.2]; rfl) rfl rfl
  | lock t =>
    obtain ⟨hc, rfl⟩ := of_guard hn
    rcases hc.2 with hp | hp <;> exact h.trylock (by rw [hp]; rfl) (by rw [hp]; rfl) rfl rfl
  | setOwner t =>
    obtain ⟨hc, rfl⟩ := of_guard hn
    exact h.move (by rw [hc.2]; rfl) (by rw [hc.2]; rfl)
  | enqueue t =>
    obtain ⟨hc, rfl⟩ := of_guard hn
    exact h.enqueue hc.2
  | check t =>
    obtain ⟨hc, rfl⟩ := of_guard hn
    split
    · exact h.take (by rw [hc.2]; rfl) ‹_›
    · exact h.move (by rw [hc.2]; rfl) (by rw [hc.2]; rfl)
  | resumed t =>
    obtain ⟨hc, rfl⟩ := of_guard hn
    split <;> exact h.move (by rw [hc.2]; rfl) (by rw [hc.2]; rfl)
  | recheck t =>
    obtain ⟨hc, rfl⟩ := of_guard hn
    unfold Kmutex.recheck
    split <;> exact h.move (by rw [hc.2]; rfl) (by rw [hc.2]; rfl)
  | unlock t =>
    obtain ⟨hc, rfl⟩ := of_guard hn
    exact h.unlock hc.2
  | wake t =>
    rw [Kmutex.next] at hn
    split at hn
    · rename_i w stage hp
      obtain ⟨hc, rfl⟩ := of_guard hn
      cases (unblock (s.sch w) stage).2 <;> exact h.move (by rw [hp]; rfl) (by rw [hp]; rfl)
    · cases hn
  | otherCall i t | signalled t | switchOut t | pick t | drop t =>
    obtain ⟨hc, rfl⟩ := of_guard hn
    exact h
  | otherStep i =>
    rw [Kmutex.next] at hn
    split at hn
    · cases hn
      exact h
    · cases hn

end

/-! Who can run, and who is being woken. -/

def Pc.call : Pc → Option (Nat × Stage)
  | .waking t stage => some (t, stage)
  | _ => none

/-- The calls of `task_unblock` under way, by tasks and elsewhere. -/
def State.call (s : State) : Nat ⊕ Nat → Option (Nat × Stage)
  | .inl u => (s.pc u).call
  | .inr i => s.other i

def State.Got (s : State) (t : Nat) : Prop := (s.pc t).waiting = true ∧ s.granted t = true

structure Woken (sch : Nat → Sch) (call : Nat ⊕ Nat → Option (Nat × Stage)) (got : Nat → Prop) :
    Prop where
  runs : ∀ c t, call c = some (t, .state) → (sch t).runnable = true
  marked : ∀ t, (sch t).runnable = false → (sch t).state = .blocked
  placed : ∀ t, (sch t).runnable = true → (sch t).onCpu = false →
    (sch t).onRq = true ∨ ∃ c, call c = some (t, .state) ∨ call c = some (t, .enqueue)
  woken : ∀ t, got t → (sch t).state = .blocked → ∃ u stage, call (.inl u) = some (t, stage) ∧
    stage ≠ .enqueue

section
variable {sch : Nat → Sch} {call : Nat ⊕ Nat → Option (Nat × Stage)} {got got' : Nat → Prop}
    {t : Nat}
  {c : Nat ⊕ Nat}

theorem unblock_flags (k : Sch) (stage : Stage) :
    ((unblock k stage).1.runnable = true ↔ k.runnable = true ∨ stage = .runnable) ∧
      (unblock k stage).1.onCpu = k.onCpu ∧
      ((unblock k stage).1.state = .blocked ↔ k.state = .blocked ∧ stage ≠ .state) ∧
      ((unblock k stage).1.onRq = true ↔ k.onRq = true ∨ stage = .enqueue) := by
  cases stage <;> simp [unblock]

variable (h : Woken sch call got)
include h

theorem Woken.sub (hg : ∀ t, got' t → got t) : Woken sch call got' :=
  ⟨h.runs, h.marked, h.placed, fun t ht => h.woken t (hg t ht)⟩

theorem Woken.setSch {k : Sch} (hr : ∀ c, call c = some (t, .state) → k.runnable = true)
    (hm : k.runnable = false → k.state = .blocked)
    (hp : k.runnable = true → k.onCpu = false → k.onRq = true ∨ ∃ c, call c = some (t, .state) ∨
    call c = some (t, .enqueue))
    (hw : got t → k.state = .blocked → (sch t).state = .blocked) :
    Woken (update sch t k) call got where
  runs c := (forall_update_iff sch fun u k => call c = some (u, .state) → k.runnable = true).mpr
    ⟨hr c, fun u _ => h.runs c u⟩
  marked := (forall_update_iff sch fun _ k => k.runnable = false → k.state = .blocked).mpr
    ⟨hm, fun u _ => h.marked u⟩
  placed := (forall_update_iff sch fun u k => k.runnable = true → k.onCpu = false → k.onRq = true ∨
    ∃ c, call c = some (u, .state) ∨ call c = some (u, .enqueue)).mpr ⟨hp, fun u _ => h.placed u⟩
  woken := (forall_update_iff sch fun u k => got u → k.state = .blocked →
    ∃ v stage, call (.inl v) = some (u, stage) ∧ stage ≠ .enqueue).mpr
      ⟨fun hg hb => h.woken t hg (hw hg hb), fun u _ => h.woken u⟩

theorem Woken.mark (hno : ∀ c, call c ≠ some (t, .state)) (hg : ¬got t) :
    Woken (update sch t { sch t with runnable := false, state := .blocked }) call got :=
  h.setSch (fun c hc => absurd hc (hno c)) (fun _ => rfl) nofun fun ht => absurd ht hg

theorem Woken.begin (hc : call c = none) (hg : ∀ u, got' u → got u ∨ u = t ∧ ∃ v, c = .inl v) :
    Woken sch (update call c (some (t, .check))) got' := by
  have hother : ∀ {d u stage}, call d = some (u, stage) →
      update call c (some (t, .check)) d = some (u, stage) := by
    intro d u stage hd
    rw [update_of_ne]
    · exact hd
    · rintro rfl
      rw [hc] at hd
      cases hd
  refine ⟨fun d u hd => ?_, h.marked, fun u hr ho => ?_, fun u hu hb => ?_⟩
  · by_cases hdc : d = c
    · rw [hdc, update_self] at hd
      cases hd
    · rw [update_of_ne hdc] at hd
      exact h.runs d u hd
  · exact (h.placed u hr ho).imp_right fun ⟨d, hd⟩ => ⟨d, hd.imp hother hother⟩
  · rcases hg u hu with hu | ⟨rfl, v, rfl⟩
    · obtain ⟨v, stage, hv, hs⟩ := h.woken u hu hb
      exact ⟨v, stage, hother hv, hs⟩
    · exact ⟨v, .check, update_self .., nofun⟩

/-- An access of `task_unblock` brings the wake-up one step further. -/
theorem Woken.advance {stage : Stage} (hc : call c = some (t, stage)) :
    Woken (update sch t (unblock (sch t) stage).1)
      (update call c ((unblock (sch t) stage).2.map fun stage => (t, stage))) got := by
  obtain ⟨hrun, hcpu, hst, hrq⟩ := unblock_flags (sch t) stage
  have hkeep : ∀ {d u st}, call d = some (u, st) → st ≠ stage ∨ u ≠ t →
      update call c ((unblock (sch t) stage).2.map fun stage => (t, stage)) d = some (u, st) := by
    intro d u st hd hne
    rw [update_of_ne]
    · exact hd
    · rintro rfl
      rw [hc] at hd
      cases hd
      simp at hne
  refine ⟨fun d u hd => ?_, fun u hr => ?_, fun u hr ho => ?_, fun u hu hb => ?_⟩ <;> by_cases hut :
    u = t
  · subst hut
    rw [update_self, hrun]
    by_cases hdc : d = c
    · rw [hdc, update_self] at hd
      cases stage <;> simp_all [unblock]
    · rw [update_of_ne hdc] at hd
      exact .inl (h.runs d u hd)
  · rw [update_of_ne hut]
    by_cases hdc : d = c
    · rw [hdc, update_self] at hd
      obtain ⟨st, -, hd⟩ := Option.map_eq_some_iff.mp hd
      cases hd
      exact absurd rfl hut
    · rw [update_of_ne hdc] at hd
      exact h.runs d u hd
  · subst hut
    rw [update_self] at hr ⊢
    have hr' : (sch u).runnable = false := by
      rw [← Bool.not_eq_true] at hr ⊢
      exact fun hn => hr (hrun.mpr (.inl hn))
    refine hst.mpr ⟨h.marked u hr', ?_⟩
    rintro rfl
    rw [h.runs c u hc] at hr'
    cases hr'
  · rw [update_of_ne hut] at hr ⊢
    exact h.marked u hr
  · subst hut
    rw [update_self] at hr ho ⊢
    cases stage with
    | check =>
      exact (h.placed u hr ho).imp_right fun ⟨d, hd⟩ =>
        ⟨d, hd.imp (hkeep · (.inl nofun)) (hkeep · (.inl nofun))⟩
    | runnable => exact .inr ⟨c, .inl (update_self ..)⟩
    | state => exact .inr ⟨c, .inr (update_self ..)⟩
    | enqueue => exact .inl rfl
  · rw [update_of_ne hut] at hr ho ⊢
    exact (h.placed u hr ho).imp_right fun ⟨d, hd⟩ =>
      ⟨d, hd.imp (hkeep · (.inr hut)) (hkeep · (.inr hut))⟩
  · subst hut
    rw [update_self] at hb
    obtain ⟨hb', hne⟩ := hst.mp hb
    obtain ⟨v, st, hv, hs⟩ := h.woken u hu hb'
    by_cases hvc : Sum.inl v = c
    · subst hvc
      rw [hc] at hv
      cases hv
      refine ⟨v, ?_⟩
      rw [update_self]
      cases stage with
      | check => exact ⟨.runnable, by simp [unblock, hb'], nofun⟩
      | runnable => exact ⟨.state, rfl, nofun⟩
      | state => exact absurd rfl hne
      | enqueue => exact absurd rfl hs
    · exact ⟨v, st, by rwa [update_of_ne hvc], hs⟩
  · rw [update_of_ne hut] at hb
    obtain ⟨v, st, hv, hs⟩ := h.woken u hu hb
    exact ⟨v, st, hkeep hv (.inr hut), hs⟩

end

def State.Woken (s : State) : Prop := Kmutex.Woken s.sch s.call s.Got

section
variable {s s' : State} {t : Nat}

theorem call_setPc {x : Pc} : (s.setPc t x).call = update s.call (.inl t) x.call := by
  funext c
  rcases c with u | i
  · by_cases hu : u = t
    · rw [hu, update_self]
      exact congrArg Pc.call (update_self ..)
    · rw [update_of_ne (by simpa using hu)]
      exact congrArg Pc.call (update_of_ne hu ..)
  · rfl

theorem call_setPc_none {x : Pc} (h : (s.pc t).call = none) (hx : x.call = none) :
    (s.setPc t x).call = s.call := by
  rw [call_setPc, hx, ← h]
  exact update_eq_self ..

theorem call_other {i : Nat} {v : Option (Nat × Stage)} :
    ({ s with other := update s.other i v } : State).call = update s.call (.inr i) v := by
  funext c
  rcases c with u | j
  · rfl
  · by_cases hj : j = i
    · rw [hj, update_self]
      exact update_self ..
    · rw [update_of_ne (by simpa using hj)]
      exact update_of_ne hj ..

/-- When a task marks itself as blocked, no call of `task_unblock` for it is between its
writes of `runnable` and of the state. -/
def MarkOk (s : State) : Action → Prop
  | .enqueue t | .recheck t => ∀ c, s.call c ≠ some (t, .state)
  | _ => True

theorem got_setPc {x : Pc} (hx : x.waiting = (s.pc t).waiting ∨ x.waiting = false) (u : Nat)
    (hu : (s.setPc t x).Got u) : s.Got u := by
  obtain ⟨hw, hg⟩ := hu
  refine ⟨?_, hg⟩
  by_cases hut : u = t
  · subst hut
    rw [show (s.setPc u x).pc u = x from update_self ..] at hw
    rcases hx with hx | hx
    · rwa [← hx]
    · rw [hx] at hw
      cases hw
  · rwa [show (s.setPc t x).pc u = s.pc u from update_of_ne hut ..] at hw

variable (h : s.Woken)
include h

theorem State.Woken.setPc {x : Pc} (hc : (s.pc t).call = none) (hxc : x.call = none)
    (hx : x.waiting = (s.pc t).waiting ∨ x.waiting = false) : (s.setPc t x).Woken := by
  unfold State.Woken
  rw [call_setPc_none hc hxc]
  exact h.sub (got_setPc hx)

theorem State.Woken.trylock {x : Pc} (hc : (s.pc t).call = none) (hxc : x.call = none)
    (hx : x.waiting = false) : (trylock s t x).Woken := by
  unfold Kmutex.trylock
  split
  · exact h.setPc hc hxc (.inr hx)
  · exact h.setPc (x := .owner) hc rfl (.inr rfl)

theorem State.Woken.enqueue (hp : s.pc t = .contend) (hok : ∀ c, s.call c ≠ some (t, .state)) :
    (enqueue s t).Woken := by
  have hc : (s.pc t).call = none := by rw [hp]; rfl
  unfold Kmutex.enqueue
  split
  · let g := update s.granted t false
    have hgt : g t = false := update_self ..
    have hsub : ∀ u, (update s.pc t .wait u).waiting = true ∧ g u = true → s.Got u := by
      rintro u ⟨hw, hg⟩
      by_cases hut : u = t
      · rw [hut, hgt] at hg
        cases hg
      · rw [update_of_ne hut] at hw
        exact ⟨hw, (update_of_ne hut ..).symm.trans hg⟩
    have hm := Woken.mark (h.sub hsub) hok fun hg => Bool.noConfusion (hgt.symm.trans hg.2)
    rw [← call_setPc_none hc (rfl : Pc.wait.call = none)] at hm
    exact hm
  · exact h.setPc (x := .owner) hc rfl (.inr rfl)

theorem State.Woken.recheck (hp : s.pc t = .recheck) (hok : ∀ c, s.call c ≠ some (t, .state)) :
    (recheck s t).Woken := by
  have hc : (s.pc t).call = none := by rw [hp]; rfl
  have hpc : (s.setPc t .wait).Woken := h.setPc hc rfl (.inl (by rw [hp]; rfl))
  unfold Kmutex.recheck
  split
  · exact hpc
  · rename_i hg
    rw [← call_setPc_none hc (rfl : Pc.wait.call = none)] at hok
    exact Woken.mark hpc hok fun hgot => hg hgot.2

theorem State.Woken.unlock (hp : s.pc t = .held) : (unlock s t).Woken := by
  have hc : (s.pc t).call = none := by rw [hp]; rfl
  unfold Kmutex.unlock
  split
  · exact h.setPc (x := .out) hc rfl (.inr rfl)
  rename_i w i q hq
  have hsub : ∀ u, (update s.pc t (.waking w .check) u).waiting = true ∧
      update s.granted w true u = true → s.Got u ∨ u = w ∧
      ∃ v, (Sum.inl t : Nat ⊕ Nat) = .inl v := by
    rintro u ⟨hw, hg⟩
    by_cases huw : u = w
    · exact .inr ⟨huw, t, rfl⟩
    · rw [update_of_ne huw] at hg
      exact .inl (got_setPc (.inr rfl) u ⟨hw, hg⟩)
  have hb := Woken.begin (c := .inl t) h hc hsub
  rw [show (some (w, .check) : Option (Nat × Stage)) = (Pc.waking w .check).call from rfl,
    ← call_setPc] at hb
  exact hb

theorem State.Woken.wake {w : Nat} {stage : Stage} (hp : s.pc t = .waking w stage) :
    ((s.setSch w (unblock (s.sch w) stage).1).setPc t
    (.ofCall w (unblock (s.sch w) stage).2)).Woken := by
  have hc : s.call (.inl t) = some (w, stage) := by rw [State.call, hp]; rfl
  have ha := Woken.advance h hc
  have hx : (Pc.ofCall w (unblock (s.sch w) stage).2).call =
      (unblock (s.sch w) stage).2.map fun stage => (w, stage) := by
    cases (unblock (s.sch w) stage).2 <;> rfl
  rw [← hx, ← call_setPc] at ha
  refine ha.sub fun u hu => got_setPc (.inr ?_) u hu
  cases (unblock (s.sch w) stage).2 <;> rfl

/-- Every step that meets the condition keeps the wake-ups on their way. -/
theorem State.Woken.next {a : Action} (hok : MarkOk s a) (hn : next s a = some s') : s'.Woken := by
  cases a with
  | tryOnly t =>
    obtain ⟨hc, rfl⟩ := of_guard hn
    exact h.trylock (by rw [hc.2]; rfl) rfl rfl
  | lock t =>
    obtain ⟨hc, rfl⟩ := of_guard hn
    rcases hc.2 with hp | hp <;> exact h.trylock (by rw [hp]; rfl) rfl rfl
  | setOwner t =>
    obtain ⟨hc, rfl⟩ := of_guard hn
    exact h.setPc (x := .held) (by rw [hc.2]; rfl) rfl (.inr rfl)
  | enqueue t =>
    obtain ⟨hc, rfl⟩ := of_guard hn
    exact h.enqueue hc.2 hok
  | check t =>
    obtain ⟨hc, rfl⟩ := of_guard hn
    split
    · exact h.setPc (by rw [hc.2]; rfl) rfl (.inr rfl)
    · exact h.setPc (by rw [hc.2]; rfl) rfl (.inl (by rw [hc.2]; rfl))
  | resumed t =>
    obtain ⟨hc, rfl⟩ := of_guard hn
    split <;> exact h.setPc (by rw [hc.2]; rfl) rfl (.inl (by rw [hc.2]; rfl))
  | recheck t =>
    obtain ⟨hc, rfl⟩ := of_guard hn
    exact h.recheck hc.2 hok
  | unlock t =>
    obtain ⟨hc, rfl⟩ := of_guard hn
    exact h.unlock hc.2
  | wake t =>
    rw [Kmutex.next] at hn
    split at hn
    · rename_i w stage hp
      obtain ⟨hc, rfl⟩ := of_guard hn
      exact h.wake hp
    · cases hn
  | otherCall i t =>
    obtain ⟨hc, rfl⟩ := of_guard hn
    have hb := Woken.begin (t := t) h (show s.call (.inr i) = none from hc) fun _ => .inl
    rw [← call_other] at hb
    exact hb
  | otherStep i =>
    rw [Kmutex.next] at hn
    split at hn
    · rename_i t stage hi
      cases hn
      have ha := Woken.advance h (show s.call (.inr i) = some (t, stage) from hi)
      rw [← call_other] at ha
      exact ha
    · cases hn
  | signalled t =>
    obtain ⟨hc, rfl⟩ := of_guard hn
    refine Woken.setSch h (fun _ _ => rfl) nofun (fun _ ho => ?_) nofun
    cases ho.symm.trans hc.1
  | switchOut t =>
    obtain ⟨hc, rfl⟩ := of_guard hn
    have hm := h.marked t
    unfold Sched.switchOut
    split
    · exact Woken.setSch h (h.runs · t) (fun hr => by simp_all) (fun _ _ => .inl rfl) nofun
    · exact Woken.setSch h (h.runs · t) hm (fun hr => absurd hr ‹_›) fun _ => id
  | pick t =>
    obtain ⟨hc, rfl⟩ := of_guard hn
    refine Woken.setSch h (h.runs · t) (fun hr => ?_) nofun nofun
    cases hr.symm.trans hc.2.1
  | drop t =>
    obtain ⟨hc, rfl⟩ := of_guard hn
    refine Woken.setSch h (h.runs · t) (h.marked t) (fun hr => ?_) fun _ => id
    cases hr.symm.trans hc.2

end

/-- The task is on no processor and cannot be picked for one. -/
def Off (s : State) (t : Nat) : Prop :=
  (s.sch t).onCpu = false ∧ ¬((s.sch t).onRq = true ∧ (s.sch t).runnable = true)

/-- A call of `task_unblock` is under way that will make the task run. -/
def Coming (s : State) (t : Nat) : Prop :=
  ∃ c stage, s.call c = some (t, stage) ∧ (stage = .check → (s.sch t).state = .blocked)

/-- What an unlock leaves: the mutex is free, or it has gone to the waiter that came first. -/
def Passed (s s' : State) : Prop :=
  s.queue = [] ∧ s'.queue = [] ∧ s'.locked = false ∧ s'.granted = s.granted ∨
  ∃ w i q, s.queue = (w, i) :: q ∧ s'.queue = q ∧ s'.locked = true ∧
    s'.granted = update s.granted w true ∧ ∀ e ∈ q, i < e.2

theorem State.Owned.passed {s s' : State} {t : Nat} (h : s.Owned)
    (hn : Kmutex.next s (.unlock t) = some s') : Passed s s' := by
  obtain ⟨hc, rfl⟩ := of_guard hn
  have hl : s.locked = true := h.taken t (.inl (by rw [hc.2]; rfl))
  unfold Kmutex.unlock
  split
  · rename_i hq
    exact .inl ⟨hq, hq, rfl, rfl⟩
  · rename_i w i q hq
    have ho := h.order
    rw [hq] at ho
    exact .inr ⟨w, i, q, hq, rfl, hl, rfl, (pairwise_cons.mp ho).1⟩

theorem State.Woken.coming {s : State} {t : Nat} (h : s.Woken) (hg : s.Got t) (hoff : Off s t) :
    Coming s t := by
  by_cases hr : (s.sch t).runnable = true
  · rcases h.placed t hr hoff.1 with hq | ⟨c, hc | hc⟩
    · exact absurd ⟨hq, hr⟩ hoff.2
    · exact ⟨c, .state, hc, nofun⟩
    · exact ⟨c, .enqueue, hc, nofun⟩
  · have hb := h.marked t (by simpa using hr)
    obtain ⟨u, stage, hu, -⟩ := h.woken t hg hb
    exact ⟨.inl u, stage, hu, fun _ => hb⟩

theorem owned_reach {s : State} (h : kmutexSystem.Reach System.anyStep s) : s.Owned :=
  h.invariant (I := State.Owned) (show kmutexSystem.init.Owned from owned_init) fun _ _ _ _ hi _
    hn => hi.next hn

/-- The mutex has one owner at a time and goes to the waiters in their order, and a waiter
that was handed it runs or is being woken. -/
theorem kmutex_safe {s : State} (h : kmutexSystem.Reach MarkOk s) :
    (∀ t u, (s.pc t).inside = true → (s.pc u).inside = true → t = u) ∧
      (s.queue ≠ [] → s.locked = true) ∧
      (∀ t s', kmutexSystem.next s (.unlock t) = some s' → Passed s s') ∧
      ∀ t, s.Got t → Off s t → Coming s t := by
  have ho := owned_reach (h.mono fun _ _ _ => trivial)
  have hw : s.Woken := by
    refine h.invariant (I := State.Woken) ?_ fun _ _ _ _ hi hok hn => hi.next hok hn
    refine ⟨fun c t hc => ?_, fun t hr => Bool.noConfusion hr, fun t _ _ => .inl rfl, fun t hg =>
      ?_⟩
    · rcases c with u | i <;> cases hc
    · cases hg.1
  refine ⟨fun t u ht hu => ho.one t u (.inl ht) (.inl hu), ho.busy, fun t s' hn =>
    ho.passed hn, fun t hg hoff => ?_⟩
  exact hw.coming hg hoff

def handed : State :=
  kmutexSystem.final [.pick 1, .lock 1, .setOwner 1, .pick 0, .lock 0, .enqueue 0, .check 0,
    .switchOut 0, .unlock 1]

theorem kmutex_safe_handed : handed.Got 0 ∧ Off handed 0 ∧ Coming handed 0 := by
  have hr : kmutexSystem.Reach MarkOk handed := by
    refine System.Reach.final ?_ (by decide +kernel)
    refine ⟨trivial, fun _ h1 => ⟨trivial, fun _ h2 =>
      ⟨trivial, fun _ h3 => ⟨trivial, fun _ h4 => ⟨trivial, fun _ h5 =>
      ⟨?_, fun _ _ =>
        ⟨trivial, fun _ _ => ⟨trivial, fun _ _ => ⟨trivial, fun _ _ => trivial⟩⟩⟩⟩⟩⟩⟩⟩⟩
    cases h1
    cases h2
    cases h3
    cases h4
    cases h5
    rintro ((_ | _ | _) | i) <;> nofun
  have h0 : handed.Got 0 ∧ Off handed 0 := by
    unfold Off State.Got
    decide +kernel
  exact ⟨h0.1, h0.2, (kmutex_safe hr).2.2.2 0 h0.1 h0.2⟩

/-- Task 1 is slow to wake task 0, which has seen its grant, has given the mutex back and
waits again, for task 2. Its state is overwritten and the second grant wakes nobody. -/
def lost : State :=
  kmutexSystem.final [.pick 1, .lock 1, .setOwner 1, .pick 0, .lock 0, .enqueue 0, .unlock 1,
    .wake 1, .wake 1,
    .check 0, .setOwner 0, .unlock 0, .pick 2, .lock 2, .setOwner 2, .lock 0, .enqueue 0, .wake 1,
    .wake 1,
    .check 0, .drop 0, .switchOut 0, .unlock 2, .wake 2]

/-- The next owner has the lock and sleeps for ever. -/
theorem granted_not_woken :
    kmutexSystem.Reach System.anyStep lost ∧ lost.Got 0 ∧ Off lost 0 ∧ ¬Coming lost 0 := by
  have h0 : lost.Got 0 ∧ Off lost 0 := by
    unfold Off State.Got
    decide +kernel
  have hpc : (lost.pc 0).call = none ∧ (lost.pc 1).call = none ∧ (lost.pc 2).call = none := by
    decide +kernel
  refine ⟨System.Reach.final System.runOk_any (by decide +kernel), h0.1, h0.2, ?_⟩
  rintro ⟨(_ | _ | _ | u) | i, stage, hc, -⟩
  · cases hpc.1.symm.trans hc
  · cases hpc.2.1.symm.trans hc
  · cases hpc.2.2.symm.trans hc
  · cases hc
  · cases hc

end Cervus.Kmutex
