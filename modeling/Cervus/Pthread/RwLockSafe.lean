import Cervus.Pthread.RwLock
import Mathlib.Algebra.Order.BigOperators.Group.Finset

/-! The lock excludes as it should, and a sleeper is always woken, as long as a writer that has
seen a reader does not see the last one gone when it looks again before it sleeps. -/

namespace Cervus.RwLock

open Option Finset Function

def Pc.owns : Pc → Bool
  | .add | .load | .reload | .loadTimed | .waitReaders _ _ | .asleepReaders _ | .tryLoad | .release
    false => true
  | _ => false

def token (th : Thread) : Nat := th.wr.toNat + th.pc.owns.toNat

def occupied : Word → Nat
  | .free => 0
  | .locked | .contended => 1

theorem occupied_le (w : Word) : occupied w ≤ 1 := by cases w <;> decide

theorem occupied_of_ne {w : Word} (h : w ≠ .free) : occupied w = 1 := by
  cases w <;> first | rfl | exact absurd rfl h

def Pc.stirs : Pc → Bool
  | .xchg _ | .wakeMutex => true
  | _ => false

structure Placed (th : Thread) : Prop where
  unlock : th.pc = .loadUnlock → th.Holds
  sub : th.pc = .sub → 0 < th.rd
  release : th.pc = .release true → th.wr = true
  wait : ∀ timed n, th.pc = .waitReaders timed n → 0 < n

inductive Effect (m : Mem) (th : Thread) : Mem → Thread → Prop
  | look {pc : Pc} (howns : pc.owns = th.pc.owns) (hstir : th.pc.stirs = false)
    (hplaced : Placed (th.goto pc))
      (hsleep : ∀ w, pc = .asleep w → m.state = .contended)
      (hreaders : ∀ timed, pc = .asleepReaders timed → 0 < m.readers) : Effect m th m (th.goto pc)
  | take {pc : Pc} {st : Word} (hfree : m.state = .free) (hst : st ≠ .free)
    (hstir : th.pc.stirs = true → st = .contended)
      (hnot : th.pc.owns = false) (hpc : pc = .add ∨ pc = .load ∨ pc = .loadTimed ∨ pc = .tryLoad) :
      Effect m th { m with state := st } (th.goto pc)
  | mark {pc : Pc} (hheld : m.state ≠ .free) (hnot : th.pc.owns = false) (hpc : pc = .idle ∨
    ∃ w, pc = .wait w) :
      Effect m th { m with state := .contended } (th.goto pc)
  | add (hpc : th.pc = .add) :
      Effect m th { m with readers := wrap (m.readers + 1) }
        { th with pc := .release false, rd := th.rd + 1 }
  | enter (howns : th.pc.owns = true) (hstir : th.pc.stirs = false) (hr : m.readers ≤ 0) :
      Effect m th m { th with pc := .idle, wr := true }
  | sub (hpc : th.pc = .sub) : Effect m th { m with readers := wrap (m.readers - 1) }
      { th with pc := if wrap (m.readers - 1) = 0 then .wakeReaders else .idle, rd := th.rd - 1 }
  | release {write : Bool} (hpc : th.pc = .release write) : Effect m th { m with state := .free }
      { th with pc := if m.state = .contended then .wakeMutex else .idle, wr := th.wr && !write }

theorem owned_cases (w : Want) :
    w.owned = .add ∨ w.owned = .load ∨ w.owned = .loadTimed ∨ w.owned = .tryLoad := by
  cases w <;> simp [Want.owned]

variable {th : Thread} {pc pc' : Pc} {flag : Bool}

/-- The places that ask nothing of the thread. -/
def Pc.plain : Pc → Bool
  | .loadUnlock | .sub | .release true | .waitReaders _ _ => false
  | _ => true

theorem placed_of (h : pc.plain = true) : Placed (th.goto pc) := by
  refine ⟨fun hp => ?_, fun hp => ?_, fun hp => ?_, fun timed n hp => ?_⟩
  all_goals
    rw [show pc = _ from hp] at h
    cases h

theorem Effect.plain {m : Mem} (howns : pc.owns = th.pc.owns) (hstir : th.pc.stirs = false)
    (hpc : pc.plain = true) (hawake : pc.resume = none) : Effect m th m (th.goto pc) := by
  refine .look howns hstir (placed_of hpc) (fun w he => ?_) fun timed he => ?_
  all_goals
    subst he
    cases hawake

/-- The second look of `pthread_rwlock_wrlock` at the readers still finds one, and the count of
readers has room for one more. -/
def CarefulAt (m : Mem) (th : Thread) : Prop :=
  (th.pc = .reload → 0 < m.readers) ∧ (th.pc = .add → m.readers ≠ 2 ^ 31 - 1)

/-- What one step of a thread does to the memory of the lock. -/
theorem advance_effect {m m' : Mem} {th' : Thread} (hp : Placed th) (hc : CarefulAt m th)
    (hw : th.wr = true → m.readers = 0) (hr : (th.rd : Int) ≤ m.readers)
    (h : advance m th flag = some (m', th')) :
    Effect m th m' th' := by
  obtain ⟨pc, rd, wr⟩ := th
  cases pc with
  | cas w =>
    simp only [advance] at h
    split_ifs at h with hf hx
    · cases h
      exact .take hf (by decide) (by simp [Pc.stirs]) rfl (owned_cases w)
    · cases h
      exact .plain rfl rfl rfl rfl
    · cases h
      exact .plain rfl rfl rfl rfl
  | xchg w =>
    simp only [advance] at h
    split_ifs at h with hf hx
    · cases h
      exact .take hf (by decide) (fun _ => rfl) rfl (owned_cases w)
    · cases h
      exact .mark hf rfl (.inl rfl)
    · cases h
      exact .mark hf rfl (.inr ⟨w, rfl⟩)
  | wait w =>
    simp only [advance] at h
    split_ifs at h with hf
    · cases h
      exact .look rfl rfl (placed_of rfl) (fun _ _ => hf.1) (by simp)
    · cases h
      exact .plain rfl rfl rfl rfl
  | tryCas write =>
    simp only [advance] at h
    split_ifs at h with hf hx
    · cases h
      exact .take hf (by decide) (by simp [Pc.stirs]) rfl (by simp)
    · cases h
      exact .take hf (by decide) (by simp [Pc.stirs]) rfl (by simp)
    · cases h
      exact .plain rfl rfl rfl rfl
  | add =>
    cases h
    exact .add rfl
  | load | tryLoad =>
    simp only [advance] at h
    split_ifs at h with hpos
    · cases h
      exact .plain rfl rfl rfl rfl
    · cases h
      exact .enter rfl rfl (by omega)
  | reload =>
    cases h
    refine .look rfl rfl ⟨by simp [Thread.goto], by simp [Thread.goto], by simp [Thread.goto], ?_⟩
      (by simp) (by simp)
    intro timed n hn
    cases hn
    exact hc.1 rfl
  | loadTimed =>
    simp only [advance] at h
    split_ifs at h with hle hx
    · cases h
      exact .enter rfl rfl hle
    · cases h
      exact .plain rfl rfl rfl rfl
    · cases h
      refine .look rfl rfl ⟨by simp [Thread.goto], by simp [Thread.goto], by simp [Thread.goto], ?_⟩
        (by simp) (by simp)
      intro timed n hn
      cases hn
      omega
  | waitReaders timed n =>
    have hn := hp.wait timed n rfl
    simp only [advance] at h
    split_ifs at h with he
    · cases h
      exact .look rfl rfl (placed_of rfl) (by simp) (fun _ _ => by omega)
    · cases h
      cases timed <;> exact .plain rfl rfl rfl rfl
  | loadUnlock =>
    have hh := hp.unlock rfl
    simp only [advance] at h
    split_ifs at h with hpos
    · cases h
      refine .look rfl rfl ⟨by simp [Thread.goto], fun _ => ?_, by simp [Thread.goto], by
        simp [Thread.goto]⟩ (by simp)
        (by simp)
      rcases hh with hh | hh
      · exact hh
      · have := hw hh
        omega
    · cases h
      refine .look rfl rfl ⟨by simp [Thread.goto], by simp [Thread.goto], fun _ => ?_, by
        simp [Thread.goto]⟩ (by simp)
        (by simp)
      rcases hh with hh | hh
      · dsimp only at hh hr
        omega
      · exact hh
  | sub =>
    cases h
    exact .sub rfl
  | release write =>
    cases h
    exact .release rfl
  | idle | asleep w | asleepReaders timed | wakeMutex | wakeReaders => cases h

theorem advance_ne_wakeReaders {m : Mem} {r : Mem × Thread} (h : advance m th flag = some r) :
    th.pc ≠ .wakeReaders := by
  intro hp
  simp [advance, hp] at h

theorem wrap_of_range {x : Int} (h1 : -2 ^ 31 ≤ x) (h2 : x < 2 ^ 31) : wrap x = x := by
  rw [wrap, Int.bmod_eq_of_le (by omega) (by omega)]

section Effect

variable {m m' : Mem} {th th' : Thread} (h : Effect m th m' th') (hp : Placed th)
    (hc : CarefulAt m th)
  (hr : (th.rd : Int) ≤ m.readers) (hb : m.readers < 2 ^ 31) (ht : token th ≤ occupied m.state)

include h

include ht hp in
theorem Effect.token_eq : token th' + occupied m.state = token th + occupied m'.state := by
  have hle := occupied_le m.state
  cases h with
  | look howns => simp [token, Thread.goto, howns]
  | @take pc st hfree hst _ hnot hpc =>
    have hpo : pc.owns = true := by rcases hpc with rfl | rfl | rfl | rfl <;> rfl
    simp [token, Thread.goto, hpo, hnot, hfree, occupied_of_ne hst,
      show occupied .free = 0 from rfl]
  | @mark pc hheld hnot hpc =>
    have hpo : pc.owns = false := by rcases hpc with rfl | ⟨w, rfl⟩ <;> rfl
    simp [token, Thread.goto, hpo, hnot, occupied_of_ne hheld,
      show occupied .contended = 1 from rfl]
  | add hpc => simp [token, hpc, Pc.owns]
  | enter howns =>
    cases hw : th.wr with
    | false => simp [token, howns, hw, show Pc.idle.owns = false from rfl]
    | true =>
      simp only [token, howns, hw, Bool.toNat_true] at ht
      omega
  | sub hpc =>
    have hno : (if wrap (m.readers - 1) = 0 then Pc.wakeReaders else .idle).owns = false := by
      split_ifs <;> rfl
    simp [token, hpc, hno, show Pc.sub.owns = false from rfl]
  | @release write hpc =>
    have hno : (if m.state = .contended then Pc.wakeMutex else .idle).owns = false := by
      split_ifs <;> rfl
    cases write with
    | false =>
      cases hw : th.wr with
      | false =>
        simp only [token, hpc, hw, Pc.owns, Bool.toNat_true, Bool.toNat_false] at ht
        simp only [token, hpc, hw, hno, show (Pc.release false).owns = true from rfl,
          Bool.toNat_true, Bool.toNat_false,
          Bool.false_and, show occupied .free = 0 from rfl]
        omega
      | true =>
        simp only [token, hpc, hw, Pc.owns, Bool.toNat_true] at ht
        omega
    | true =>
      have hw := hp.release hpc
      simp only [token, hpc, hw, Pc.owns, Bool.toNat_true, Bool.toNat_false] at ht
      simp only [token, hpc, hw, hno, show (Pc.release true).owns = false from rfl, Bool.toNat_true,
        Bool.toNat_false,
        Bool.not_true, Bool.and_false, show occupied .free = 0 from rfl]
      omega

include hp hc hr hb in
theorem Effect.readers_eq :
    (th'.rd : Int) + m.readers = th.rd + m'.readers ∧ m'.readers < 2 ^ 31 := by
  cases h with
  | look | take | mark | enter | release => exact ⟨rfl, hb⟩
  | add hpc =>
    have hne := hc.2 hpc
    dsimp only
    rw [wrap_of_range (by omega) (by omega)]
    omega
  | sub hpc =>
    have hpos := hp.sub hpc
    dsimp only
    rw [wrap_of_range (by omega) (by omega)]
    omega

include hp hr in
theorem Effect.readers_eq_zero (hz : m.readers = 0) (hne : th.pc ≠ .add) : m'.readers = 0 := by
  cases h with
  | add hpc => exact absurd hpc hne
  | sub hpc =>
    have hpos := hp.sub hpc
    omega
  | look | take | mark | enter | release => exact hz

theorem Effect.writer (hw : th'.wr = true) : th.wr = true ∨ m' = m ∧ m.readers ≤ 0 := by
  cases h with
  | enter _ _ hle => exact .inr ⟨rfl, hle⟩
  | release => exact .inl (by simp_all)
  | look | take | mark | add | sub => exact .inl hw

theorem Effect.sleep {w : Want} (hw : th'.pc = .asleep w) : m'.state = .contended := by
  cases h with
  | look _ _ _ hsleep => exact hsleep w hw
  | take _ _ _ _ hpc => rcases hpc with rfl | rfl | rfl | rfl <;> cases hw
  | mark => rfl
  | add | enter => cases hw
  | sub | release =>
    split_ifs at hw

theorem Effect.stirs (hs : m.state = .contended ∨ th.pc.stirs = true) :
    m'.state = .contended ∨ th'.pc.stirs = true := by
  cases h with
  | look _ hstir | enter _ hstir => exact .inl (hs.resolve_right (by simp [hstir]))
  | take hfree _ hstir => exact .inl (hstir (hs.resolve_left (by simp [hfree])))
  | mark => exact .inl rfl
  | add hpc | sub hpc => exact .inl (hs.resolve_right (by simp [hpc, Pc.stirs]))
  | release hpc =>
    have hcon := hs.resolve_right (by simp [hpc, Pc.stirs])
    exact .inr (by rw [if_pos hcon]; rfl)

include hc hb in
theorem Effect.sleepReaders (hpos : 0 < m.readers ∨ ∃ timed, th'.pc = .asleepReaders timed) :
    0 < m'.readers ∨ th'.pc = .wakeReaders := by
  cases h with
  | look _ _ _ _ hreaders => exact .inl (hpos.elim id fun ⟨timed, ht⟩ => hreaders timed ht)
  | take _ _ _ _ hpc => exact .inl (hpos.resolve_right
    (by rcases hpc with rfl | rfl | rfl | rfl <;> simp [Thread.goto]))
  | mark _ _ hpc =>
    exact .inl (hpos.resolve_right (by rcases hpc with rfl | ⟨w, rfl⟩ <;> simp [Thread.goto]))
  | add hpc =>
    have hne := hc.2 hpc
    have hlt := hpos.resolve_right (by simp)
    dsimp only
    rw [wrap_of_range (by omega) (by omega)]
    omega
  | enter => exact .inl (hpos.resolve_right (by simp))
  | sub hpc =>
    have hlt := hpos.resolve_right (by dsimp only; split_ifs <;> simp)
    dsimp only
    rw [wrap_of_range (by omega) (by omega)]
    by_cases hz : m.readers - 1 = 0
    · exact .inr (if_pos hz)
    · exact .inl (by omega)
  | release => exact .inl (hpos.resolve_right (by dsimp only; split_ifs <;> simp))

theorem Effect.placed : Placed th' := by
  cases h with
  | look _ _ hplaced => exact hplaced
  | take _ _ _ _ hpc => exact placed_of (by rcases hpc with rfl | rfl | rfl | rfl <;> rfl)
  | mark _ _ hpc => exact placed_of (by rcases hpc with rfl | ⟨w, rfl⟩ <;> rfl)
  | add | enter => exact ⟨by simp, by simp, by simp, by simp⟩
  | sub | release => split_ifs <;> exact ⟨by simp, by simp, by simp, by simp⟩

end Effect

/-! All threads. -/

section Set

variable {T : Type} [DecidableEq T]

@[simp] theorem set_self (s : State T) (t : T) (th : Thread) : (s.set t th).thr t = th :=
  update_self ..

theorem set_of_ne (s : State T) {t u : T} (th : Thread) (h : u ≠ t) :
    (s.set t th).thr u = s.thr u :=
  update_of_ne h ..

end Set

variable {T : Type} [Fintype T]

structure Inv (s : State T) : Prop where
  tokens : ∑ t, token (s.thr t) = occupied s.mem.state
  readers : s.mem.readers = ∑ t, (s.thr t).rd
  bound : s.mem.readers < 2 ^ 31
  writer : ∀ t, (s.thr t).wr = true → s.mem.readers = 0
  placed : ∀ t, Placed (s.thr t)
  sleep : ∀ t w, (s.thr t).pc = .asleep w → s.mem.state = .contended ∨
    ∃ u, (s.thr u).pc.stirs = true
  sleepReaders : ∀ t timed, (s.thr t).pc = .asleepReaders timed → 0 < s.mem.readers ∨
    ∃ u, (s.thr u).pc = .wakeReaders

namespace Inv

variable {s : State T} (h : Inv s)

include h

theorem token_le (t : T) : token (s.thr t) ≤ occupied s.mem.state := by
  rw [← h.tokens]
  exact Finset.single_le_sum (f := fun t => token (s.thr t)) (fun _ _ => Nat.zero_le _)
    (Finset.mem_univ t)

theorem rd_le (t : T) : ((s.thr t).rd : Int) ≤ s.mem.readers := by
  rw [h.readers]
  exact_mod_cast Finset.single_le_sum (f := fun t => (s.thr t).rd) (fun _ _ => Nat.zero_le _)
    (Finset.mem_univ t)

end Inv

variable {s : State T} {t u : T}

theorem Inv.relabel (h : Inv s) {thr : T → Thread}
    (hsame : ∀ t, (thr t).rd = (s.thr t).rd ∧ (thr t).wr = (s.thr t).wr ∧
    (thr t).pc.owns = (s.thr t).pc.owns)
    (hplaced : ∀ t, Placed (thr t))
    (hsleep : ∀ t w, (thr t).pc = .asleep w → s.mem.state = .contended ∨
    ∃ u, (thr u).pc.stirs = true)
    (hreaders : ∀ t timed, (thr t).pc = .asleepReaders timed → 0 < s.mem.readers ∨
    ∃ u, (thr u).pc = .wakeReaders) :
    Inv { s with thr } := by
  refine ⟨?_, ?_, h.bound, fun t ht => h.writer t ((hsame t).2.1 ▸ ht), hplaced, hsleep, hreaders⟩
  · rw [← h.tokens]
    exact Finset.sum_congr rfl fun t _ => by rw [token, token, (hsame t).2.1, (hsame t).2.2]
  · rw [h.readers]
    exact_mod_cast Finset.sum_congr rfl fun t _ => ((hsame t).1).symm

variable [DecidableEq T]

theorem sum_set (f : Thread → Nat) (s : State T) (t : T) (th : Thread) :
    ∑ u, f ((s.set t th).thr u) + f (s.thr t) = ∑ u, f (s.thr u) + f th := by
  have hrest : ∑ u ∈ univ.erase t, f ((s.set t th).thr u) = ∑ u ∈ univ.erase t, f (s.thr u) :=
    Finset.sum_congr rfl fun u hu => by rw [set_of_ne s th (Finset.ne_of_mem_erase hu)]
  have h1 := Finset.add_sum_erase univ (fun u => f ((s.set t th).thr u)) (Finset.mem_univ t)
  have h2 := Finset.add_sum_erase univ (fun u => f (s.thr u)) (Finset.mem_univ t)
  rw [set_self] at h1
  omega

namespace Inv

variable {s : State T} (h : Inv s)

include h

theorem token_eq_zero {t u : T} (htu : t ≠ u) (ht : 0 < token (s.thr t)) : token (s.thr u) = 0 := by
  have hsum : token (s.thr t) + token (s.thr u) ≤ ∑ t, token (s.thr t) := by
    rw [← Finset.sum_pair (f := fun t => token (s.thr t)) htu]
    exact Finset.sum_le_sum_of_subset (Finset.subset_univ _)
  have := h.tokens
  have := occupied_le s.mem.state
  omega

theorem not_add {v : T} (hv : (s.thr v).wr = true) (t : T) : (s.thr t).pc ≠ .add := by
  intro hpc
  have ht : token (s.thr t) = (s.thr t).wr.toNat + 1 := by rw [token, hpc]; rfl
  have hle := h.token_le t
  have hone := occupied_le s.mem.state
  by_cases htv : t = v
  · subst htv
    rw [hv] at ht
    rw [ht] at hle
    exact absurd (hle.trans hone) (by decide)
  · have hz := h.token_eq_zero htv (by omega)
    rw [token, hv] at hz
    exact absurd hz (by simp)

end Inv

theorem resume_cases (h : pc.resume = some pc') :
    (∃ w, pc = .asleep w ∧ pc' = .xchg w) ∨ ∃ timed, pc = .asleepReaders timed ∧
    (pc' = .load ∨ pc' = .loadTimed) := by
  cases pc with
  | asleep w =>
    cases h
    exact .inl ⟨w, rfl, rfl⟩
  | asleepReaders timed =>
    cases h
    exact .inr ⟨timed, rfl, by cases timed <;> simp [readersHead]⟩
  | _ => cases h

theorem wakes_cases (h : pc.wakes pc' = true) :
    (pc = .wakeMutex ∧ ∃ w, pc' = .asleep w) ∨ pc = .wakeReaders ∧
    ∃ timed, pc' = .asleepReaders timed := by
  cases pc with
  | wakeMutex =>
    cases pc' with
    | asleep w => exact .inl ⟨rfl, w, rfl⟩
    | _ => cases h
  | wakeReaders =>
    cases pc' with
    | asleepReaders timed => exact .inr ⟨rfl, timed, rfl⟩
    | _ => cases h
  | _ => cases h

/-- The runs in which every step is careful. -/
def Careful (s : State T) (a : T × Move T) : Prop :=
  match a.2 with
  | .go _ => CarefulAt s.mem (s.thr a.1)
  | _ => True

section

variable (h : Inv s)
include h

/-- A step of a thread keeps the invariant. -/
theorem Inv.go {m : Mem} (hc : CarefulAt s.mem (s.thr t))
    (ha : advance s.mem (s.thr t) flag = some (m, th)) : Inv { s.set t th with mem := m } := by
  have he := advance_effect (h.placed t) hc (h.writer t) (h.rd_le t) ha
  have htok := he.token_eq (h.placed t) (h.token_le t)
  obtain ⟨hrd, hbound⟩ := he.readers_eq (h.placed t) hc (h.rd_le t) h.bound
  have hnw := advance_ne_wakeReaders ha
  refine ⟨?_, ?_, hbound, ?_, ?_, ?_, ?_⟩
  · have hsum := sum_set token s t th
    have := h.tokens
    dsimp only
    omega
  · have hsum := sum_set Thread.rd s t th
    have := h.readers
    dsimp only
    omega
  · intro u hu
    by_cases hex : ∃ v, (s.thr v).wr = true
    · obtain ⟨v, hv⟩ := hex
      refine he.readers_eq_zero (h.placed t) (h.rd_le t) (h.writer v hv) (h.not_add hv t)
    have hut : u = t := by
      by_contra hne
      rw [set_of_ne s th hne] at hu
      exact hex ⟨u, hu⟩
    subst hut
    rw [set_self] at hu
    rcases he.writer hu with hw | ⟨rfl, hle⟩
    · exact absurd ⟨u, hw⟩ hex
    · have := h.rd_le u
      dsimp only
      omega
  · intro u
    by_cases hut : u = t
    · subst hut
      rw [set_self]
      exact he.placed
    · rw [set_of_ne s th hut]
      exact h.placed u
  · intro u w hu
    have hstep (hs : s.mem.state = .contended ∨ (s.thr t).pc.stirs = true) :
        m.state = .contended ∨ ∃ v, ((s.set t th).thr v).pc.stirs = true :=
      (he.stirs hs).imp_right fun ht => ⟨t, by rwa [set_self]⟩
    by_cases hut : u = t
    · subst hut
      rw [set_self] at hu
      exact .inl (he.sleep hu)
    · rw [set_of_ne s th hut] at hu
      obtain hcon | ⟨v, hv⟩ := h.sleep u w hu
      · exact hstep (.inl hcon)
      · by_cases hvt : v = t
        · exact hstep (.inr (hvt ▸ hv))
        · exact .inr ⟨v, by rwa [set_of_ne s th hvt]⟩
  · intro u timed hu
    have hstep (hs : 0 < s.mem.readers ∨ ∃ timed, th.pc = .asleepReaders timed) :
        0 < m.readers ∨ ∃ v, ((s.set t th).thr v).pc = .wakeReaders :=
      (he.sleepReaders hc h.bound hs).imp_right fun ht => ⟨t, by rwa [set_self]⟩
    by_cases hut : u = t
    · subst hut
      rw [set_self] at hu
      exact hstep (.inr ⟨timed, hu⟩)
    · rw [set_of_ne s th hut] at hu
      obtain hpos | ⟨v, hv⟩ := h.sleepReaders u timed hu
      · exact hstep (.inl hpos)
      · have hvt : v ≠ t := fun hvt => hnw (hvt ▸ hv)
        exact .inr ⟨v, by rwa [set_of_ne s th hvt]⟩

theorem Inv.move (howns : pc.owns = (s.thr t).pc.owns) (hplaced : Placed ((s.thr t).goto pc))
    (hawake : pc.resume = none)
    (hstir : (s.thr t).pc.stirs = true → pc.stirs = true ∨
    (∃ v, v ≠ t ∧ (s.thr v).pc.stirs = true) ∨ ∀ v w, (s.thr v).pc ≠ .asleep w)
    (hwake : (s.thr t).pc = .wakeReaders → ∀ v timed, (s.thr v).pc ≠ .asleepReaders timed) :
    Inv (s.set t ((s.thr t).goto pc)) := by
  have hne : ∀ u, (Function.update s.thr t ((s.thr t).goto pc) u).pc.resume ≠ none → u ≠ t := by
    rintro u hu rfl
    rw [update_self] at hu
    exact hu hawake
  refine h.relabel (fun u => ?_) (fun u => ?_) (fun u w hu => ?_) (fun u timed hu => ?_)
  · by_cases hut : u = t
    · subst hut
      simp [Thread.goto, howns]
    · simp [update_of_ne hut]
  · by_cases hut : u = t
    · subst hut
      simpa using hplaced
    · simpa [update_of_ne hut] using h.placed u
  · have hut := hne u (by rw [hu]; nofun)
    rw [update_of_ne hut] at hu
    obtain hcon | ⟨v, hv⟩ := h.sleep u w hu
    · exact .inl hcon
    · by_cases hvt : v = t
      · obtain hpc | ⟨x, hxt, hx⟩ | hno := hstir (hvt ▸ hv)
        · exact .inr ⟨t, by simpa [Thread.goto] using hpc⟩
        · exact .inr ⟨x, by rwa [update_of_ne hxt]⟩
        · exact absurd hu (hno u w)
      · exact .inr ⟨v, by rwa [update_of_ne hvt]⟩
  · have hut := hne u (by rw [hu]; nofun)
    rw [update_of_ne hut] at hu
    refine (h.sleepReaders u timed hu).imp_right fun ⟨v, hv⟩ => ⟨v, ?_⟩
    have hvt : v ≠ t := fun hvt => hwake (hvt ▸ hv) u timed hu
    rwa [update_of_ne hvt]

theorem Inv.resume (hpc : (s.thr u).pc.resume = some pc) : Inv (s.set u ((s.thr u).goto pc)) := by
  obtain ⟨w, hu, rfl⟩ | ⟨timed, hu, rfl | rfl⟩ := resume_cases hpc
  all_goals
    refine h.move (by rw [hu]; rfl) (placed_of rfl) rfl (fun hs => ?_) (fun hs => ?_)
    · rw [hu] at hs
      cases hs
    · rw [hu] at hs
      cases hs

/-- So does a wake-up. -/
theorem Inv.wake (hw : (s.thr t).pc.wakes (s.thr u).pc = true)
    (hpc : (s.thr u).pc.resume = some pc) :
    Inv ((s.set t ((s.thr t).goto .idle)).set u ((s.thr u).goto pc)) := by
  have htu : t ≠ u := by
    rintro rfl
    obtain ⟨h1, w, h2⟩ | ⟨h1, timed, h2⟩ := wakes_cases hw <;> rw [h1] at h2 <;> cases h2
  have hr := h.resume hpc
  have hcomm : (s.set t ((s.thr t).goto .idle)).set u ((s.thr u).goto pc) =
      (s.set u ((s.thr u).goto pc)).set t (((s.set u ((s.thr u).goto pc)).thr t).goto .idle) := by
    rw [set_of_ne s _ htu]
    simp only [State.set, update_comm htu]
  have ht : ((s.set u ((s.thr u).goto pc)).thr t).pc = (s.thr t).pc := by rw [set_of_ne s _ htu]
  have hu : ((s.set u ((s.thr u).goto pc)).thr u).pc = pc := by rw [set_self]; rfl
  rw [hcomm]
  obtain ⟨hm, w, hs⟩ | ⟨hm, timed, hs⟩ := wakes_cases hw
  · refine hr.move (by rw [ht, hm]; rfl) (placed_of rfl) rfl (fun _ => ?_) (fun hwr => ?_)
    · refine .inr (.inl ⟨u, htu.symm, ?_⟩)
      rw [hs] at hpc
      cases hpc
      rw [hu]
      rfl
    · rw [ht, hm] at hwr
      cases hwr
  · refine hr.move (by rw [ht, hm]; rfl) (placed_of rfl) rfl (fun hst => ?_) (fun _ v tm hv => ?_)
    · rw [ht, hm] at hst
      cases hst
    -- the thread woken has the mutex, so no other sleeps on the readers
    obtain ⟨w, h1, -⟩ | ⟨_, -, h2⟩ := resume_cases hpc
    · rw [hs] at h1
      cases h1
    have hpo : 0 < token ((s.set u ((s.thr u).goto pc)).thr u) := by
      rw [token, hu]
      rcases h2 with rfl | rfl <;> exact Nat.lt_add_left _ (by decide)
    have huv : u ≠ v := by
      rintro rfl
      rw [hu] at hv
      rcases h2 with rfl | rfl <;> cases hv
    have hz := hr.token_eq_zero huv hpo
    rw [token, hv] at hz
    exact absurd hz (by simp [Pc.owns])

theorem Inv.call {c : Call} (hidle : (s.thr t).pc = .idle)
    (hholds : c = .unlock → (s.thr t).Holds) : Inv (s.set t ((s.thr t).goto c.start)) := by
  refine h.move ?_ ?_ ?_ (fun hs => ?_) (fun hs => ?_)
  · rw [hidle]
    cases c <;> rfl
  · cases c with
    | unlock => exact ⟨fun _ => hholds rfl, by simp [Thread.goto, Call.start], by
      simp [Thread.goto, Call.start],
        by simp [Thread.goto, Call.start]⟩
    | _ => exact placed_of rfl
  · cases c <;> rfl
  · rw [hidle] at hs
    cases hs
  · rw [hidle] at hs
    cases hs

theorem Inv.wakeNone (hw : (s.thr t).pc = .wakeMutex ∨ (s.thr t).pc = .wakeReaders)
    (hno : ∀ u, (s.thr t).pc.wakes (s.thr u).pc = false) :
    Inv (s.set t ((s.thr t).goto .idle)) := by
  refine h.move (by rcases hw with hw | hw <;> rw [hw] <;> rfl) (placed_of rfl) rfl (fun hs => ?_)
    (fun hs v timed hv => ?_)
  · obtain hm | hm := hw
    · refine .inr (.inr fun v w hv => ?_)
      have := hno v
      rw [hm, hv] at this
      cases this
    · rw [hm] at hs
      cases hs
  · have := hno v
    rw [hs, hv] at this
    cases this

theorem Inv.next {s' : State T} {a : T × Move T} (hc : Careful s a) (ha : next s a = some s') :
    Inv s' := by
  obtain ⟨t, mv⟩ := a
  cases mv with
  | call c =>
    obtain ⟨⟨hidle, hholds⟩, ha⟩ := ite_none_right_eq_some.mp ha
    cases ha
    exact h.call hidle hholds
  | go flag =>
    obtain ⟨⟨m, th⟩, hr, rfl⟩ := map_eq_some_iff.mp ha
    exact h.go hc hr
  | wake u =>
    cases u with
    | some u =>
      obtain ⟨hw, ha⟩ := ite_none_right_eq_some.mp ha
      obtain ⟨pc, hpc, rfl⟩ := map_eq_some_iff.mp ha
      exact h.wake hw hpc
    | none =>
      obtain ⟨⟨hw, hno⟩, ha⟩ := ite_none_right_eq_some.mp ha
      cases ha
      exact h.wakeNone hw hno
  | leave =>
    obtain ⟨pc, hpc, rfl⟩ := map_eq_some_iff.mp ha
    exact h.resume hpc

end

theorem inv_init : Inv (lock T).init :=
  ⟨by simp [lock, token, occupied, Pc.owns], by simp [lock], by simp [lock], by simp [lock],
    fun _ => ⟨by simp [lock], by simp [lock], by simp [lock], by simp [lock]⟩,
      by simp [lock], by simp [lock]⟩

theorem Inv.exclusive (h : Inv s) : Exclusive s := by
  intro t ht
  have hz : ∀ u, (s.thr u).rd = 0 := fun u => by
    have := h.rd_le u
    have := h.writer t ht
    omega
  refine ⟨hz t, fun u hut hu => ?_⟩
  rcases hu with hu | hu
  · have := hz u
    omega
  · have hpos : 0 < token (s.thr t) := by
      rw [token, ht]
      exact Nat.lt_add_right _ (by decide)
    have := h.token_eq_zero hut.symm hpos
    rw [token, hu] at this
    exact absurd this (by simp)

/-- No thread sleeps with the lock free and nobody about to wake it. -/
theorem Inv.not_stuck (h : Inv s) : ¬ Stuck s := by
  rintro ⟨t, hsome, hnone, hidle⟩
  obtain ⟨pc, hpc⟩ := isSome_iff_exists.mp hsome
  have hwr : ∀ u, (s.thr u).wr = false := fun u => by
    rw [Bool.eq_false_iff]
    exact fun hu => hnone u (.inr hu)
  have hrd : ∀ u, (s.thr u).rd = 0 := fun u => Nat.eq_zero_of_not_pos fun hu => hnone u (.inl hu)
  obtain ⟨w, ht, -⟩ | ⟨timed, ht, -⟩ := resume_cases hpc
  · obtain hcon | ⟨u, hu⟩ := h.sleep t w ht
    · have hsum := h.tokens
      have hz : ∀ u, token (s.thr u) = 0 := fun u => by
        by_cases hut : u = t
        · rw [token, hwr, hut, ht]
          rfl
        · rw [token, hwr, hidle u hut]
          rfl
      rw [hcon, Finset.sum_eq_zero fun u _ => hz u] at hsum
      cases hsum
    · by_cases hut : u = t
      · rw [hut, ht] at hu
        cases hu
      · rw [hidle u hut] at hu
        cases hu
  · obtain hpos | ⟨u, hu⟩ := h.sleepReaders t timed ht
    · rw [h.readers, Finset.sum_eq_zero fun u _ => hrd u] at hpos
      cases hpos
    · by_cases hut : u = t
      · rw [hut, ht] at hu
        cases hu
      · rw [hidle u hut] at hu
        cases hu

/-- In careful runs of any number of threads a writer is alone, and nobody is left asleep. -/
theorem rwlock_safe (T : Type) [DecidableEq T] [Fintype T] {s : State T}
    (h : (lock T).Reach Careful s) :
    Exclusive s ∧ ¬ Stuck s := by
  have hi : Inv s := h.invariant inv_init fun _ _ _ _ hi ha hn => hi.next ha hn
  exact ⟨hi.exclusive, hi.not_stuck⟩

instance (m : Mem) (th : Thread) : Decidable (CarefulAt m th) := inferInstanceAs (Decidable (_ ∧ _))

instance (s : State T) : ∀ a, Decidable (Careful s a)
  | (t, .go _) => inferInstanceAs (Decidable (CarefulAt s.mem (s.thr t)))
  | (_, .call _) => isTrue trivial
  | (_, .wake _) => isTrue trivial
  | (_, .leave) => isTrue trivial

def handOver : List (Bool × Move Bool) :=
  [(false, .call .rdlock), (false, .go false), (false, .go false), (false, .go false),
    (true, .call .timedwrlock), (true, .go false), (true, .go false), (true, .go false),
    (false, .call .unlock), (false, .go false), (false, .go false), (false, .wake (some true)),
    (true, .go false)]

theorem rwlock_safe_handOver :
    ∃ s, (lock Bool).Reach Careful s ∧ (s.thr true).wr = true ∧ Exclusive s ∧ ¬ Stuck s := by
  have hr : (lock Bool).Reach Careful ((lock Bool).final handOver) :=
    System.Reach.final (by decide +kernel) (by decide +kernel)
  exact ⟨_, hr, by decide +kernel, rwlock_safe Bool hr⟩

def lostWake : List (Bool × Move Bool) :=
  [(false, .call .rdlock), (false, .go false), (false, .go false), (false, .go false),
    (true, .call .wrlock), (true, .go false), (true, .go false),
    (false, .call .unlock), (false, .go false), (false, .go false), (false, .wake none),
    (true, .go false), (true, .go false)]

/-- A reader sleeps for ever with the lock free. -/
theorem rwlock_lost_wake : ∃ s, (lock Bool).Reach System.anyStep s ∧ Stuck s := by
  have hr : (lock Bool).Reach System.anyStep ((lock Bool).final lostWake) :=
    System.Reach.final System.runOk_any (by decide +kernel)
  exact ⟨_, hr, true, by decide +kernel, by decide +kernel, by decide +kernel⟩

end Cervus.RwLock
