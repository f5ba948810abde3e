import Cervus.Errno
import Cervus.Lib.Run
import Cervus.Signal.Deliver

/-! The queue of real-time signals of a task. -/

namespace Cervus.Signal

open Errno List

def nsig : Nat := 64
def sigCont : Nat := 18
def sigqueueMax : Nat := 64
def siTimer : BitVec 32 := -2

/-- What `post` finds outside the signal state: the limit on queued signals, the signals
waited for, whether a signalfd takes the signal and whether the task is traced. -/
structure PostEnv where
  rlim : Nat
  waitset : Word
  signalfd : Bool
  traced : Bool

def post (t : Task) (e : PostEnv) (sig : Nat) (si : Siginfo) : Int × Task :=
  if sig = 0 ∨ nsig ≤ sig then (-einval, t)
  else if sig ≠ sigKill ∧ e.signalfd then (0, t)
  else if sig ≠ sigKill ∧ sig ≠ sigCont ∧ !t.blocked.getLsbD sig ∧ !e.waitset.getLsbD sig ∧
    t.ignores sig ∧
      !e.traced then (0, t)
  else if sigrtmin ≤ sig then
    if min e.rlim sigqueueMax ≤ t.rtq.length then (-eagain, t)
    else
      (1, { t with
        rtq := t.rtq ++ [⟨sig, si.code, si.pid, si.uid, si.value⟩]
        pending := t.pending ||| bit sig })
  else if t.pending.getLsbD sig then (2, t)
  else (1, { t with info := Function.update t.info sig si, pending := t.pending ||| bit sig })

/-- The number of overruns of a timer is filled in when its signal is taken. -/
def ptimerSignalTaken (overrun : BitVec 32) (si : Siginfo) : Siginfo :=
  if si.code = siTimer then { si with uid := overrun } else si

/-- What a signal says of itself. -/
def Queued.own (q : Queued) : Queued := if q.code = siTimer then { q with uid := 0 } else q

/-- A task, the real-time signals queued by a post and those that have left the queue. -/
structure Queue where
  task : Task
  posted : List Queued
  gone : List Queued

inductive QueueAction
  | post (e : PostEnv) (sig : Nat) (si : Siginfo)
  | take (sig : Nat) (overrun : BitVec 32)
  | discard (sig : Nat)
  /-- Mask and handlers change between the calls. -/
  | change (blocked : Word) (handler : Nat → Word)

def ofSig (sig : Nat) (l : List Queued) : List Queued := l.filter (·.sig = sig)

def Queue.next (s : Queue) : QueueAction → Queue
  | .post e sig si =>
    let (r, t) := post s.task e sig si
    { s with
      task := t
      posted := if r = 1 ∧ sigrtmin ≤ sig then s.posted ++
        [⟨sig, si.code, si.pid, si.uid, si.value⟩] else s.posted }
  | .take sig overrun =>
    let (t, si) := takeSignal s.task sig
    let si := ptimerSignalTaken overrun si
    { s with
      task := t
      gone := if sigrtmin ≤ sig ∧ ofSig sig s.task.rtq ≠ []
        then s.gone ++ [⟨sig, si.code, si.pid, si.uid, si.value⟩]
        else s.gone }
  | .discard sig =>
    { s with
      task := s.task.discard sig
      gone := if sigrtmin ≤ sig then s.gone ++ ofSig sig s.task.rtq else s.gone }
  | .change blocked handler => { s with task := { s.task with blocked, handler } }

def queueSystem (t : Task) : System Queue QueueAction where
  init := ⟨{ t with pending := 0, rtq := [] }, [], []⟩
  next s a := some (s.next a)

structure QueueInv (s : Queue) : Prop where
  bits : ∀ sig, sigrtmin ≤ sig → (s.task.pending.getLsbD sig = true ↔ ofSig sig s.task.rtq ≠ [])
  log : ∀ sig, (ofSig sig s.posted).map Queued.own =
    (ofSig sig s.gone ++ ofSig sig s.task.rtq).map Queued.own

/-- The two tasks have the same real-time signals pending. -/
def SameRt (t t' : Task) : Prop :=
  t'.rtq = t.rtq ∧ ∀ i, sigrtmin ≤ i → t'.pending.getLsbD i = t.pending.getLsbD i

theorem bit_getLsbD (sig i : Nat) :
    (bit sig).getLsbD i = (decide (i < 64) && decide (i = sig)) := by
  simp only [bit, BitVec.getLsbD_shiftLeft, BitVec.getLsbD_one]
  grind

section
variable {sig i : Nat}

theorem clear_self (w : Word) : (w &&& ~~~bit sig).getLsbD sig = false := by
  rw [BitVec.getLsbD_and, BitVec.getLsbD_not, bit_getLsbD]
  grind

theorem clear_ne (w : Word) (hi : i ≠ sig) : (w &&& ~~~bit sig).getLsbD i = w.getLsbD i := by
  rw [BitVec.getLsbD_and, BitVec.getLsbD_not, bit_getLsbD]
  by_cases h : i < 64
  · simp [h, hi]
  · simp [BitVec.getLsbD_of_ge _ _ (Nat.not_lt.mp h)]

theorem sameRt_clear {t t' : Task} (hrt : ¬sigrtmin ≤ sig) (hq : t'.rtq = t.rtq)
    (hp : t'.pending = t.pending &&& ~~~bit sig) : SameRt t t' :=
  ⟨hq, fun _ hi => hp ▸ clear_ne _ fun he => hrt (he ▸ hi)⟩

theorem ofSig_append (l r : List Queued) : ofSig i (l ++ r) = ofSig i l ++ ofSig i r :=
  filter_append ..

theorem ofSig_same {l : List Queued} (h : ∀ q ∈ l, q.sig = i) : ofSig i l = l :=
  filter_eq_self.mpr fun q hq => decide_eq_true (h q hq)

theorem ofSig_other {l : List Queued} (h : ∀ q ∈ l, q.sig = sig) (hi : i ≠ sig) : ofSig i l = [] :=
  filter_eq_nil_iff.mpr fun q hq => by simpa [h q hq] using hi.symm

theorem ofSig_eraseP (l : List Queued) :
    ofSig sig (l.eraseP (·.sig = sig)) = (ofSig sig l).tail := by
  induction l with
  | nil => rfl
  | cons q l ih =>
    by_cases hq : q.sig = sig
    · simp [ofSig, hq]
    · simpa [ofSig, hq] using ih

theorem ofSig_eraseP_ne (hi : i ≠ sig) (l : List Queued) :
    ofSig i (l.eraseP (·.sig = sig)) = ofSig i l := by
  induction l with
  | nil => rfl
  | cons q l ih =>
    by_cases hq : q.sig = sig
    · simp [ofSig, hq, hi.symm]
    · simp only [ofSig] at ih
      simp [ofSig, hq, filter_cons, ih]

theorem takeSignal_cons {t : Task} {q : Queued} {rest : List Queued} (hrt : sigrtmin ≤ sig)
    (hq : ofSig sig t.rtq = q :: rest) : takeSignal t sig = ({ t with
      pending := if rest = [] then t.pending &&& ~~~bit sig else t.pending
      rtq := t.rtq.eraseP (·.sig = sig) }, ⟨q.code, q.pid, q.uid, 0, 0, 0, 0, q.value⟩) := by
  have hfind : t.rtq.find? (·.sig = sig) = some q := by
    rw [← head?_filter]
    exact congrArg head? hq
  have hlen : (t.rtq.filter (·.sig = sig)).length = rest.length + 1 := congrArg length hq
  simp only [takeSignal, hrt, if_true, hfind, hlen]
  cases rest <;> simp

theorem takeSignal_nil {t : Task} (hrt : sigrtmin ≤ sig) (hq : ofSig sig t.rtq = []) :
    (takeSignal t sig).1 = { t with pending := t.pending &&& ~~~bit sig } := by
  have hfind : t.rtq.find? (·.sig = sig) = none := by
    rw [← head?_filter]
    exact congrArg head? hq
  have hlen : (t.rtq.filter (·.sig = sig)).length = 0 := congrArg length hq
  simp [takeSignal, hrt, hfind, hlen]

/-- A post queues a real-time signal, or leaves the queue and the bits of its signals alone. -/
theorem post_cases (t : Task) (e : PostEnv) (sig : Nat) (si : Siginfo) :
    (sigrtmin ≤ sig ∧ sig < nsig ∧ t.rtq.length < min e.rlim sigqueueMax ∧
      post t e sig si = (1, { t with
        rtq := t.rtq ++ [⟨sig, si.code, si.pid, si.uid, si.value⟩]
        pending := t.pending ||| bit sig })) ∨
    ¬((post t e sig si).1 = 1 ∧ sigrtmin ≤ sig) ∧ SameRt t (post t e sig si).2 := by
  unfold post
  split_ifs with h1 h2 h3 hrt hfull hp
  · exact .inr ⟨fun h => (by decide : -einval ≠ 1) h.1, rfl, fun _ _ => rfl⟩
  · exact .inr ⟨fun h => Int.zero_ne_one h.1, rfl, fun _ _ => rfl⟩
  · exact .inr ⟨fun h => Int.zero_ne_one h.1, rfl, fun _ _ => rfl⟩
  · exact .inr ⟨fun h => (by decide : -eagain ≠ 1) h.1, rfl, fun _ _ => rfl⟩
  · exact .inl ⟨hrt, Nat.not_le.mp fun h => h1 (.inr h), Nat.not_le.mp hfull, rfl⟩
  · exact .inr ⟨fun h => hrt h.2, rfl, fun _ _ => rfl⟩
  · refine .inr ⟨fun h => hrt h.2, rfl, fun i hi => ?_⟩
    have hne : i ≠ sig := fun h => hrt (h ▸ hi)
    rw [BitVec.getLsbD_or, bit_getLsbD]
    simp [hne]

variable {s : Queue} (h : QueueInv s)
include h

theorem QueueInv.frame {t : Task} (ht : SameRt s.task t) : QueueInv { s with task := t } where
  bits i hi := by rw [ht.2 i hi, ht.1, h.bits i hi]
  log i := by rw [ht.1, h.log i]

theorem QueueInv.post (e : PostEnv) (sig : Nat) (si : Siginfo) :
    QueueInv (s.next (.post e sig si)) := by
  simp only [Queue.next]
  rcases post_cases s.task e sig si with ⟨hrt, hsig, -, hp⟩ | ⟨hr, ht⟩
  · rw [hp, if_pos ⟨rfl, hrt⟩]
    refine ⟨fun i hi => ?_, fun i => ?_⟩
    · rw [ofSig_append, BitVec.getLsbD_or, bit_getLsbD]
      by_cases he : i = sig
      · simp [ofSig, he, show sig < 64 from hsig]
      · simpa [ofSig, he, Ne.symm he] using h.bits i hi
    · rw [ofSig_append, ofSig_append, ← append_assoc, map_append, map_append, h.log i]
  · rw [if_neg hr]
    exact h.frame ht

/-- `out` are the oldest signals of one number, and they leave the queue. -/
theorem QueueInv.leave {t : Task} {out : List Queued} (hout : ∀ q ∈ out, q.sig = sig)
    (hsig : (ofSig sig s.task.rtq).map Queued.own = (out ++ ofSig sig t.rtq).map Queued.own)
    (hbit : t.pending.getLsbD sig = true ↔ ofSig sig t.rtq ≠ [])
    (hne : ∀ i, i ≠ sig → ofSig i t.rtq = ofSig i s.task.rtq ∧
    t.pending.getLsbD i = s.task.pending.getLsbD i) :
    QueueInv { s with task := t, gone := s.gone ++ out } where
  bits i hi := by
    by_cases he : i = sig
    · subst he
      exact hbit
    · rw [(hne i he).1, (hne i he).2, h.bits i hi]
  log i := by
    rw [h.log i, ofSig_append, append_assoc, map_append, map_append]
    by_cases he : i = sig
    · subst he
      rw [ofSig_same hout, hsig]
    · rw [ofSig_other hout he, (hne i he).1]
      rfl

theorem QueueInv.discard (sig : Nat) : QueueInv (s.next (.discard sig)) := by
  simp only [Queue.next]
  by_cases hrt : sigrtmin ≤ sig
  · rw [if_pos hrt]
    have hq : (s.task.discard sig).rtq = s.task.rtq.filter (·.sig ≠ sig) := if_pos hrt
    have hnil : ofSig sig (s.task.discard sig).rtq = [] := by simp [hq, ofSig]
    refine h.leave (fun q hq => by simpa using (mem_filter.mp hq).2) (by simp [hnil]) ?_
      fun i hi => ⟨?_, clear_ne _ hi⟩
    · rw [hnil, Task.discard, clear_self]
      simp
    · rw [hq, ofSig, filter_filter]
      exact filter_congr fun q _ => by grind
  · rw [if_neg hrt]
    exact h.frame (sameRt_clear hrt (if_neg hrt) rfl)

/-- Taking a signal keeps the queue and its bits together. -/
theorem QueueInv.take (sig : Nat) (overrun : BitVec 32) :
    QueueInv (s.next (.take sig overrun)) := by
  simp only [Queue.next]
  by_cases hrt : sigrtmin ≤ sig
  · rcases hq : ofSig sig s.task.rtq with _ | ⟨q, rest⟩
    · -- nothing is queued, so the bit was clear before
      rw [takeSignal_nil hrt hq, if_neg (by simp)]
      refine h.frame ⟨rfl, fun i hi => ?_⟩
      by_cases he : i = sig
      · subst he
        rw [clear_self]
        simpa [hq] using (h.bits i hi).not
      · exact clear_ne _ he
    · rw [if_pos ⟨hrt, cons_ne_nil _ _⟩, takeSignal_cons hrt hq]
      have hrest : ofSig sig (s.task.rtq.eraseP (·.sig = sig)) = rest := by
        rw [ofSig_eraseP, hq, tail_cons]
      have hmem : q ∈ ofSig sig s.task.rtq := hq ▸ mem_cons_self
      obtain rfl : q.sig = sig := by simpa using (mem_filter.mp hmem).2
      refine h.leave (fun _ he => mem_singleton.mp he ▸ rfl) ?_ ?_ fun i hi =>
        ⟨ofSig_eraseP_ne hi _, ?_⟩
      · rw [hq, hrest, singleton_append]
        by_cases hc : q.code = siTimer <;> simp [ptimerSignalTaken, Queued.own, hc]
      · rw [hrest]
        dsimp only
        split_ifs with hr
        · rw [clear_self]
          simp [hr]
        · simp [hr, (h.bits _ hrt).mpr (by simp [hq])]
      · dsimp only
        split_ifs
        · exact clear_ne _ hi
        · rfl
  · simp only [hrt, false_and, if_false, takeSignal]
    exact h.frame (sameRt_clear hrt rfl rfl)

end

theorem queue_reach {t : Task} {s : Queue} (h : (queueSystem t).Reach anyStep s) : QueueInv s := by
  refine h.invariant ⟨fun _ _ => by simp [queueSystem, ofSig], fun _ => rfl⟩ ?_
  intro s a s' _ hi _ hn
  cases hn
  cases a with
  | post e sig si => exact hi.post e sig si
  | take sig overrun => exact hi.take sig overrun
  | discard sig => exact hi.discard sig
  | change blocked handler => exact hi.frame ⟨rfl, fun _ _ => rfl⟩

/-- The bit of a real-time signal is set exactly while one is queued, the signals of one
number leave in the order of their posts, each once and with what it says of itself, and
a post that succeeds keeps to both limits. -/
theorem queue_exact {t : Task} {s : Queue} (h : (queueSystem t).Reach anyStep s) :
    (∀ sig, sigrtmin ≤ sig → (s.task.pending.getLsbD sig = true ↔ ∃ q ∈ s.task.rtq, q.sig = sig)) ∧
    (∀ sig, (ofSig sig s.posted).map Queued.own =
    (ofSig sig s.gone ++ ofSig sig s.task.rtq).map Queued.own) ∧
    ∀ e sig si, sigrtmin ≤ sig → (post s.task e sig si).1 = 1 →
      (post s.task e sig si).2.rtq.length ≤ min e.rlim sigqueueMax := by
  have hi := queue_reach h
  refine ⟨fun sig hrt => ?_, hi.log, fun e sig si hrt hr => ?_⟩
  · rw [hi.bits sig hrt]
    simp [ofSig]
  · rcases post_cases s.task e sig si with ⟨-, -, hlen, hp⟩ | ⟨hno, -⟩
    · rw [hp]
      simp only [length_append, length_singleton]
      omega
    · exact absurd ⟨hr, hrt⟩ hno

def twoPosts : List QueueAction :=
  let e : PostEnv := ⟨8, 0, false, false⟩
  [.post e 34 ⟨-1, 5, 0, 0, 0, 0, 0, 1⟩, .post e 34 ⟨-1, 6, 0, 0, 0, 0, 0, 2⟩, .take 34 0]

theorem queue_exact_twoPosts :
    let s := (queueSystem (.plain .native 0)).final twoPosts
    s.gone.map (·.pid) = [5] ∧ ∃ q ∈ s.task.rtq, q.sig = 34 :=
  ⟨by decide, ((queue_exact (.final System.runOk_any (by decide))).1 34 (by decide)).mp (by decide)⟩

end Cervus.Signal
