import Cervus.Net.Tcp.Trim

/-! A segment that lies outside the receive window, and what it may still change
in a connection. -/

namespace Cervus.Tcp

open Cervus.Seq

def Segment.span (g : Segment) : Nat :=
  g.data.length + (if g.flags.syn then 1 else 0) + (if g.flags.fin then 1 else 0)

def Rcv.InWindow (r : Rcv) (p : Seq) : Prop := (p - r.nxt).toNat < r.window

instance (r : Rcv) (p : Seq) : Decidable (r.InWindow p) := inferInstanceAs (Decidable (_ < _))

def Segment.Outside (g : Segment) (r : Rcv) : Prop :=
  ¬r.InWindow g.seq ∧ ∀ i < g.span, ¬r.InWindow (g.seq + BitVec.ofNat 32 i)

structure Core where
  state : St
  reset : Bool
  err : Int
  una : Seq
  wnd : Nat
  sndBuf : (Nat → Byte) × Nat × Nat
  nxt : Seq
  rcvBuf : (Nat → Byte) × Nat × Nat

def Tcb.core (t : Tcb) : Core where
  state := t.state
  reset := t.reset
  err := t.err
  una := t.snd.una
  wnd := t.snd.wnd
  sndBuf := (t.snd.buf, t.snd.head, t.snd.buflen)
  nxt := t.rcv.nxt
  rcvBuf := (t.rcv.buf, t.rcv.head, t.rcv.count)

/-- Nothing changes, and the answer is an acknowledgement at most. -/
def Quiet (t : Tcb) (p : Tcb × List Segment) : Prop :=
  p.1.core = t.core ∧ (p.2 = [] ∨ ∃ s, p.2 = [s] ∧ s.flags = { ack := true } ∧ s.data = [])

def St.Synced (st : St) : Prop :=
  st = .established ∨ st = .finWait1 ∨ st = .finWait2 ∨ st = .closeWait ∨ st = .lastAck

def Tcb.Passes (t : Tcb) (g : Segment) : Prop :=
  dataOk t.state = true →
    if g.data = [] then ¬(t.rcv.window = 0 ∧ g.flags.fin = true ∧ g.seq = t.rcv.nxt)
    else ¬(t.appClosed = true ∧ t.state ≠ .established) ∧
      (t.rcv.window = 0 → (t.rcv.nxt - g.seq).toNat < g.data.length → t.rcv.space = 0)

def Tcb.Known (t : Tcb) (g : Segment) : Prop :=
  ¬(0 < diff g.ack t.snd.una ∧ diff g.ack t.snd.smax ≤ 0) ∧
    (g.ack = t.snd.una → g.win.toNat * 2 ^ t.snd.wscale = t.snd.wnd) ∧
    ¬(t.snd.finAcked = true ∧ (t.state = .finWait1 ∨ t.state = .lastAck))

/-- The segment is the third that acknowledges the same data again. -/
def Snd.ThirdDup (s : Snd) (g : Segment) : Prop :=
  g.flags.ack = true ∧ g.ack = s.una ∧ (g.data = [] ∧ g.flags.syn = false ∧ g.flags.fin = false) ∧
    s.smax ≠ s.una ∧ s.wnd ≠ 0 ∧ s.dupacks = 2

instance (s : Snd) (g : Segment) : Decidable (s.ThirdDup g) := inferInstanceAs (Decidable (_ ∧ _))

def Snd.counted (s : Snd) (now : Nat) (g : Segment) : Snd :=
  if s.ThirdDup g then s.fastRetransmit now else s

/-- `tcp_try_send` has nothing to send, or nothing from `snd_una` on after a third duplicate. -/
def Tcb.Silent (t : Tcb) (e : Env) (g : Segment) : Prop :=
  ({ t with snd := t.snd.counted e.now g }.trySend e.now e.mem).2 = []

/-- What a segment has to be like to leave the connection alone. -/
def Tcb.Harmless (t : Tcb) (e : Env) (g : Segment) : Prop :=
  g.flags.rst = false ∧ (g.flags.ack = true ∧ t.snd.Refused g.ack ∨
    (g.flags.ack = true → t.Known g) ∧ t.Passes g ∧ (t.dataSends g = true → t.Silent e g))

variable {t : Tcb} {e : Env} {g : Segment}

theorem Segment.Outside.closed (ho : g.Outside t.rcv)
    (h : g.seq = t.rcv.nxt ∨ (t.rcv.nxt - g.seq).toNat < g.data.length) :
    t.rcv.window = 0 := by
  have hout : ¬t.rcv.InWindow t.rcv.nxt := by
    obtain h | h := h
    · exact h ▸ ho.1
    · have := ho.2 (t.rcv.nxt - g.seq).toNat (by unfold Segment.span; omega)
      rwa [BitVec.ofNat_toNat, BitVec.setWidth_eq, add_sub_cancel] at this
  rw [Rcv.InWindow, sub_self] at hout
  exact Nat.eq_zero_of_not_pos hout

theorem sendAck_quiet : Quiet t t.sendAck := by
  refine ⟨?_, .inr ⟨_, rfl, rfl, rfl⟩⟩
  rw [sendAck_fst, Rcv.emit]
  split_ifs <;> rfl

theorem Quiet.of_core {t' : Tcb} {p : Tcb × List Segment} (h : t'.core = t.core) :
    Quiet t' p ↔ Quiet t p := by
  rw [Quiet, Quiet, h]

theorem succ_ne (s : Seq) : s + 1 ≠ s := by
  intro h
  have := congrArg BitVec.toNat h
  simp at this
  omega

theorem inputEnd_quiet_iff {ok : Bool} {now : Nat} : Quiet t (t.inputEnd now g ok) ↔
    ¬(g.flags.fin = true ∧ ok = true ∧ g.seq + BitVec.ofNat 32 g.data.length = t.rcv.nxt) := by
  unfold Tcb.inputEnd
  split_ifs with h1 h2
  · refine iff_of_false (fun hq => ?_) (not_not.mpr h1)
    have hc : (t.inputFin now).core = t.core := sendAck_quiet.1.symm.trans hq.1
    have hn := congrArg Core.nxt hc
    unfold Tcb.inputFin at hn
    dsimp only at hn
    split_ifs at hn <;> exact succ_ne _ hn
  · exact iff_of_true sendAck_quiet h1
  · exact iff_of_true ⟨rfl, .inl rfl⟩ h1

theorem diff_lt_iff {a b : Seq} {n : Nat} (hn : n < 2 ^ 31) :
    (0 ≤ diff a b ∧ diff a b < n) ↔ (a - b).toNat < n := by
  constructor
  · rintro ⟨h0, h1⟩
    have := Seq.toNat_sub_of_diff h0
    omega
  · intro h
    have hd : diff a b = (a - b).toNat := by
      rw [diff, BitVec.toInt_eq_toNat_of_lt]
      omega
    omega

def SameRing (r r' : Rcv) : Prop :=
  r'.nxt = r.nxt ∧ r'.buf = r.buf ∧ r'.head = r.head ∧ r'.count = r.count ∧ r'.size = r.size

theorem stored_same {r : Rcv} (h0 : r.space = 0) (data : List Byte) :
    SameRing r (r.push data).1.drain := by
  have hkeep : ∀ (r' : Rcv) d, SameRing r r' → SameRing r (r'.push d).1 := by
    rintro r' d ⟨h1, h2, h3, h4, h5⟩
    have hs : min d.length r'.space = 0 := by
      rw [Rcv.space, h4, h5, ← Rcv.space, h0, Nat.min_zero]
    simp [SameRing, Rcv.push, hs, h1, h2, h3, h4, h5]
  exact drain_invariant hkeep (fun _ _ h => h) (hkeep r data ⟨rfl, rfl, rfl, rfl, rfl⟩)

theorem count_lt_stored {r : Rcv} (h0 : r.space ≠ 0) {data : List Byte} (hd : data ≠ []) :
    r.count < (r.push data).1.drain.count := by
  have hpush : r.count < (r.push data).1.count := by
    have := List.length_pos_iff.mpr hd
    simp only [Rcv.push]
    omega
  exact drain_invariant (P := fun r' => r.count < r'.count)
    (fun r' d h => lt_of_lt_of_le h (by simp only [Rcv.push]; omega)) (fun _ _ h => h) hpush

theorem inputEnd_rcvBuf {ok : Bool} {now : Nat} :
    (t.inputEnd now g ok).1.core.rcvBuf = t.core.rcvBuf := by
  unfold Tcb.inputEnd
  split_ifs
  · rw [sendAck_quiet.1]
    unfold Tcb.inputFin
    dsimp only
    split_ifs <;> rfl
  · rw [sendAck_quiet.1]
  · rfl

theorem inputData_quiet_iff (hlen : g.data.length < 2 ^ 31) (ho : g.Outside t.rcv) :
    Quiet t (t.inputData e g) ↔ t.Passes g := by
  unfold Tcb.inputData Tcb.Passes
  cases hok : dataOk t.state with
  | false =>
    simp only [Bool.false_eq_true, false_and, and_false, if_false, false_implies, iff_true]
    exact inputEnd_quiet_iff.mpr fun h => absurd h.2.1 Bool.false_ne_true
  | true =>
    by_cases hd : g.data = []
    · simp only [hd, ne_eq, not_true_eq_false, false_and, if_false, if_true, true_implies]
      rw [inputEnd_quiet_iff, hd]
      have hw := fun h : g.seq = t.rcv.nxt => ho.closed (.inl h)
      simp only [List.length_nil, true_and, BitVec.add_zero]
      exact not_congr ⟨fun h => ⟨hw h.2, h⟩, And.right⟩
    simp only [hd, ne_eq, not_false_eq_true, true_and, if_false, true_implies]
    by_cases hc : t.appClosed = true ∧ t.state ≠ .established
    · rw [if_pos hc]
      refine iff_of_false (fun hq => ?_) fun h => h.1 hc
      obtain ⟨s, hs, hf, -⟩ := hq.2.resolve_left (by simp)
      obtain rfl : _ = s := List.head_eq_of_cons_eq hs
      cases congrArg Flags.rst hf
    rw [if_neg hc]
    by_cases hold : (g.data.length : Int) ≤ diff t.rcv.nxt g.seq
    · rw [if_pos hold]
      refine iff_of_true sendAck_quiet ⟨hc, fun _ h => ?_⟩
      have := ((diff_lt_iff hlen).mpr h).2
      omega
    rw [if_neg hold]
    by_cases h0 : 0 ≤ diff t.rcv.nxt g.seq
    · rw [if_pos h0]
      have hin := (diff_lt_iff hlen).mp ⟨h0, by omega⟩
      have hne : g.data.drop (diff t.rcv.nxt g.seq).toNat ≠ [] := by
        rw [ne_eq, List.drop_eq_nil_iff]
        omega
      by_cases hs : t.rcv.space = 0
      · obtain ⟨h1, h2, h3, h4, -⟩ := stored_same hs (g.data.drop (diff t.rcv.nxt g.seq).toNat)
        refine iff_of_true ((Quiet.of_core (by simp only [Tcb.core, h1, h2, h3, h4])).mp
          (inputEnd_quiet_iff.mpr fun h => ?_)) ⟨hc, fun _ _ => hs⟩
        have hn := h.2.2
        rw [h1] at hn
        rw [← hn, BitVec.add_comm, BitVec.add_sub_cancel, BitVec.toNat_ofNat] at hin
        omega
      · refine iff_of_false (fun hq => ?_) fun h => hs (h.2 (ho.closed (.inr hin)) hin)
        have hb := inputEnd_rcvBuf.symm.trans (congrArg Core.rcvBuf hq.1)
        have hcount : (t.rcv.push (g.data.drop (diff t.rcv.nxt g.seq).toNat)).1.drain.count =
          t.rcv.count :=
          congrArg (fun p => p.2.2) hb
        have := count_lt_stored hs hne
        omega
    · rw [if_neg h0]
      refine iff_of_true ?_ ⟨hc, fun _ h => absurd ((diff_lt_iff hlen).mpr h).1 h0⟩
      refine (Quiet.of_core ?_).mp sendAck_quiet
      unfold Rcv.oooInsert
      dsimp only
      split_ifs <;> rfl

theorem inputData_snd :
    (t.inputData e g).1.snd.una = t.snd.una ∧ (t.inputData e g).1.snd.wnd = t.snd.wnd ∧
    (t.state = .finWait2 → (t.inputData e g).1.state ≠ .finWait1) ∧
    (t.state = .closed → (t.inputData e g).1.state ≠ .lastAck) := by
  have hend : ∀ (t' : Tcb) ok, t'.snd = t.snd → t'.state = t.state →
    (t'.inputEnd e.now g ok).1.snd.una = t.snd.una ∧
      (t'.inputEnd e.now g ok).1.snd.wnd = t.snd.wnd ∧
      (t.state = .finWait2 → (t'.inputEnd e.now g ok).1.state ≠ .finWait1) ∧
      (t.state = .closed → (t'.inputEnd e.now g ok).1.state ≠ .lastAck) := by
    intro t' ok h1 h2
    unfold Tcb.inputEnd Tcb.inputFin
    dsimp only
    split_ifs <;> simp_all [sendAck_fst]
  unfold Tcb.inputData
  dsimp only
  split_ifs with h1 h2 h3 h4
  · simp
  · simp_all [sendAck_fst]
  · exact hend _ _ rfl rfl
  · simp_all [sendAck_fst]
  · exact hend _ _ rfl rfl

theorem dupAck_quiet {s : Snd} {now : Nat} {bare : Bool} :
    (s.dupAck now s.wnd bare).una = s.una ∧ (s.dupAck now s.wnd bare).wnd = s.wnd ∧
      (s.dupAck now s.wnd bare).buf = s.buf ∧ (s.dupAck now s.wnd bare).head = s.head ∧
      (s.dupAck now s.wnd bare).buflen = s.buflen ∧
      (s.dupAck now s.wnd bare).finAcked = s.finAcked := by
  unfold Snd.dupAck
  dsimp only
  rw [if_neg (not_not.mpr rfl)]
  split_ifs <;> exact ⟨rfl, rfl, rfl, rfl, rfl, rfl⟩

theorem dupAck_wnd {s : Snd} {now w : Nat} {bare : Bool} (h : w ≠ s.wnd) :
    (s.dupAck now w bare).wnd = w := by
  unfold Snd.dupAck
  dsimp only
  split_ifs <;> rfl

theorem inputAck_quiet {s : Snd} {now : Nat} (h : t.snd.inputAck now g = some s) :
    if ¬(0 < diff g.ack t.snd.una ∧ diff g.ack t.snd.smax ≤ 0) ∧
        (g.ack = t.snd.una → g.win.toNat * 2 ^ t.snd.wscale = t.snd.wnd)
    then ({ t with snd := s } : Tcb).core = t.core ∧ s.finAcked = t.snd.finAcked
    else s.una ≠ t.snd.una ∨ s.wnd ≠ t.snd.wnd := by
  unfold Snd.inputAck at h
  by_cases hack : 0 < diff g.ack t.snd.una ∧ diff g.ack t.snd.smax ≤ 0
  · rw [if_pos hack] at h
    rw [if_neg fun hc => hc.1 hack]
    refine .inl fun hc => ?_
    cases h
    have h0 := hack.1
    rw [show g.ack = t.snd.una from hc, Seq.diff_self] at h0
    exact lt_irrefl _ h0
  rw [if_neg hack] at h
  by_cases heq : g.ack = t.snd.una
  · rw [if_pos heq] at h
    cases h
    by_cases hw : g.win.toNat * 2 ^ t.snd.wscale = t.snd.wnd
    · rw [if_pos ⟨hack, fun _ => hw⟩, hw]
      obtain ⟨h1, h2, h3, h4, h5, h6⟩ := @dupAck_quiet t.snd now
        (decide (g.data = []) && !g.flags.syn && !g.flags.fin)
      exact ⟨by simp only [Tcb.core, h1, h2, h3, h4, h5], h6⟩
    · rw [if_neg fun hc => hw (hc.2 heq), dupAck_wnd hw]
      exact .inr hw
  · rw [if_neg heq] at h
    rw [if_pos ⟨hack, fun hc => absurd hc heq⟩]
    obtain rfl := Option.some.inj (Option.ite_none_left_eq_some.mp h).2
    exact ⟨rfl, rfl⟩

theorem finAckedState_quiet (t : Tcb) :
    if t.snd.finAcked = true ∧ (t.state = .finWait1 ∨ t.state = .lastAck)
    then t.state = .finWait1 ∧ t.finAckedState.state = .finWait2 ∨ t.state = .lastAck ∧
      t.finAckedState.state = .closed
    else t.finAckedState = t := by
  unfold Tcb.finAckedState
  cases t.snd.finAcked <;> cases hs : t.state <;> simp

theorem finAckedState_snd (t : Tcb) :
    t.finAckedState.snd.una = t.snd.una ∧ t.finAckedState.snd.wnd = t.snd.wnd := by
  unfold Tcb.finAckedState
  split_ifs
  · split <;> exact ⟨rfl, rfl⟩
  · exact ⟨rfl, rfl⟩

theorem inputAcked_quiet_iff (hlen : g.data.length < 2 ^ 31) (ho : g.Outside t.rcv) {s : Snd}
    (h : t.snd.inputAck e.now g = some s) :
    Quiet t ({ t with snd := s }.finAckedState.inputData e g) ↔ t.Known g ∧ t.Passes g := by
  have hs := inputAck_quiet h
  set t' : Tcb := { t with snd := s } with ht'
  have hkeep := inputData_snd (t := t'.finAckedState) (e := e) (g := g)
  have hsnd := finAckedState_snd t'
  split_ifs at hs with hk
  · have hfin := finAckedState_quiet t'
    split_ifs at hfin with hf
    · -- the state that the acknowledgement leads to is never left for the one before
      refine iff_of_false (fun hq => ?_) fun hc => hc.1.2.2 ⟨hs.2 ▸ hf.1, hf.2⟩
      have hst : (t'.finAckedState.inputData e g).1.state = t'.state := congrArg Core.state hq.1
      obtain ⟨h1, h2⟩ | ⟨h1, h2⟩ := hfin
      · exact hkeep.2.2.1 h2 (hst.trans h1)
      · exact hkeep.2.2.2 h2 (hst.trans h1)
    · rw [hfin, ← Quiet.of_core hs.1, inputData_quiet_iff (t := t') hlen ho]
      exact ⟨fun hp => ⟨⟨hk.1, hk.2, fun hc => hf ⟨hs.2.trans hc.1, hc.2⟩⟩, hp⟩, fun hp => hp.2⟩
  · refine iff_of_false (fun hq => ?_) fun hc => hk ⟨hc.1.1, hc.1.2.1⟩
    have h1 := congrArg Core.una hq.1
    have h2 := congrArg Core.wnd hq.1
    obtain hne | hne := hs
    · exact hne (hsnd.1.symm.trans (hkeep.1.symm.trans h1))
    · exact hne (hsnd.2.symm.trans (hkeep.2.1.symm.trans h2))

/-- When a segment outside the window changes nothing before the final send. -/
theorem input_quiet_iff (hst : t.state.Synced) (hlen : g.data.length < 2 ^ 31)
    (ho : g.Outside t.rcv) :
    Quiet t (t.input e g) ↔ g.flags.rst = false ∧ (g.flags.ack = true ∧ t.snd.Refused g.ack ∨
      (g.flags.ack = true → t.Known g) ∧ t.Passes g) := by
  have hstate : t.state ≠ .synSent ∧ t.state ≠ .synRcvd ∧
      t.state ≠ .closed ∧ t.state ≠ .listen := by
    obtain h | h | h | h | h := hst <;> simp [h]
  have hcore : ({ t with lastRxMs := e.now, kaProbes := 0 } : Tcb).core = t.core := rfl
  unfold Tcb.input
  by_cases hr : g.flags.rst = true
  · simp only [if_pos hr]
    refine iff_of_false (fun hq => ?_) fun hc => absurd (hr.symm.trans hc.1) (by decide)
    have hs : _ = t.state := congrArg Core.state hq.1
    unfold Tcb.inputRst at hs
    rw [if_neg fun hc => hstate.1 hc.1] at hs
    exact hstate.2.2.1 hs.symm
  simp only [hr, Bool.false_eq_true, if_false, if_neg hstate.1, if_neg hstate.2.1, true_and]
  unfold Tcb.inputSync
  simp only [if_neg (not_or.mpr hstate.2.2)]
  cases hack : g.flags.ack with
  | true =>
    simp only [if_true, true_and, true_implies]
    cases hin : t.snd.inputAck e.now g with
    | none =>
      exact iff_of_true ((Quiet.of_core hcore).mp sendAck_quiet) (.inl (inputAck_eq_none.mp hin))
    | some s =>
      have hnr : ¬t.snd.Refused g.ack := fun hc => by
        rw [inputAck_eq_none.mpr hc] at hin
        exact (nomatch hin)
      have hq := inputAcked_quiet_iff (t := { t with lastRxMs := e.now, kaProbes := 0 }) hlen ho hin
      exact ((Quiet.of_core hcore).symm.trans hq).trans ⟨.inr, fun hc => hc.resolve_left hnr⟩
  | false =>
    simp only [Bool.false_eq_true, if_false, false_and, false_or, false_implies, true_and]
    exact (Quiet.of_core hcore).symm.trans
      (inputData_quiet_iff (t := { t with lastRxMs := e.now, kaProbes := 0 }) hlen ho)

/-! The `tcp_try_send` at the end. -/

theorem Rcv.emit_ring (r : Rcv) (mss : Nat) (flags : Flags) : (r.emit mss flags).1.nxt = r.nxt ∧
    ((r.emit mss flags).1.buf, (r.emit mss flags).1.head, (r.emit mss flags).1.count) =
    (r.buf, r.head, r.count) := by
  unfold Rcv.emit
  dsimp only
  split_ifs <;> exact ⟨rfl, rfl⟩

def Snd.kept (s : Snd) : Seq × Nat × (Nat → Byte) × Nat × Nat :=
  (s.una, s.wnd, s.buf, s.head, s.buflen)

theorem room_kept (s : Snd) (now : Nat) : (s.room now).1.kept = s.kept := by
  unfold Snd.room
  dsimp only
  split_ifs <;> rfl

theorem sent_kept (s : Snd) (now n : Nat) : (s.sent now n).kept = s.kept := by
  unfold Snd.sent Snd.advanceMax
  dsimp only
  split_ifs <;> rfl

theorem finOut_kept (s : Snd) (now : Nat) : (s.finOut now).kept = s.kept := by
  unfold Snd.finOut Snd.advanceMax
  dsimp only
  split_ifs <;> rfl

theorem core_of_kept {s : Snd} {r : Rcv} (hs : s.kept = t.snd.kept) (hn : r.nxt = t.rcv.nxt)
    (hr : (r.buf, r.head, r.count) = (t.rcv.buf, t.rcv.head, t.rcv.count)) :
    ({ t with snd := s, rcv := r } : Tcb).core = t.core := by
  simp only [Snd.kept, Prod.mk.injEq] at hs
  simp only [Tcb.core, hs, hn, hr]

/-- Nothing to send in a turn with this much room. -/
def Snd.Nothing (s : Snd) (room : Nat) (mem : Bool) : Prop :=
  if s.segLen room = 0 then s.finDue = false else stackSeg < 20 + s.segLen room ∧ mem = false

/-- What a round of sending changes, and when it sends nothing. -/
theorem trySend_spec (t : Tcb) (now : Nat) (mem : Bool) : (t.trySend now mem).1.core = t.core ∧
    ((t.trySend now mem).2 = [] ↔ sendOpen t.state = true → t.reset = false →
      (t.snd.room now).1.Nothing (t.snd.room now).2 mem) ∧
    ∀ g ∈ (t.trySend now mem).2, ¬(g.flags = { ack := true } ∧ g.data = []) := by
  have hroom := room_kept t.snd now
  unfold Tcb.trySend
  by_cases hclosed : sendOpen t.state = false ∨ t.reset
  · rw [if_pos hclosed]
    refine ⟨rfl, iff_of_true rfl fun h1 h2 => ?_, by simp⟩
    simp [h1, h2] at hclosed
  rw [if_neg hclosed]
  obtain ⟨hopen, hreset⟩ : sendOpen t.state = true ∧ t.reset = false := by simpa using hclosed
  have hnow : ∀ P : Prop, (sendOpen t.state = true → t.reset = false → P) ↔ P :=
    fun P => ⟨fun h => h hopen hreset, fun h _ _ => h⟩
  rw [hnow, Snd.Nothing]
  dsimp only
  generalize (t.snd.room now).1 = s at hroom
  generalize (t.snd.room now).2 = room
  by_cases hn : s.segLen room ≠ 0
  · rw [if_pos hn, if_neg hn]
    by_cases hm : stackSeg < 20 + s.segLen room ∧ mem = false
    · rw [if_pos hm]
      exact ⟨core_of_kept hroom rfl rfl, iff_of_true rfl hm, by simp⟩
    · rw [if_neg hm]
      obtain ⟨hnxt, hring⟩ := Rcv.emit_ring t.rcv t.mss
        { ack := true, psh := s.segLen room = s.buflen - (s.nxt - s.una).toNat }
      refine ⟨core_of_kept ((sent_kept s now _).trans hroom) hnxt hring, iff_of_false (by simp) hm,
        fun g hg hq => hn ?_⟩
      obtain rfl := List.mem_singleton.mp hg
      have hlen := congrArg List.length (show Ring.get _ _ _ (s.segLen room) = [] from hq.2)
      rwa [Ring.length_get] at hlen
  · have hn := not_not.mp hn
    rw [if_neg (not_not.mpr hn), if_pos hn]
    cases hf : s.finDue with
    | false =>
      rw [if_neg Bool.false_ne_true]
      exact ⟨core_of_kept hroom rfl rfl, iff_of_true rfl rfl, by simp⟩
    | true =>
      rw [if_pos rfl]
      obtain ⟨hnxt, hring⟩ := Rcv.emit_ring t.rcv t.mss { ack := true, fin := true }
      refine ⟨core_of_kept ((finOut_kept s now).trans hroom) hnxt hring,
        iff_of_false (by simp) (by simp), fun g hg hq => ?_⟩
      rw [List.mem_singleton.mp hg] at hq
      cases congrArg Flags.fin hq.1

theorem trySendAll_spec (now : Nat) (mem : Bool) (fuel : Nat) (t : Tcb) :
    (t.trySendAll now mem fuel).1.core = t.core ∧
    ((t.trySend now mem).2 = [] → (t.trySendAll now mem fuel).2 = []) ∧
    ∀ g ∈ (t.trySendAll now mem fuel).2, ¬(g.flags = { ack := true } ∧ g.data = []) := by
  induction fuel generalizing t with
  | zero => exact ⟨rfl, fun _ => rfl, by simp [Tcb.trySendAll]⟩
  | succ fuel ih =>
    obtain ⟨hcore, -, hdata⟩ := trySend_spec t now mem
    rw [Tcb.trySendAll]
    rcases hsend : t.trySend now mem with ⟨t', _ | ⟨g, gs⟩⟩
    · rw [hsend] at hcore
      exact ⟨hcore, fun _ => rfl, by simp⟩
    · rw [hsend] at hcore hdata
      obtain ⟨hcore', -, hdata'⟩ := ih t'
      refine ⟨hcore'.trans hcore, fun h => by simp at h, fun g' hg => ?_⟩
      exact (List.mem_append.mp hg).elim (hdata g') (hdata' g')

theorem tcpInput_quiet_iff : Quiet t (t.tcpInput e g) ↔ Quiet t (t.input e g) ∧
    (t.inputSends e g = true → ((t.input e g).1.trySend e.now e.mem).2 = []) := by
  unfold Tcb.tcpInput
  cases hs : t.inputSends e g with
  | false => simp
  | true =>
    simp only [if_true, true_implies]
    generalize t.input e g = p
    obtain ⟨hcore, hnil, hdata⟩ := trySendAll_spec e.now e.mem (p.1.snd.buflen + 2) p.1
    constructor
    · rintro ⟨hc, hsent⟩
      have hnone : (p.1.trySendAll e.now e.mem (p.1.snd.buflen + 2)).2 = [] := by
        rcases hsent with h | ⟨s, h, hq⟩
        · exact (List.append_eq_nil_iff.mp h).2
        · rcases List.append_eq_singleton_iff.mp h with ⟨-, h⟩ | ⟨-, h⟩
          · exact absurd hq (hdata s (by rw [h]; exact List.mem_singleton_self s))
          · exact h
      refine ⟨⟨hcore.symm.trans hc, by rwa [hnone, List.append_nil] at hsent⟩, ?_⟩
      rw [Tcb.trySendAll] at hnone
      rcases hsend : p.1.trySend e.now e.mem with ⟨t', _ | ⟨g, gs⟩⟩
      · rfl
      · rw [hsend] at hnone
        simp at hnone
    · rintro ⟨⟨hc, hsent⟩, hsend⟩
      exact ⟨hcore.trans hc, by rwa [hnil hsend, List.append_nil]⟩

def Snd.recount (s : Snd) (dupacks retries : Nat) : Snd := { s with dupacks, retries }

theorem trySend_nil_congr {t' : Tcb} {now d r : Nat} {mem : Bool} (hst : t'.state = t.state)
    (hre : t'.reset = t.reset) (hs : t'.snd = t.snd.recount d r) :
    (t'.trySend now mem).2 = [] ↔ (t.trySend now mem).2 = [] := by
  have hroom : t'.snd.room now = ((t.snd.room now).1.recount d r, (t.snd.room now).2) := by
    rw [hs]
    unfold Snd.room Snd.recount
    dsimp only
    split_ifs <;> rfl
  rw [(trySend_spec t' now mem).2.1, (trySend_spec t now mem).2.1, hst, hre, hroom]
  exact Iff.rfl

theorem inputFin_state {now : Nat} (hok : dataOk t.state = true) :
    (t.inputFin now).state ≠ t.state := by
  unfold Tcb.inputFin
  dsimp only
  split_ifs with h
  · rw [h]
    exact fun hc => by cases hc
  all_goals
    intro ht
    rw [← show St.timeWait = t.state from ht] at hok
    cases hok

theorem inputEnd_keeps_snd {now : Nat}
    (hs : (t.inputEnd now g (dataOk t.state)).1.state = t.state) :
    (t.inputEnd now g (dataOk t.state)).1.snd = t.snd := by
  unfold Tcb.inputEnd at hs ⊢
  split_ifs at hs ⊢ with h1 h2
  · exact absurd hs (inputFin_state h1.2.1)
  · rfl
  · rfl

theorem inputData_keeps_snd (hq : Quiet t (t.inputData e g)) : (t.inputData e g).1.snd = t.snd := by
  have hs : (t.inputData e g).1.state = t.state := congrArg Core.state hq.1
  unfold Tcb.inputData at hq hs ⊢
  dsimp only at hq hs ⊢
  split_ifs at hq hs ⊢ with h1 h2 h3 h4
  · obtain ⟨s, hsent, hf, -⟩ := hq.2.resolve_left (by simp)
    obtain rfl : _ = s := List.head_eq_of_cons_eq hsent
    cases congrArg Flags.rst hf
  · rfl
  · exact inputEnd_keeps_snd (t := { t with rcv := _ }) hs
  · rfl
  · exact inputEnd_keeps_snd hs

theorem dupAck_counted {now : Nat} (hack : g.flags.ack = true) (heq : g.ack = t.snd.una) : ∃ d r,
    t.snd.dupAck now t.snd.wnd (decide (g.data = []) && !g.flags.syn && !g.flags.fin) =
      (t.snd.counted now g).recount d r := by
  have hthird : t.snd.ThirdDup g ↔ ((decide (g.data = []) && !g.flags.syn && !g.flags.fin) &&
      decide (t.snd.smax ≠ t.snd.una) && decide (t.snd.wnd ≠ 0)) = true ∧
          t.snd.dupacks + 1 = 3 := by
    simp [Snd.ThirdDup, hack, heq, and_assoc]
  unfold Snd.dupAck Snd.counted
  dsimp only
  rw [if_neg (not_not.mpr rfl)]
  by_cases hb : ((decide (g.data = []) && !g.flags.syn && !g.flags.fin) &&
      decide (t.snd.smax ≠ t.snd.una) && decide (t.snd.wnd ≠ 0)) = true
  · by_cases hd : t.snd.dupacks + 1 = 3
    · rw [if_pos hb, if_pos hd, if_pos (hthird.mpr ⟨hb, hd⟩)]
      split_ifs <;> exact ⟨_, _, rfl⟩
    · rw [if_pos hb, if_neg hd, if_neg fun hc => hd (hthird.mp hc).2]
      split_ifs <;> exact ⟨_, _, rfl⟩
  · rw [if_neg hb, if_neg fun hc => hb (hthird.mp hc).1]
    split_ifs <;> exact ⟨_, _, rfl⟩

theorem inputAck_counted {s : Snd} {now : Nat} (hack : g.flags.ack = true) (hk : t.Known g)
    (h : t.snd.inputAck now g = some s) : ∃ d r, s = (t.snd.counted now g).recount d r := by
  obtain ⟨hnew, hwnd, -⟩ := hk
  unfold Snd.inputAck at h
  rw [if_neg hnew] at h
  by_cases heq : g.ack = t.snd.una
  · rw [if_pos heq, hwnd heq] at h
    obtain rfl := Option.some.inj h
    exact dupAck_counted hack heq
  · rw [if_neg heq] at h
    obtain rfl := Option.some.inj (Option.ite_none_left_eq_some.mp h).2
    rw [Snd.counted, if_neg fun hc => heq hc.2.1]
    exact ⟨_, _, rfl⟩

theorem inputSends_refused (hst : t.state.Synced) (hack : g.flags.ack = true)
    (hr : t.snd.Refused g.ack) :
    t.inputSends e g = false := by
  have hstate : t.state ≠ .synRcvd := by
    obtain h | h | h | h | h := hst <;> simp [h]
  unfold Tcb.inputSends Tcb.syncSends
  simp only [if_neg hstate, hack, if_true, inputAck_eq_none.mpr hr]
  split_ifs <;> rfl

theorem input_sends (hst : t.state.Synced) (hr : g.flags.rst = false)
    (hk : g.flags.ack = true → t.Known g) (hnr : g.flags.ack = true → ¬t.snd.Refused g.ack)
    (hq : Quiet t (t.input e g)) :
    t.inputSends e g = t.dataSends g ∧ ∃ d r,
      (t.input e g).1.snd = (t.snd.counted e.now g).recount d r := by
  have hstate : t.state ≠ .synSent ∧ t.state ≠ .synRcvd ∧ t.state ≠ .closed ∧
      t.state ≠ .listen := by
    obtain h | h | h | h | h := hst <;> simp [h]
  unfold Tcb.input Tcb.inputSync at hq ⊢
  unfold Tcb.inputSends Tcb.syncSends
  simp only [hr, Bool.false_eq_true, if_false, false_or, if_neg hstate.1, if_neg hstate.2.1,
    if_neg (not_or.mpr hstate.2.2)] at hq ⊢
  cases hack : g.flags.ack with
  | true =>
    simp only [hack, if_true] at hq ⊢
    cases hin : t.snd.inputAck e.now g with
    | none => exact absurd (inputAck_eq_none.mp hin) (hnr hack)
    | some s =>
      simp only [hin] at hq ⊢
      have hkn := hk hack
      have hsame := inputAck_quiet hin
      rw [if_pos ⟨hkn.1, hkn.2.1⟩] at hsame
      have hno : ∀ t' : Tcb, t'.snd = s → t'.state = t.state → t'.finAckedState = t' := by
        intro t' h1 h2
        have hf := finAckedState_quiet t'
        rwa [if_neg] at hf
        rw [h1, h2, hsame.2]
        exact hkn.2.2
      have hstay := hno { t with lastRxMs := e.now, kaProbes := 0, snd := s } rfl rfl
      rw [hstay] at hq
      rw [hstay, hno { t with snd := s } rfl rfl]
      refine ⟨rfl, ?_⟩
      have hcore : ({ t with lastRxMs := e.now, kaProbes := 0, snd := s } : Tcb).core = t.core :=
        hsame.1
      rw [inputData_keeps_snd ((Quiet.of_core hcore).mpr hq)]
      exact inputAck_counted hack hkn hin
  | false =>
    simp only [hack, Bool.false_eq_true, if_false] at hq ⊢
    refine ⟨trivial, t.snd.dupacks, t.snd.retries, ?_⟩
    have hno : ¬t.snd.ThirdDup g := fun hc => Bool.false_ne_true (hack.symm.trans hc.1)
    rw [Snd.counted, if_neg hno]
    exact inputData_keeps_snd hq

/-- A segment that lies outside the window leaves a connection alone exactly when it is no
reset, and either acknowledges what was never sent, or brings a known acknowledgement and window
and data that are not taken, and finds nothing that could be sent. -/
theorem outside_quiet_iff (t : Tcb) (e : Env) (g : Segment) (hst : t.state.Synced)
    (hlen : g.data.length < 2 ^ 31) (ho : g.Outside t.rcv) :
    Quiet t (t.tcpInput e g) ↔ t.Harmless e g := by
  rw [tcpInput_quiet_iff]
  have hquiet := input_quiet_iff (e := e) hst hlen ho
  have hsilent : ∀ hq : Quiet t (t.input e g), (g.flags.ack = true → t.Known g) →
      (g.flags.ack = true → ¬t.snd.Refused g.ack) →
      ((t.inputSends e g = true → ((t.input e g).1.trySend e.now e.mem).2 = []) ↔
        (t.dataSends g = true → t.Silent e g)) := by
    intro hq hk hnr
    obtain ⟨hsends, d, r, hsnd⟩ := input_sends hst (hquiet.mp hq).1 hk hnr hq
    rw [hsends, Tcb.Silent, trySend_nil_congr (t := { t with snd := t.snd.counted e.now g })
      (congrArg Core.state hq.1) (congrArg Core.reset hq.1) hsnd]
  by_cases href : g.flags.ack = true ∧ t.snd.Refused g.ack
  · have hnone := inputSends_refused (e := e) hst href.1 href.2
    rw [hquiet, hnone]
    exact ⟨fun h => ⟨h.1.1, .inl href⟩, fun h =>
      ⟨⟨h.1, .inl href⟩, fun hc => absurd hc Bool.false_ne_true⟩⟩
  · have hnr : g.flags.ack = true → ¬t.snd.Refused g.ack := fun h1 h2 => href ⟨h1, h2⟩
    constructor
    · rintro ⟨hq, hs⟩
      obtain ⟨hr, hk, hp⟩ := (hquiet.mp hq).imp_right (Or.resolve_left · href)
      exact ⟨hr, .inr ⟨hk, hp, (hsilent hq hk hnr).mp hs⟩⟩
    · rintro ⟨hr, hc⟩
      obtain ⟨hk, hp, hs⟩ := hc.resolve_left href
      have hq := hquiet.mpr ⟨hr, .inr ⟨hk, hp⟩⟩
      exact ⟨hq, (hsilent hq hk hnr).mpr hs⟩

def bareSegment (seq : Seq) (flags : Flags) (win : BitVec 16) : Segment :=
  ⟨seq, 1, flags, win, [], []⟩

theorem outside_quiet_iff_known :
    Quiet expecting (expecting.tcpInput ⟨1, true, false⟩ (bareSegment 5 { ack := true } 1000)) :=
  (outside_quiet_iff expecting ⟨1, true, false⟩ (bareSegment 5 { ack := true } 1000)
    (.inl (by decide)) (by decide)
    ⟨by decide, fun i hi => absurd hi (Nat.not_lt_zero i)⟩).mpr
    ⟨rfl, .inr ⟨fun _ => ⟨by decide, by decide, by decide⟩, (fun _ => by decide), fun _ => rfl⟩⟩

/-- A reset from long ago closes the connection, and a window from long ago is taken. -/
theorem outside_taken : (bareSegment 5 { rst := true } 0).Outside expecting.rcv ∧
    (expecting.tcpInput ⟨1, true, false⟩ (bareSegment 5 { rst := true } 0)).1.state = .closed ∧
    (bareSegment 5 { ack := true } 7).Outside expecting.rcv ∧ expecting.snd.wnd = 1000 ∧
    (expecting.tcpInput ⟨1, true, false⟩ (bareSegment 5 { ack := true } 7)).1.snd.wnd = 7 :=
  ⟨⟨by decide, fun i hi => absurd hi (Nat.not_lt_zero i)⟩, by decide,
    ⟨by decide, fun i hi => absurd hi (Nat.not_lt_zero i)⟩, by decide, by decide⟩

end Cervus.Tcp
