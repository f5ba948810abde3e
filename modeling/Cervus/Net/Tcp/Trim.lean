import Cervus.Net.Tcp.Window

/-! A segment whose first bytes have been received before, against the same segment without them. -/

namespace Cervus.Tcp

open List Cervus.Seq

def Segment.trim (g : Segment) (k : Nat) : Segment :=
  { g with seq := g.seq + BitVec.ofNat 32 k, data := g.data.drop k }

structure Received where
  nxt : Seq
  bytes : List Byte
  ooo : List Ooo
  finSeen : Bool
  state : St

def Tcb.received (t : Tcb) : Received where
  nxt := t.rcv.nxt
  bytes := Ring.get t.rcv.size t.rcv.buf t.rcv.head t.rcv.count
  ooo := t.rcv.ooo
  finSeen := t.rcv.finSeen
  state := t.state

variable {t : Tcb} {e : Env} {g : Segment} {k : Nat}

theorem sendAck_received : t.sendAck.1.received = t.received := by
  rw [sendAck_fst, Rcv.emit]
  split_ifs <;> rfl

/-- The acknowledgement of a segment is of data that were never sent. -/
def Snd.Refused (s : Snd) (ack : Seq) : Prop := ack ≠ s.una ∧ 0 < diff ack s.smax

theorem inputAck_eq_none {s : Snd} {now : Nat} : s.inputAck now g = none ↔ s.Refused g.ack := by
  unfold Snd.inputAck Snd.Refused
  split_ifs with h1 h2 h3
  · exact iff_of_false id fun hc => not_le.mpr hc.2 h1.2
  · exact iff_of_false id fun hc => hc.1 h2
  · exact iff_of_true rfl ⟨h2, h3⟩
  · exact iff_of_false id fun hc => h3 hc.2

theorem inputAck_trim {s : Snd} {now : Nat} (hk : k < g.data.length) :
    s.inputAck now (g.trim k) = s.inputAck now g := by
  have hd : decide ((g.trim k).data = []) = decide (g.data = []) := by
    refine decide_eq_decide.mpr (iff_of_false (fun hc => ?_) fun hc => ?_)
    · have := drop_eq_nil_iff.mp hc
      omega
    · rw [hc] at hk
      exact Nat.not_lt_zero _ hk
  unfold Snd.inputAck
  rw [hd]
  rfl

def Tcb.heard (t : Tcb) (e : Env) (g : Segment) : Tcb :=
  { t with
    lastRxMs := e.now, kaProbes := 0
    snd := if g.flags.ack then (t.snd.inputAck e.now g).getD t.snd else t.snd }

theorem heard_trim (hk : k < g.data.length) : t.heard e (g.trim k) = t.heard e g := by
  unfold Tcb.heard
  rw [inputAck_trim hk]
  rfl

theorem input_established (hest : t.state = .established) (hrst : g.flags.rst = false) :
    (g.flags.ack = true ∧ t.snd.Refused g.ack →
    t.input e g = ({ t with lastRxMs := e.now, kaProbes := 0 } : Tcb).sendAck) ∧
      (¬(g.flags.ack = true ∧ t.snd.Refused g.ack) →
      t.input e g = (t.heard e g).inputData e g) := by
  have hstate : ∀ st, st ≠ St.established → t.state ≠ st := fun st h hc => h (hc.symm.trans hest)
  unfold Tcb.input Tcb.heard
  simp only [hrst, Bool.false_eq_true, if_false, if_neg (hstate .synSent (by decide)),
    if_neg (hstate .synRcvd (by decide))]
  unfold Tcb.inputSync
  rw [if_neg (not_or.mpr ⟨hstate .closed (by decide), hstate .listen (by decide)⟩)]
  by_cases hack : g.flags.ack = true
  · simp only [if_pos hack]
    cases hin : t.snd.inputAck e.now g with
    | none => exact ⟨fun _ => rfl, fun hno => absurd ⟨hack, inputAck_eq_none.mp hin⟩ hno⟩
    | some s =>
      refine ⟨fun hc => ?_, fun _ => ?_⟩
      · rw [inputAck_eq_none.mpr hc.2] at hin
        exact (nomatch hin)
      · -- only a connection that is being closed looks at the acknowledgement of its end
        have hfin : ({ t with lastRxMs := e.now, kaProbes := 0, snd := s } : Tcb).finAckedState =
            { t with lastRxMs := e.now, kaProbes := 0, snd := s } := by
          unfold Tcb.finAckedState
          simp only [hest]
          split_ifs <;> rfl
        exact congrArg (fun u => Tcb.inputData u e g) hfin
  · simp only [if_neg hack]
    exact ⟨fun hc => absurd hc.1 hack, fun _ => trivial⟩

/-! ## The data of the segment -/

section Data

variable (hest : t.state = .established) (hlen : g.data.length < 2 ^ 31)
    (hseq : g.seq + BitVec.ofNat 32 k = t.rcv.nxt)

theorem diff_of_seq (hseq : g.seq + BitVec.ofNat 32 k = t.rcv.nxt) (hk : k < 2 ^ 31) :
    diff t.rcv.nxt g.seq = k := by
  rw [← hseq, Seq.diff_add_left, Seq.diff_self, zero_add]
  · rw [Seq.diff_self]
    omega
  · rw [Seq.diff_self]
    omega

include hest

theorem inputData_next {g : Segment} (hne : g.data ≠ []) (h0 : 0 ≤ diff t.rcv.nxt g.seq)
    (hlt : diff t.rcv.nxt g.seq < g.data.length) : t.inputData e g =
      { t with rcv := (t.rcv.push (g.data.drop (diff t.rcv.nxt g.seq).toNat)).1.drain }.inputEnd
        e.now g true := by
  have hok : dataOk t.state = true := by rw [hest]; rfl
  unfold Tcb.inputData
  rw [hok, if_neg fun hc => hc.2.2.2 hest, if_pos ⟨hne, rfl⟩, if_neg (not_le.mpr hlt), if_pos h0]

include hlen hseq

theorem inputData_trim (hk : k < g.data.length) : t.inputData e (g.trim k) = t.inputData e g := by
  have hdrop : (g.trim k).data.length = g.data.length - k := length_drop
  have hnext : (g.trim k).seq + BitVec.ofNat 32 (g.trim k).data.length = g.seq +
      BitVec.ofNat 32 g.data.length := by
    rw [hdrop, Segment.trim, BitVec.add_assoc, ← BitVec.ofNat_add, Nat.add_sub_cancel' hk.le]
  have hne : g.data ≠ [] := ne_nil_of_length_pos (by omega)
  have hne' : (g.trim k).data ≠ [] := ne_nil_of_length_pos (by omega)
  have hoff := diff_of_seq hseq (by omega)
  have hoff' : diff t.rcv.nxt (g.trim k).seq = 0 := by
    rw [show (g.trim k).seq = t.rcv.nxt from hseq, Seq.diff_self]
  rw [inputData_next hest hne (by omega) (by omega), inputData_next hest hne' (by omega) (by omega),
    hoff, hoff']
  unfold Tcb.inputEnd
  rw [hnext, if_pos hne, if_pos hne']
  rfl

theorem inputData_old (hk : k = g.data.length) (hpos : 0 < k) : t.inputData e g = t.sendAck := by
  have hne : g.data ≠ [] := ne_nil_of_length_pos (by omega)
  have hoff := diff_of_seq hseq (by omega)
  have hok : dataOk t.state = true := by rw [hest]; rfl
  unfold Tcb.inputData
  rw [hok, if_neg fun hc => hc.2.2.2 hest, if_pos ⟨hne, rfl⟩, if_pos (by omega)]

omit hlen in
theorem inputData_trim_all (hk : k = g.data.length) :
    t.inputData e (g.trim k) = if g.flags.fin then (t.inputFin e.now).sendAck else (t, []) := by
  have hnil : (g.trim k).data = [] := drop_eq_nil_of_le hk.ge
  have hok : dataOk t.state = true := by rw [hest]; rfl
  unfold Tcb.inputData Tcb.inputEnd
  have hnext : (g.trim k).seq + BitVec.ofNat 32 ([] : List Byte).length = t.rcv.nxt := by
    exact (BitVec.add_zero _).trans hseq
  simp only [hok, hnil, hnext, ne_eq, not_true_eq_false, false_and, if_false, and_self, and_true]
  rfl

end Data

theorem trim_zero : g.trim 0 = g := by
  unfold Segment.trim
  rw [show g.seq + BitVec.ofNat 32 0 = g.seq from BitVec.add_zero _, drop_zero]

theorem inputFin_received_ne {now : Nat} : (t.inputFin now).received ≠ t.received := by
  intro hc
  have hnxt : (t.inputFin now).rcv.nxt = t.rcv.nxt + 1 := by
    unfold Tcb.inputFin
    dsimp only
    split_ifs <;> rfl
  have := congrArg Received.nxt hc
  rw [show (t.inputFin now).received.nxt = _ from hnxt] at this
  exact absurd this (by
    show ¬ t.rcv.nxt + 1 = t.rcv.nxt
    bv_omega)

/-- The old bytes of a segment can be cut off exactly when they are not all that the segment has
before the end of the stream. -/
theorem trim_iff (hest : t.state = .established) (e : Env) (hk : k ≤ g.data.length)
    (hlen : g.data.length < 2 ^ 31) (hseq : g.seq + BitVec.ofNat 32 k = t.rcv.nxt) :
    (t.input e (g.trim k)).1.received = (t.input e g).1.received ↔
      ¬(0 < k ∧ k = g.data.length ∧ g.flags.fin = true ∧ g.flags.rst = false ∧
      ¬(g.flags.ack = true ∧ t.snd.Refused g.ack)) := by
  by_cases hrst : g.flags.rst = true
  · refine iff_of_true ?_ fun hc => ?_
    · unfold Tcb.input
      rw [if_pos hrst, if_pos (show (g.trim k).flags.rst = true from hrst)]
      rfl
    · rw [hrst] at hc
      exact Bool.noConfusion hc.2.2.2.1
  rw [Bool.not_eq_true] at hrst
  have hwhole := input_established (g := g) (e := e) hest hrst
  have hcut := input_established (g := g.trim k) (e := e) hest hrst
  by_cases hno : g.flags.ack = true ∧ t.snd.Refused g.ack
  · exact iff_of_true (by rw [hcut.1 hno, hwhole.1 hno]) fun hc => hc.2.2.2.2 hno
  rw [hcut.2 hno, hwhole.2 hno]
  rcases hk.lt_or_eq with hlt | hall
  · refine iff_of_true ?_ fun hc => hlt.ne hc.2.1
    rw [heard_trim hlt, inputData_trim (t := t.heard e g) hest hlen hseq hlt]
  by_cases hpos : 0 < k
  · rw [inputData_old (t := t.heard e g) hest hlen hseq hall hpos,
      inputData_trim_all (t := t.heard e (g.trim k)) hest hseq hall, sendAck_received]
    split_ifs with hfin
    · rw [sendAck_received]
      exact iff_of_false inputFin_received_ne (not_not.mpr ⟨hpos, hall, hfin, hrst, hno⟩)
    · exact iff_of_true rfl fun hc => hfin hc.2.2.1
  · obtain rfl : k = 0 := by omega
    rw [trim_zero]
    exact iff_of_true rfl fun hc => hpos hc.1

def expecting : Tcb := (opened.1.input ⟨0, true, false⟩ synAck).1

def lastBytes (seq : Seq) : Segment := ⟨seq, 1, { ack := true, fin := true }, 1000, [], [1, 2, 3]⟩

theorem trim_iff_two : (expecting.input ⟨1, true, false⟩ ((lastBytes 99).trim 2)).1.received =
    (expecting.input ⟨1, true, false⟩ (lastBytes 99)).1.received :=
  (trim_iff (k := 2) (show expecting.state = .established by decide) ⟨1, true, false⟩ (by decide)
    (by decide) (by decide)).mpr
    fun hc => absurd hc.2.1 (by decide)

/-- The three bytes are old: the end of the stream is taken only without them. -/
theorem trim_loses_fin : (lastBytes 98).seq + BitVec.ofNat 32 3 = expecting.rcv.nxt ∧
    (expecting.input ⟨1, true, false⟩ (lastBytes 98)).1.state = .established ∧
    (expecting.input ⟨1, true, false⟩ ((lastBytes 98).trim 3)).1.state = .closeWait := by
  decide

end Cervus.Tcp
