import Cervus.Net.Tcp.Window

/-! The right edge that the acknowledgements of a connection carry. It moves to the left when
what is still offered is no multiple of the unit of the window and, rounded up to one, does not
fit the buffer; then it is pinched. -/

namespace Cervus.Tcp

open List Cervus.Seq

def Rcv.keep (r : Rcv) : Nat := ahead r.adv r.nxt

def Rcv.avail (r : Rcv) (mss : Nat) : Nat :=
  if r.window < r.cap / 2 ∧ r.window < mss then 0 else r.window

def Rcv.ackWin (r : Rcv) (mss : Nat) : Nat :=
  let k := if r.space < (r.keep + r.unit - 1) / r.unit * r.unit then r.keep / r.unit
    else (r.keep + r.unit - 1) / r.unit
  min (max (r.avail mss / r.unit) k) 65535

def Rcv.Pinched (r : Rcv) (mss : Nat) : Prop :=
  r.space < (r.keep + r.unit - 1) / r.unit * r.unit ∧ r.keep % r.unit ≠ 0 ∧
    r.avail mss / r.unit ≤ r.keep / r.unit

instance (r : Rcv) (mss : Nat) : Decidable (r.Pinched mss) :=
  inferInstanceAs (Decidable (_ ∧ _ ∧ _))

variable {r : Rcv} {mss : Nat} {flags : Flags}

theorem emit_plain (h1 : flags.ack = true) (h2 : flags.syn = false) (h3 : flags.rst = false) :
    r.emit mss flags = (if 0 < diff (r.nxt + BitVec.ofNat 32 (r.ackWin mss * r.unit)) r.adv then
      { r with adv := r.nxt + BitVec.ofNat 32 (r.ackWin mss * r.unit) } else r, r.ackWin mss) := by
  unfold Rcv.emit Rcv.ackWin Rcv.avail Rcv.unit Rcv.keep
  simp only [h1, h2, h3, Bool.false_eq_true, if_false, true_and]

theorem ceil_div (a : Nat) {u : Nat} (hu : 0 < u) :
    (a + u - 1) / u = a / u + if a % u = 0 then 0 else 1 := by
  have hdm := Nat.div_add_mod a u
  have hlt := Nat.mod_lt a hu
  split_ifs with h0
  · rw [add_zero]
    refine Nat.div_eq_of_lt_le ?_ ?_
    · rw [mul_comm]
      omega
    · rw [Nat.add_mul, mul_comm]
      omega
  · refine Nat.div_eq_of_lt_le ?_ ?_
    · rw [Nat.add_mul, mul_comm]
      omega
    · rw [Nat.add_mul, Nat.add_mul, mul_comm]
      omega

/-- The window that an ACK offers covers the last offer unless it is pinched. -/
theorem keep_le_ackWin_iff (mss : Nat) (hk : r.keep ≤ 65535 * r.unit) :
    r.keep ≤ r.ackWin mss * r.unit ↔ ¬ r.Pinched mss := by
  have hu := r.unit_pos
  unfold Rcv.ackWin Rcv.Pinched
  generalize r.keep = keep at *
  generalize r.unit = unit at *
  generalize r.avail mss / unit = a
  rw [ceil_div keep hu]
  have hdm := Nat.div_add_mod keep unit
  generalize hq : keep / unit = q at *
  generalize hm : keep % unit = m at *
  -- the smallest number of units that holds the offer
  have hmin : ∀ w, keep ≤ w * unit ↔ q + (if m = 0 then 0 else 1) ≤ w := by
    intro w
    split_ifs with h0
    · rw [add_zero, ← hdm, h0, add_zero, mul_comm]
      exact Nat.mul_le_mul_right_iff hu
    · rw [Nat.succ_le_iff, ← hq, Nat.div_lt_iff_lt_mul hu]
      constructor
      · intro hle
        refine lt_of_le_of_ne hle fun he => h0 ?_
        rw [← hm, he, Nat.mul_mod_left]
      · exact fun hlt => hlt.le
  have hcap : q + (if m = 0 then 0 else 1) ≤ 65535 := (hmin 65535).mp hk
  rw [hmin]
  by_cases hfit : r.space < (q + if m = 0 then 0 else 1) * unit
  · rw [if_pos hfit]
    by_cases h0 : m = 0
    · rw [if_pos h0] at hcap ⊢
      simp only [h0, ne_eq, not_true_eq_false, false_and, and_false, not_false_eq_true, iff_true]
      omega
    · rw [if_neg h0] at hcap hfit ⊢
      simp only [hfit, h0, ne_eq, not_false_eq_true, true_and]
      omega
  · rw [if_neg hfit]
    refine iff_of_true ?_ fun hc => hfit hc.1
    dsimp only
    omega

theorem Rcv.Room.keep_le (h : r.Room) : r.keep ≤ 65535 * r.unit := by
  have := h.told
  have := ahead_eq (a := r.adv) (b := r.nxt)
  rw [Rcv.lead] at *
  rw [Rcv.keep]
  omega

theorem Rcv.Room.edge (h : r.Room) (mss : Nat) (h1 : flags.ack = true) (h2 : flags.syn = false)
    (h3 : flags.rst = false) :
    (r.emit mss flags).2 ≤ 65535 ∧
    (¬ r.Pinched mss → (r.emit mss flags).1 =
    { r with adv := r.nxt + BitVec.ofNat 32 ((r.emit mss flags).2 * r.unit) } ∧
      0 ≤ diff (r.nxt + BitVec.ofNat 32 ((r.emit mss flags).2 * r.unit)) r.adv) := by
  rw [emit_plain h1 h2 h3]
  dsimp only
  have hwin : r.ackWin mss ≤ 65535 := min_le_right _ _
  have hunit : r.unit ≤ 2 ^ 14 := Nat.pow_le_pow_right (by decide) h.scale
  have hmul : r.ackWin mss * r.unit ≤ 65535 * 2 ^ 14 := Nat.mul_le_mul hwin hunit
  have hk := keep_le_ackWin_iff mss h.keep_le
  have ha := ahead_eq (a := r.adv) (b := r.nxt)
  have hlt := h.space_lt
  have hl1 := h.lead_ge
  have hl2 := h.lead_le
  have hc : diff r.nxt r.adv = -r.lead := Seq.diff_comm (by rw [Rcv.lead] at hl1; omega)
  have hdiff : diff (r.nxt + BitVec.ofNat 32 (r.ackWin mss * r.unit)) r.adv = r.ackWin mss *
      r.unit - r.lead := by
    rw [Seq.diff_add_left (by rw [hc]; omega) (by rw [hc]; omega), hc]
    omega
  rw [Rcv.keep] at hk
  rw [← Rcv.lead] at ha
  refine ⟨hwin, fun hp => ⟨?_, ?_⟩⟩
  · have := hk.mpr hp
    by_cases hpos : 0 < diff (r.nxt + BitVec.ofNat 32 (r.ackWin mss * r.unit)) r.adv
    · rw [if_pos hpos]
    · have hzero : diff (r.nxt + BitVec.ofNat 32 (r.ackWin mss * r.unit)) r.adv = 0 := by omega
      have hadv := Seq.eq_add_diff (r.nxt + BitVec.ofNat 32 (r.ackWin mss * r.unit)) r.adv
      rw [hzero] at hadv
      rw [if_neg hpos, hadv.trans (BitVec.add_zero _)]
  · have := hk.mpr hp
    omega

/-! ## When it is pinched -/

theorem emit_adv (h : flags.ack = false ∨ flags.rst = true) : (r.emit mss flags).1 = r := by
  unfold Rcv.emit
  refine if_neg fun hc => ?_
  rcases h with h | h
  · rw [h] at hc
    exact Bool.noConfusion hc.1
  · rw [h] at hc
    exact Bool.noConfusion hc.2.1

theorem Rcv.keep_eq (r : Rcv) : (r.keep : Int) = max r.lead 0 := ahead_eq

theorem not_pinched_of_level (h : r.keep % r.unit = 0) : ¬r.Pinched mss := fun hp => hp.2.1 h

theorem not_pinched_of_adv (h : r.adv = r.nxt) : ¬r.Pinched mss := by
  refine not_pinched_of_level ?_
  have hk := r.keep_eq
  rw [Rcv.lead, h, Seq.diff_self] at hk
  rw [show r.keep = 0 by omega, Nat.zero_mod]

theorem not_pinched_of_room (h : r.keep + r.unit ≤ r.space + 1) : ¬r.Pinched mss := by
  intro hp
  have hle := Nat.div_mul_le_self (r.keep + r.unit - 1) r.unit
  have hlt := hp.1
  omega

/-- Storing bytes uses up as much of the offer as of the space. -/
theorem Rcv.Moved.not_pinched {b : Prop} {r₀ : Rcv} (hm : Rcv.Moved b r₀ r)
    (h : r₀.keep + r₀.unit ≤ r₀.space + 1) :
    ¬r.Pinched mss := by
  have hgap := hm.gap
  have hk₀ := r₀.keep_eq
  have hk := r.keep_eq
  have hunit : r.unit = r₀.unit := by rw [Rcv.unit, Rcv.unit, hm.wscale]
  simp only [Rcv.gap] at hgap
  rcases le_or_gt r.lead 0 with h0 | h0
  · have hz : r.keep = 0 := by omega
    exact not_pinched_of_level (by rw [hz, Nat.zero_mod])
  · exact not_pinched_of_room (by omega)

theorem Rcv.avail_mono {r₀ : Rcv} (hcap : r.cap = r₀.cap) (h : r.count ≤ r₀.count) (mss : Nat) :
    r₀.avail mss ≤ r.avail mss := by
  have hw : r₀.window ≤ r.window := by
    simp only [Rcv.window, hcap]
    split_ifs <;> omega
  simp only [Rcv.avail, hcap]
  split_ifs <;> omega

/-- Taking bytes pinches nothing. -/
theorem Rcv.Moved.pinched {b : Prop} {r₀ : Rcv} (hm : Rcv.Moved b r₀ r) (hb : ¬b) (h₀ : r₀.Sized)
    (h : r.Sized) (hp : r.Pinched mss) : r₀.Pinched mss := by
  have hunit : r.unit = r₀.unit := by rw [Rcv.unit, Rcv.unit, hm.wscale]
  have hlead : r.lead = r₀.lead := by rw [Rcv.lead, Rcv.lead, hm.adv, hm.nxt hb]
  have hkeep : r.keep = r₀.keep := by rw [Rcv.keep, Rcv.keep, hm.adv, hm.nxt hb]
  have hgap := hm.gap
  have hsize : r.size = r₀.size := by rw [h.size, h₀.size, hm.cap]
  have hcount : r.count ≤ r₀.count ∧ r₀.space ≤ r.space := by
    have := h.count
    have := h₀.count
    simp only [Rcv.gap, hlead, Rcv.space] at hgap ⊢
    omega
  obtain ⟨h1, h2, h3⟩ := hp
  rw [hunit, hkeep] at h1 h2 h3
  exact ⟨lt_of_le_of_lt hcount.2 h1, h2,
    (Nat.div_le_div_right (Rcv.avail_mono hm.cap hcount.1 mss)).trans h3⟩

theorem keep_offer (r : Rcv) {n : Nat} (hn : n < 2 ^ 31) :
    ({ r with adv := r.nxt + BitVec.ofNat 32 n } : Rcv).keep = n := by
  have hk := ({ r with adv := r.nxt + BitVec.ofNat 32 n } : Rcv).keep_eq
  rw [Rcv.lead, diff_nxt_add r hn] at hk
  omega

/-- The window of a SYN is not scaled. -/
theorem emit_syn (hsyn : flags.syn = true) : (r.emit mss flags).1 = r ∨
    (r.emit mss flags).1 = { r with adv := r.nxt + BitVec.ofNat 32 (min r.window 65535) } := by
  simp only [Rcv.emit, hsyn, Bool.true_eq_false, false_and, if_false, if_true]
  split_ifs
  · exact .inr rfl
  · exact .inl rfl

theorem Rcv.Sized.offer_not_pinched (h : r.Sized) (hu : r.unit ≤ rcvSlack) :
    ¬({ r with adv := r.nxt + BitVec.ofNat 32 (min r.window 65535) } : Rcv).Pinched mss := by
  have hlt : min r.window 65535 < 2 ^ 31 := lt_of_le_of_lt (min_le_right _ _) (by decide)
  have hk := keep_offer r hlt
  by_cases hw : r.window = 0
  · refine not_pinched_of_level ?_
    rw [hk, hw, Nat.zero_min, Nat.zero_mod]
  · refine not_pinched_of_room ?_
    have hsize := h.size
    rw [hk]
    show min r.window 65535 + r.unit ≤ r.space + 1
    simp only [Rcv.window, Rcv.space] at hw ⊢
    split_ifs at hw ⊢ <;> omega

theorem Rcv.Room.emit_not_pinched (h : r.Room) (hu : r.unit ≤ rcvSlack) (hno : ¬r.Pinched mss)
    (flags : Flags) :
    ¬(r.emit mss flags).1.Pinched mss := by
  by_cases hq : flags.ack = false ∨ flags.rst = true
  · rwa [emit_adv hq]
  obtain ⟨hack, hrst⟩ : flags.ack = true ∧ flags.rst = false := by simpa using hq
  cases hsyn : flags.syn with
  | false =>
    obtain ⟨hle, hedge⟩ := h.edge mss hack hsyn hrst
    have hmul : (r.emit mss flags).2 * r.unit ≤ 65535 * rcvSlack := Nat.mul_le_mul hle hu
    rw [(hedge hno).1]
    refine not_pinched_of_level ?_
    rw [keep_offer r (lt_of_le_of_lt hmul (by decide))]
    exact Nat.mul_mod_left _ _
  | true =>
    rcases emit_syn hsyn with he | he
    · rwa [he]
    · rw [he]
      exact h.toSized.offer_not_pinched hu

/-! ## The edges of a run -/

def World.edges (w : World) : List Seq :=
  (w.sent.filter Segment.plain).map fun g => g.ack + BitVec.ofNat 32 (g.win.toNat * w.tcb.rcv.unit)

/-- No edge lies to the left of the one before. -/
def World.Advances (w : World) : Prop := w.edges.IsChain fun e e' => 0 ≤ diff e' e

structure EdgeInv (w : World) : Prop where
  ready : w.tcb.Ready
  unit_le : w.tcb.rcv.unit ≤ rcvSlack
  calm : ¬w.tcb.rcv.Pinched w.tcb.mss
  early : w.tcb.state.opening → w.edges = []
  advances : w.Advances
  last : ∀ e ∈ w.edges.getLast?, e = w.tcb.rcv.adv

variable {p : Tcb × List Segment} {g : Segment} {w w' : World}

theorem edges_same {gs : List Segment} (hsent : w'.sent = w.sent ++ gs)
    (hgs : gs.filter Segment.plain = []) (h : w.edges = [] ∨ w'.tcb.rcv.unit = w.tcb.rcv.unit) :
    w'.edges = w.edges := by
  have hf : w'.sent.filter Segment.plain = w.sent.filter Segment.plain := by
    rw [hsent, filter_append, hgs, append_nil]
  rw [World.edges, World.edges, hf]
  rcases h with h | h
  · have hnil := map_eq_nil_iff.mp h
    rw [hnil]
    rfl
  · rw [h]

theorem edges_ack (hsent : w'.sent = w.sent ++ [g]) (hg : g.plain = true)
    (h : w.edges = [] ∨ w'.tcb.rcv.unit = w.tcb.rcv.unit) :
    w'.edges = w.edges ++ [g.ack + BitVec.ofNat 32 (g.win.toNat * w'.tcb.rcv.unit)] := by
  have hf : w'.sent.filter Segment.plain = w.sent.filter Segment.plain ++ [g] := by
    rw [hsent, filter_append, filter_cons_of_pos hg]
    rfl
  rw [World.edges, World.edges, hf, map_append]
  congr 1
  rcases h with h | h
  · have hnil := map_eq_nil_iff.mp h
    rw [hnil]
    rfl
  · rw [h]

/-- What the invariant says of the receiver from which the segment of a turn is made. -/
theorem EdgeInv.beforeSend {b : Prop} {r : Rcv} (h : EdgeInv w) (hr : r.Room)
    (hm : (w.tcb.state.opening ∧ r.adv = r.nxt ∧ r.wscale ≤ w.tcb.rcv.wscale) ∨
      Rcv.Moved b w.tcb.rcv r)
    (hroom : b → w.tcb.rcv.keep + w.tcb.rcv.unit ≤ w.tcb.rcv.space + 1) :
    (w.edges = [] ∨ r.unit = w.tcb.rcv.unit) ∧ (∀ e ∈ w.edges.getLast?, e = r.adv) ∧
      r.unit ≤ rcvSlack ∧ ¬r.Pinched w.tcb.mss := by
  rcases hm with ⟨hop, ha, hw⟩ | hm
  · have hedges := h.early hop
    refine ⟨.inl hedges, ?_, ?_, not_pinched_of_adv ha⟩
    · rw [hedges]
      simp
    · exact (Nat.pow_le_pow_right (by decide) hw).trans h.unit_le
  · have hunit : r.unit = w.tcb.rcv.unit := by rw [Rcv.unit, Rcv.unit, hm.wscale]
    refine ⟨.inr hunit, ?_, ?_, ?_⟩
    · rw [hm.adv]
      exact h.last
    · rw [hunit]
      exact h.unit_le
    · by_cases hb : b
      · exact hm.not_pinched (hroom hb)
      · exact fun hc => h.calm (hm.pinched hb h.ready.held.toSized hr.toSized hc)

/-- A turn of the connection does not move the offered edge back. -/
theorem EdgeInv.turn {b : Prop} (h : EdgeInv w) (hp : Turn b w.tcb p)
    (hroom : b → w.tcb.rcv.keep + w.tcb.rcv.unit ≤ w.tcb.rcv.space + 1) (htcb : w'.tcb = p.1)
    (hsent : w'.sent = w.sent ++ p.2) : EdgeInv w' := by
  obtain ⟨r, hs, hr, hm⟩ := hp.sent
  obtain ⟨hunit, hlast, hle, hno⟩ := h.beforeSend hr hm hroom
  have hmss : p.1.mss = w.tcb.mss := hp.mss
  cases hs with
  | @nothing t ht =>
    have hedges : w'.edges = w.edges := edges_same hsent rfl (by rw [htcb, ht]; exact hunit)
    refine ⟨htcb ▸ hp.ready, ?_, ?_, fun hop => ?_, ?_, ?_⟩
    · rw [htcb, ht]
      exact hle
    · rw [htcb, hmss, ht]
      exact hno
    · rw [htcb] at hop
      exact hedges.trans (h.early (hp.opening hop))
    · rw [World.Advances, hedges]
      exact h.advances
    · rw [hedges, htcb, ht]
      exact hlast
  | @one t g ht hack hwin =>
    have hunit' : w.edges = [] ∨ w'.tcb.rcv.unit = w.tcb.rcv.unit := by
      rw [htcb, ht, emit_unit]
      exact hunit
    have hcalm : w'.tcb.rcv.unit ≤ rcvSlack ∧ ¬w'.tcb.rcv.Pinched w'.tcb.mss := by
      rw [htcb, hmss, ht, emit_unit]
      exact ⟨hle, hr.emit_not_pinched hle hno g.flags⟩
    by_cases hg : g.plain = true
    · have hflags : g.flags.ack = true ∧ g.flags.syn = false ∧ g.flags.rst = false := by
        simpa [Segment.plain, and_assoc] using hg
      obtain ⟨hwin_le, hedge⟩ := hr.edge w.tcb.mss hflags.1 hflags.2.1 hflags.2.2
      obtain ⟨he, hd⟩ := hedge hno
      have hval : g.ack + BitVec.ofNat 32 (g.win.toNat * w'.tcb.rcv.unit) =
          r.nxt + BitVec.ofNat 32 ((r.emit w.tcb.mss g.flags).2 * r.unit) := by
        rw [hack hflags.1, hwin, BitVec.toNat_ofNat, Nat.mod_eq_of_lt (by omega), htcb, ht,
          emit_unit]
      have hedges := edges_ack hsent hg hunit'
      rw [hval] at hedges
      refine ⟨htcb ▸ hp.ready, hcalm.1, hcalm.2, fun hop => ?_, ?_, ?_⟩
      · rw [htcb] at hop
        rw [hp.plain hop g (mem_singleton.mpr rfl)] at hg
        exact Bool.noConfusion hg
      · rw [World.Advances, hedges]
        refine isChain_append.mpr ⟨h.advances, isChain_singleton _, fun x hx y hy => ?_⟩
        obtain rfl : _ = y := Option.some.inj hy
        rw [hlast x hx]
        exact hd
      · rw [hedges, List.getLast?_concat]
        rintro e ⟨⟩
        rw [htcb, ht, he]
    · have hedges : w'.edges = w.edges := edges_same hsent (filter_cons_of_neg hg) hunit'
      refine ⟨htcb ▸ hp.ready, hcalm.1, hcalm.2, fun hop => ?_, ?_, ?_⟩
      · rw [htcb] at hop
        exact hedges.trans (h.early (hp.opening hop))
      · rw [World.Advances, hedges]
        exact h.advances
      rw [hedges]
      by_cases hsyn : g.flags.syn = true
      · rw [h.early (hp.opening (hp.syn g (mem_singleton.mpr rfl) hsyn))]
        simp
      · have hquiet : g.flags.ack = false ∨ g.flags.rst = true := by
          by_contra hc
          rw [not_or, Bool.not_eq_false, Bool.not_eq_true] at hc
          exact hg (by simp [Segment.plain, hsyn, hc])
        rw [htcb, ht, emit_adv hquiet]
        exact hlast

/-- When a segment brings data or the end of the stream, what is still offered can be rounded up
to the unit of the window within the free space. -/
def Slack (w : World) (a : Action) : Prop :=
  a.Brings → w.tcb.rcv.keep + w.tcb.rcv.unit ≤ w.tcb.rcv.space + 1

instance (st : St) : Decidable st.opening := inferInstanceAs (Decidable (_ ∨ _))

instance (g : Segment) : Decidable g.Brings := inferInstanceAs (Decidable (_ ∨ _))

instance (w : World) (a : Action) : Decidable (Steady w a) := by
  cases a <;> unfold Steady <;> infer_instance

instance (a : Action) : Decidable a.Brings := by
  cases a <;> unfold Action.Brings <;> infer_instance

instance (w : World) (a : Action) : Decidable (Slack w a) := inferInstanceAs (Decidable (_ → _))

theorem EdgeInv.next {a : Action} (h : EdgeInv w) (hs : Steady w a) (hroom : Slack w a) :
    EdgeInv (w.next a) := by
  obtain ⟨gs, ht, hsent⟩ := hs.turn h.ready
  exact h.turn ht hroom rfl hsent

theorem Opening.not_pinched (h : Opening p) (hs : p.1.rcv.wscale ≤ tcpWscale) :
    ¬p.1.rcv.Pinched p.1.mss := by
  cases h with
  | connect o iss mss now scale _ =>
    show ¬({ ((Rcv.init o).emit mss { syn := true }).1 with wscale := scale } : Rcv).Pinched mss
    rw [emit_adv (.inl rfl)]
    exact not_pinched_of_adv rfl
  | child o iss mss now g scale hsc =>
    have hunit : 2 ^ scale ≤ rcvSlack := Nat.pow_le_pow_right (by decide) hs
    generalize hr : ({ ((Tcb.start .synRcvd o iss mss now).peerOpts g.opts).rcv with
      nxt := g.seq + 1, adv := g.seq + 1 } : Rcv) = r
    show ¬({ (Rcv.emit { ((Tcb.start .synRcvd o iss mss now).peerOpts g.opts).rcv with
      nxt := g.seq + 1, adv := g.seq + 1 } mss { syn := true, ack := true }).1 with
      wscale := scale } : Rcv).Pinched mss
    rw [hr]
    have hsize : ({ r with wscale := scale } : Rcv).Sized := by
      rw [← hr]
      exact ⟨rfl, (init_sized o).cap, Nat.zero_le _, hsc⟩
    rcases @emit_syn r mss { syn := true, ack := true } rfl with he | he
    · rw [he, ← hr]
      exact not_pinched_of_adv rfl
    · rw [he]
      exact hsize.offer_not_pinched hunit

theorem Opening.edgeInv (h : Opening p) (hs : p.1.rcv.wscale ≤ tcpWscale) :
    EdgeInv (World.start p) := by
  obtain ⟨hr, hop⟩ := h.ready
  have hplain : ∀ g ∈ p.2, g.plain = false := by
    cases h with
    | connect | child =>
      intro g hg
      rw [mem_singleton.mp hg]
      rfl
  have hedges : (World.start p).edges = [] := by
    rw [World.edges, map_eq_nil_iff, filter_eq_nil_iff]
    intro g hg
    rw [hplain g hg]
    exact Bool.false_ne_true
  refine ⟨hr, Nat.pow_le_pow_right (by decide) hs, h.not_pinched hs, fun _ => hedges, ?_, ?_⟩
  · rw [World.Advances, hedges]
    exact isChain_nil
  · rw [hedges]
    simp

/-- The right edge never moves to the left over a run in which there is slack for every segment that
brings something. -/
theorem edges_advance {p : Tcb × List Segment} {w : World} (hp : Opening p)
    (hs : p.1.rcv.wscale ≤ tcpWscale)
    (h : (connection p).Reach (fun w a => Steady w a ∧ Slack w a) w) : w.Advances := by
  have hi : EdgeInv w := by
    refine h.invariant (I := EdgeInv) (hp.edgeInv hs) fun w a w' _ hi hok hn => ?_
    cases hn
    exact hi.next hok.1 hok.2
  exact hi.advances

def scaled : Tcb × List Segment := withScale 7 (Tcb.connect (plainOpts 0 (Nat.zero_le _)) 0 1460 0)

def scaledSynAck : Segment := ⟨100, 1, { syn := true, ack := true }, 1000, [3, 3, 7], []⟩

def bytesAt (seq : Seq) (n : Nat) : Action :=
  .input ⟨1, true, false⟩ ⟨seq, 1, { ack := true }, 1000, [], List.replicate n 0⟩

def readBetween : List Action :=
  [.input ⟨0, true, false⟩ scaledSynAck, bytesAt 101 127, .recv ⟨false, false, false⟩ 127 0,
    bytesAt 228 2]

theorem edges_advance_scaled : ((connection scaled).final readBetween).edges.length = 3 ∧
    ((connection scaled).final readBetween).Advances :=
  ⟨by decide +kernel, edges_advance (.connect _ _ _ _ _ (by decide)) (by decide)
    (System.Reach.final (by decide +kernel) (by decide +kernel))⟩

/-- After 127 bytes and two more, with nothing read, the edge moves to the left by 126 bytes. -/
theorem edge_moves_left : Opening scaled ∧
    (connection scaled).Reach Steady
      ((connection scaled).final [.input ⟨0, true, false⟩ scaledSynAck, bytesAt 101 127,
        bytesAt 228 2]) ∧
    ¬ ((connection scaled).final [.input ⟨0, true, false⟩ scaledSynAck, bytesAt 101 127,
    bytesAt 228 2]).Advances :=
  ⟨.connect _ _ _ _ _ (by decide),
    System.Reach.final ⟨trivial, fun _ _ => ⟨trivial, fun _ _ => ⟨trivial, fun _ _ => trivial⟩⟩⟩
    (by decide +kernel),
    fun h => absurd (show List.IsChain _ _ from h) (by decide +kernel)⟩

end Cervus.Tcp
