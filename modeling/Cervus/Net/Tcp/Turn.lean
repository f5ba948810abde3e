import Mathlib.Tactic.Positivity
import Cervus.Net.Tcp.Model

/-! What one call does to the receive window of a connection, and the segment it may send. -/

namespace Cervus.Tcp

open List Cervus.Seq

theorem ahead_eq {a b : Seq} : (ahead a b : Int) = max (diff a b) 0 := by
  unfold ahead
  split
  · rw [Seq.toNat_sub_of_diff (by omega)]
    omega
  · omega

def Rcv.lead (r : Rcv) : Int := diff r.adv r.nxt

def Rcv.gap (r : Rcv) : Int := r.space - r.lead

structure Rcv.Sized (r : Rcv) : Prop where
  size : r.size = r.cap + rcvSlack
  cap : r.cap ≤ bufMax
  count : r.count ≤ r.size
  scale : r.wscale ≤ 14

structure Rcv.Offered (r : Rcv) : Prop extends r.Sized where
  lead_nonneg : 0 ≤ r.lead
  lead_le : r.lead ≤ r.space

variable {r : Rcv} {t : Tcb}

theorem Rcv.Sized.space_lt (h : r.Sized) : r.space ≤ 2 ^ 26 + 128 := by
  have h1 := h.size
  have h2 := h.cap
  simp only [Rcv.space, bufMax, rcvSlack, tcpWscale] at *
  omega

variable {data : List Byte} {got mss now scale : Nat} {g : Segment} {e : Env}

theorem push_space : ((r.push data).1.space : Int) = r.space - (r.push data).2 := by
  simp only [Rcv.push, Rcv.space]
  omega

theorem push_lead (hs : r.Sized) (hl : -2 ^ 30 ≤ r.lead) :
    (r.push data).1.lead = r.lead - (r.push data).2 := by
  have h := hs.space_lt
  have hb := Seq.diff_bounds r.adv r.nxt
  have hn : (r.push data).2 ≤ r.space := min_le_right ..
  rw [Rcv.lead] at hl
  show diff r.adv (r.nxt + BitVec.ofNat 32 (r.push data).2) = _
  rw [Seq.diff_add_right (by omega) (by omega), Rcv.lead]

theorem Rcv.Sized.push (h : r.Sized) : (r.push data).1.Sized :=
  ⟨h.size, h.cap, by have := h.count; simp only [Rcv.push, Rcv.space]; omega, h.scale⟩

/-- What pushing keeps, draining the queue keeps. -/
theorem drain_invariant {P : Rcv → Prop} (hpush : ∀ r data, P r → P (r.push data).1)
    (hooo : ∀ r qs, P r → P { r with ooo := qs }) (h : P r) : P r.drain := by
  have hpass : ∀ qs r, P r → P (r.drainPass qs).1 := by
    intro qs
    induction qs with
    | nil => exact fun r h => h
    | cons q qs ih =>
      intro r h
      rw [Rcv.drainPass]
      dsimp only
      split
      · split
        · exact hpush _ _ h
        · exact ih _ (hpush _ _ h)
      · split
        · exact ih _ h
        · exact ih _ h
  have hloop : ∀ fuel r, P r → P (Rcv.drainLoop fuel r) := by
    intro fuel
    induction fuel with
    | zero => exact fun r h => h
    | succ n ih =>
      intro r h
      have hp := hooo _ (r.drainPass r.ooo).2.1 (hpass r.ooo r h)
      rw [Rcv.drainLoop]
      dsimp only
      split
      · exact ih _ hp
      · exact hp
  exact hloop _ _ h

theorem Rcv.Offered.store (h : r.Offered) (data : List Byte) :
    (r.push data).1.drain.Sized ∧ -2 ^ 27 ≤ (r.push data).1.drain.lead ∧
      (r.push data).1.drain.lead ≤ (r.push data).1.drain.space ∧
      (r.push data).1.drain.lead ≤ r.lead ∧
      r.gap ≤ (r.push data).1.drain.gap := by
  have hlt := h.space_lt
  have hl := h.lead_le
  have hl0 := h.lead_nonneg
  let P : Rcv → Prop := fun r' => r'.Sized ∧ (r'.space : Int) - r'.lead = r.space - r.lead ∧
    r'.lead ≤ r.lead
  have hpush : ∀ r' data, P r' → P (r'.push data).1 := by
    rintro r' data ⟨hs, he, hle⟩
    refine ⟨hs.push, ?_⟩
    rw [push_space, push_lead hs (by omega)]
    omega
  obtain ⟨hs, he, hle⟩ := drain_invariant hpush
    (fun r' qs hr => ⟨⟨hr.1.1, hr.1.2, hr.1.3, hr.1.4⟩, hr.2⟩)
    (hpush r data ⟨h.toSized, rfl, le_rfl⟩)
  exact ⟨hs, by omega, by omega, hle, he.ge⟩

/-- A segment with ACK moves the offered edge forward or leaves it. -/
theorem emit_rcv (hs : r.Sized) (hl : r.lead ≤ r.space) (mss : Nat) (flags : Flags) :
    ∃ n : Nat, n ≤ r.space ∧ (r.emit mss flags).1 =
      if flags.ack ∧ flags.rst = false ∧ 0 < diff (r.nxt + BitVec.ofNat 32 n) r.adv then
        { r with adv := r.nxt + BitVec.ofNat 32 n } else r := by
  refine ⟨_, ?_, rfl⟩
  have hwin : r.window ≤ r.space := by
    have := hs.size
    simp only [Rcv.window, Rcv.space, rcvSlack, tcpWscale] at *
    split <;> omega
  have hkeep : ahead r.adv r.nxt ≤ r.space := by
    have := ahead_eq (a := r.adv) (b := r.nxt)
    rw [Rcv.lead] at hl
    omega
  generalize ahead r.adv r.nxt = keep at *
  generalize 2 ^ r.wscale = unit
  generalize havail : (if flags.syn = false ∧ r.window < r.cap / 2 ∧
    r.window < mss then 0 else r.window) = avail
  have hav : avail ≤ r.space := by
    rw [← havail]
    split <;> omega
  generalize hk : (if r.space < (keep + unit - 1) / unit * unit then keep / unit
    else (keep + unit - 1) / unit) = k
  have hku : k * unit ≤ r.space := by
    rw [← hk]
    split
    · exact le_trans (Nat.div_mul_le_self ..) hkeep
    · omega
  split
  · omega
  · have h1 := Nat.div_mul_le_self avail unit
    have h2 : min (max (avail / unit) k) 65535 * unit ≤ max (avail / unit) k * unit :=
      Nat.mul_le_mul_right _ (min_le_left ..)
    rcases le_total (avail / unit) k with hle | hle
    · rw [max_eq_right hle] at h2 ⊢
      omega
    · rw [max_eq_left hle] at h2 ⊢
      omega

theorem diff_nxt_add (r : Rcv) {n : Nat} (hn : n < 2 ^ 31) :
    diff (r.nxt + BitVec.ofNat 32 n) r.nxt = n := by
  rw [Seq.diff_add_left] <;> rw [Seq.diff_self] <;> omega

theorem Rcv.Sized.offer (h : r.Sized) {n : Nat} (hn : n ≤ r.space) :
    Rcv.Offered { r with adv := r.nxt + BitVec.ofNat 32 n } := by
  have hlt := h.space_lt
  have hd := diff_nxt_add r (n := n) (by omega)
  refine ⟨⟨h.size, h.cap, h.count, h.scale⟩, ?_, ?_⟩ <;> simp only [Rcv.lead, hd, Rcv.space] at *
  · omega
  · exact_mod_cast hn

theorem Rcv.Offered.emit (h : r.Offered) {flags : Flags} : (r.emit mss flags).1.Offered := by
  obtain ⟨n, hn, he⟩ := emit_rcv h.toSized h.lead_le mss flags
  rw [he]
  split
  · exact h.toSized.offer hn
  · exact h

def Rcv.unit (r : Rcv) : Nat := 2 ^ r.wscale

theorem Rcv.unit_pos (r : Rcv) : 0 < r.unit := Nat.two_pow_pos _

structure Rcv.Room (r : Rcv) : Prop extends r.Sized where
  lead_ge : -2 ^ 28 ≤ r.lead
  lead_le : r.lead ≤ r.space
  told : r.lead ≤ 65535 * r.unit

structure Rcv.Held (r : Rcv) : Prop extends r.Offered where
  told : r.lead ≤ 65535 * r.unit

theorem Rcv.Held.room (h : r.Held) : r.Room :=
  ⟨h.toSized, by have := h.lead_nonneg; omega, h.lead_le, h.told⟩

theorem emit_told (h : r.Room) : (r.emit mss flags).1.lead ≤ 65535 * r.unit := by
  have hunit : r.unit ≤ 2 ^ 14 := Nat.pow_le_pow_right (by decide) h.scale
  obtain ⟨n, hn, he⟩ : ∃ n ≤ 65535 * r.unit, (r.emit mss flags).1 =
      if flags.ack = true ∧ flags.rst = false ∧ 0 < diff (r.nxt + BitVec.ofNat 32 n) r.adv then
        { r with adv := r.nxt + BitVec.ofNat 32 n } else r := by
    refine ⟨_, ?_, rfl⟩
    cases flags.syn with
    | true =>
      exact (min_le_right _ _).trans (Nat.le_mul_of_pos_right _ r.unit_pos)
    | false =>
      exact Nat.mul_le_mul_right _ (min_le_right _ _)
  rw [he]
  split_ifs
  · rw [Rcv.lead, diff_nxt_add r (by omega)]
    exact_mod_cast hn
  · exact h.told

theorem emit_unit : (r.emit mss flags).1.unit = r.unit := by
  unfold Rcv.emit
  dsimp only
  split_ifs <;> rfl

theorem Rcv.Held.emit (h : r.Held) {flags : Flags} : (r.emit mss flags).1.Held := by
  refine ⟨h.toOffered.emit, ?_⟩
  rw [emit_unit]
  exact emit_told h.room

theorem Rcv.Room.ack (h : r.Room) : (r.emit mss { ack := true }).1.Held := by
  refine ⟨?_, ?_⟩
  · have hlt := h.space_lt
    have h1 := h.lead_ge
    obtain ⟨n, hn, he⟩ := emit_rcv h.toSized h.lead_le mss { ack := true }
    have hc : diff r.nxt r.adv = -r.lead := Seq.diff_comm (by rw [Rcv.lead] at h1; omega)
    rw [he]
    split
    · exact h.toSized.offer hn
    · rename_i hno
      refine ⟨h.toSized, ?_, h.lead_le⟩
      by_contra hneg
      refine hno ⟨rfl, rfl, ?_⟩
      rw [Seq.diff_add_left] <;> rw [hc] <;> omega
  · rw [emit_unit]
    exact emit_told h

theorem Rcv.Sized.level (h : r.Sized) (n : Seq) (hs : scale ≤ 14) :
    Rcv.Held { r with wscale := scale, nxt := n, adv := n } := by
  refine ⟨⟨⟨h.size, h.cap, h.count, hs⟩, ?_, ?_⟩, ?_⟩ <;> simp only [Rcv.lead, Seq.diff_self]
  · exact Int.le_refl 0
  · exact Int.natCast_nonneg _
  · positivity

theorem peerOpts_wscale (t : Tcb) (opts : List Byte) :
    (t.peerOpts opts).rcv.wscale ≤ t.rcv.wscale := by
  unfold Tcb.peerOpts
  dsimp only
  split <;> omega

theorem peerOpts_scale (h : t.rcv.wscale ≤ 14) (opts : List Byte) :
    (t.peerOpts opts).rcv.wscale ≤ 14 :=
  (peerOpts_wscale t opts).trans h

theorem Rcv.Held.take (h : r.Held) {n : Nat} (hn : n ≤ r.count) :
    Rcv.Held { r with head := (r.head + n) % r.size, count := r.count - n } := by
  have h1 := h.count
  have h2 := h.lead_le
  refine ⟨⟨⟨h.size, h.cap, ?_, h.scale⟩, h.lead_nonneg, ?_⟩, h.told⟩
  · dsimp only
    omega
  · simp only [Rcv.space, Rcv.lead] at *
    omega

/-- Bytes were stored or taken without a new offer; where `b` does not hold, none were stored. -/
structure Rcv.Moved (b : Prop) (r₀ r : Rcv) : Prop where
  adv : r.adv = r₀.adv
  wscale : r.wscale = r₀.wscale
  cap : r.cap = r₀.cap
  gap : r₀.gap ≤ r.gap
  nxt : ¬b → r.nxt = r₀.nxt

variable {b : Prop} {r₀ r₁ r₂ : Rcv}

theorem Rcv.Moved.refl (r : Rcv) : Rcv.Moved b r r := ⟨rfl, rfl, rfl, le_refl _, fun _ => rfl⟩

theorem Rcv.Moved.trans (h₁ : Rcv.Moved b r₀ r₁) (h₂ : Rcv.Moved b r₁ r₂) : Rcv.Moved b r₀ r₂ :=
  ⟨h₂.adv.trans h₁.adv, h₂.wscale.trans h₁.wscale, h₂.cap.trans h₁.cap, h₁.gap.trans h₂.gap,
    fun hb => (h₂.nxt hb).trans (h₁.nxt hb)⟩

theorem Rcv.Moved.take (hn : n ≤ r.count) :
    Rcv.Moved b r { r with head := (r.head + n) % r.size, count := r.count - n } := by
  refine ⟨rfl, rfl, rfl, ?_, fun _ => rfl⟩
  simp only [Rcv.gap, Rcv.space, Rcv.lead]
  omega

/-! ## What a call sends -/

/-- A segment whose window counts: an acknowledgement without SYN and RST. -/
def Segment.plain (g : Segment) : Bool := g.flags.ack && !g.flags.syn && !g.flags.rst

/-- At most one segment is sent, from the receiving side `r`. -/
inductive Sent (r : Rcv) (mss : Nat) : Tcb × List Segment → Prop
  | nothing {t : Tcb} (h : t.rcv = r) : Sent r mss (t, [])
  | one {t : Tcb} {g : Segment} (h : t.rcv = (r.emit mss g.flags).1) (hack : g.flags.ack = true →
    g.ack = r.nxt)
      (hwin : g.win = BitVec.ofNat 16 (r.emit mss g.flags).2) : Sent r mss (t, [g])

theorem emit_sent (t : Tcb) (seq : Seq) (flags : Flags) (opts data : List Byte) :
    Sent t.rcv t.mss ((t.emit seq flags opts data).1, [(t.emit seq flags opts data).2]) := by
  exact .one rfl (fun h => if_pos h) rfl

def St.opening (st : St) : Prop := st = .synSent ∨ st = .synRcvd

structure Tcb.Ready (t : Tcb) : Prop where
  held : t.rcv.Held
  pend : t.pendSyn = true → t.state.opening ∨ t.state = .closed

/-- A turn of a connection. `b` holds if it may store bytes or see the end of the stream. -/
structure Turn (b : Prop) (t : Tcb) (p : Tcb × List Segment) : Prop where
  sent : ∃ r, Sent r t.mss p ∧ r.Room ∧
    ((t.state.opening ∧ r.adv = r.nxt ∧ r.wscale ≤ t.rcv.wscale) ∨ Rcv.Moved b t.rcv r)
  plain : p.1.state.opening → ∀ g ∈ p.2, g.plain = false
  syn : ∀ g ∈ p.2, g.flags.syn = true → p.1.state.opening
  mss : p.1.mss = t.mss
  opening : p.1.state.opening → t.state.opening
  ready : p.1.Ready

/-- A turn of a connection that is not being opened. -/
structure Answer (b : Prop) (t : Tcb) (p : Tcb × List Segment) : Prop where
  sent : ∃ r, Sent r t.mss p ∧ r.Room ∧ Rcv.Moved b t.rcv r
  syn : ∀ g ∈ p.2, g.flags.syn = false
  mss : p.1.mss = t.mss
  opening : ¬ p.1.state.opening
  held : p.1.rcv.Held
  pend : p.1.pendSyn = false

variable {t' : Tcb} {p : Tcb × List Segment} {opts : List Byte} {flags : Flags}

theorem Answer.turn {t t₀ : Tcb} (h : Answer b t p) (hmss : t.mss = t₀.mss)
    (hrcv : t.rcv = t₀.rcv) :
    Turn b t₀ p where
  sent := by
    obtain ⟨r, hs, hr, hm⟩ := h.sent
    exact ⟨r, hmss ▸ hs, hr, .inr (hrcv ▸ hm)⟩
  plain ho := absurd ho h.opening
  syn g hg hs := by
    rw [h.syn g hg] at hs
    exact Bool.noConfusion hs
  mss := h.mss.trans hmss
  opening ho := absurd ho h.opening
  ready := by
    refine ⟨h.held, fun hp => ?_⟩
    rw [h.pend] at hp
    exact Bool.noConfusion hp

theorem Turn.still (h : t.Ready) (hrcv : t'.rcv = t.rcv) (hmss : t'.mss = t.mss)
    (hop : t'.state.opening → t.state.opening)
    (hpend : t'.pendSyn = true → t'.state.opening ∨ t'.state = .closed) :
    Turn b t (t', []) :=
  ⟨⟨t.rcv, .nothing hrcv, h.held.room, .inr (.refl _)⟩, fun _ =>
    by simp, by simp, hmss, hop, hrcv ▸ h.held, hpend⟩

theorem opening_closed : ¬ St.closed.opening := by simp [St.opening]

theorem opening_established : ¬ St.established.opening := by simp [St.opening]

theorem Turn.shut (h : t.Ready) (hrcv : t'.rcv = t.rcv) (hmss : t'.mss = t.mss)
    (hst : t'.state = .closed) : Turn b t (t', []) :=
  .still h hrcv hmss (fun ho => absurd (hst ▸ ho) opening_closed) fun _ => .inr hst

theorem Answer.out {seq : Seq} (hr : t'.rcv.Held) (hm : Rcv.Moved b t.rcv t'.rcv)
    (hmss : t'.mss = t.mss) (hop : ¬ t'.state.opening) (hpend : t'.pendSyn = false)
    (hsyn : flags.syn = false) :
    Answer b t ((t'.emit seq flags opts data).1, [(t'.emit seq flags opts data).2]) :=
  ⟨⟨t'.rcv, hmss ▸ emit_sent t' seq flags opts data, hr.room, hm⟩,
    fun g hg => by rw [mem_singleton.mp hg]; exact hsyn, hmss, hop, hr.emit, hpend⟩

theorem Answer.ack (hr : t'.rcv.Room) (hm : Rcv.Moved b t.rcv t'.rcv) (hmss : t'.mss = t.mss)
    (hop : ¬ t'.state.opening) (hpend : t'.pendSyn = false) : Answer b t t'.sendAck :=
  ⟨⟨t'.rcv, hmss ▸ emit_sent t' _ _ _ _, hr, hm⟩, fun g hg => by rw [mem_singleton.mp hg]; rfl,
    hmss, hop, hr.ack, hpend⟩

theorem Answer.of_same (h : Answer b t' p) (hm : Rcv.Moved b t.rcv t'.rcv) (hmss : t'.mss = t.mss) :
    Answer b t p := by
  obtain ⟨r, hs, hr, hm'⟩ := h.sent
  exact ⟨⟨r, hmss ▸ hs, hr, hm.trans hm'⟩, h.syn, h.mss.trans hmss, h.opening, h.held, h.pend⟩

theorem Answer.still (hr : t.rcv.Held) (hrcv : t'.rcv = t.rcv) (hmss : t'.mss = t.mss)
    (hop : ¬ t'.state.opening) (hpend : t'.pendSyn = false) : Answer b t (t', []) :=
  ⟨⟨t.rcv, .nothing hrcv, hr.room, .refl _⟩, by simp, hmss, hop, hrcv ▸ hr, hpend⟩

theorem Turn.out {seq : Seq} (hr : t'.rcv.Held)
    (hm : (t.state.opening ∧ t'.rcv.adv = t'.rcv.nxt ∧ t'.rcv.wscale ≤ t.rcv.wscale) ∨
    Rcv.Moved b t.rcv t'.rcv)
    (hmss : t'.mss = t.mss) (hplain : t'.state.opening → flags.syn = true ∨ flags.rst = true)
    (hsyn : flags.syn = true → t'.state.opening) (hop : t'.state.opening → t.state.opening)
    (hpend : t'.pendSyn = true → t'.state.opening ∨ t'.state = .closed) :
    Turn b t ((t'.emit seq flags opts data).1, [(t'.emit seq flags opts data).2]) where
  sent := ⟨t'.rcv, hmss ▸ emit_sent t' seq flags opts data, hr.room, hm⟩
  plain ho g hg := by
    rw [mem_singleton.mp hg]
    show (flags.ack && !flags.syn && !flags.rst) = false
    rcases hplain ho with h | h <;> simp [h]
  syn g hg hs := by
    rw [mem_singleton.mp hg] at hs
    exact hsyn hs
  mss := hmss
  opening := hop
  ready := ⟨hr.emit, hpend⟩

theorem Turn.of_same (h : Turn b t' p) (hrcv : t'.rcv = t.rcv) (hmss : t'.mss = t.mss)
    (hop : t'.state.opening → t.state.opening) : Turn b t p := by
  obtain ⟨r, hs, hr, hm⟩ := h.sent
  rw [hrcv] at hm
  exact ⟨⟨r, hmss ▸ hs, hr, hm.imp_left (And.imp_left hop)⟩, h.plain, h.syn, h.mss.trans hmss,
    hop ∘ h.opening, h.ready⟩

/-! ## The calls -/

theorem store_room (h : r.Held) (data : List Byte) :
    (r.push data).1.drain.Room ∧ -2 ^ 27 ≤ (r.push data).1.drain.lead ∧
      (b → Rcv.Moved b r (r.push data).1.drain) := by
  obtain ⟨hs, h1, h2, h3, h4⟩ := h.toOffered.store data
  have hkeep : (r.push data).1.drain.adv = r.adv ∧ (r.push data).1.drain.wscale = r.wscale ∧
      (r.push data).1.drain.cap = r.cap := by
    refine drain_invariant (P := fun r' => r'.adv = r.adv ∧ r'.wscale = r.wscale ∧
      r'.cap = r.cap) ?_ ?_ ?_
    · exact fun r' data hr => hr
    · exact fun r' qs hr => hr
    · exact ⟨rfl, rfl, rfl⟩
  have htold := h.told
  refine ⟨⟨hs, by omega, h2, ?_⟩, h1, fun hb =>
    ⟨hkeep.1, hkeep.2.1, hkeep.2.2, h4, fun hn => absurd hb hn⟩⟩
  rw [Rcv.unit, hkeep.2.1]
  rw [Rcv.unit] at htold
  omega

theorem inputFin_keeps (t : Tcb) (now : Nat) :
    ¬ (t.inputFin now).state.opening ∧ (t.inputFin now).pendSyn = t.pendSyn ∧
    (t.inputFin now).mss = t.mss ∧ (t.inputFin now).rcv =
    { t.rcv with nxt := t.rcv.nxt + 1, finSeen := true } := by
  unfold Tcb.inputFin
  dsimp only
  split_ifs <;> exact ⟨by simp [St.opening], rfl, rfl, rfl⟩

theorem inputEnd_answer (hr : t.rcv.Room) (hlead : -2 ^ 27 ≤ t.rcv.lead) (hop : ¬ t.state.opening)
    (hpend : t.pendSyn = false) {ok : Bool} (hd : g.data = [] → t.rcv.Held)
    (hb : g.flags.fin = true → b) : Answer b t (t.inputEnd now g ok) := by
  unfold Tcb.inputEnd
  split_ifs with hfin hdata
  · have hl : diff t.rcv.adv (t.rcv.nxt + 1) = t.rcv.lead - 1 := by
      rw [Rcv.lead] at *
      have hb := Seq.diff_bounds t.rcv.adv t.rcv.nxt
      exact Seq.diff_add_right (n := 1) (by omega) (by omega)
    have h1 := hr.lead_le
    have h2 := hr.told
    obtain ⟨hst, hp, hmss, hrcv⟩ := inputFin_keeps t now
    refine .ack ?_ ?_ hmss hst (hp.trans hpend)
    · rw [hrcv]
      refine ⟨⟨hr.size, hr.cap, hr.count, hr.scale⟩, ?_, ?_, ?_⟩
      · show _ ≤ diff t.rcv.adv (t.rcv.nxt + 1)
        omega
      · show diff t.rcv.adv (t.rcv.nxt + 1) ≤ (t.rcv.space : Int)
        omega
      · show diff t.rcv.adv (t.rcv.nxt + 1) ≤ 65535 * (t.rcv.unit : Int)
        omega
    · rw [hrcv]
      refine ⟨rfl, rfl, rfl, ?_, fun hn => absurd (hb hfin.1) hn⟩
      show (t.rcv.space : Int) - t.rcv.lead ≤ t.rcv.space - diff t.rcv.adv (t.rcv.nxt + 1)
      omega
  · exact .ack hr (.refl _) rfl hop hpend
  · exact .still (hd (not_not.mp hdata)) rfl rfl hop hpend

theorem oooInsert_held (h : r.Held) (mem : Bool) (seq : Seq) (data : List Byte) :
    (r.oooInsert mem seq data).Held ∧ Rcv.Moved b r (r.oooInsert mem seq data) := by
  have hq : ∀ qs, Rcv.Held { r with ooo := qs } := fun qs =>
    ⟨⟨⟨h.size, h.cap, h.count, h.scale⟩, h.lead_nonneg, h.lead_le⟩, h.told⟩
  unfold Rcv.oooInsert
  dsimp only
  split_ifs
  · exact ⟨h, .refl _⟩
  · exact ⟨h, .refl _⟩
  · exact ⟨h, .refl _⟩
  · exact ⟨hq _, rfl, rfl, rfl, le_refl _, fun _ => rfl⟩

/-- A segment that brings data or the end of the stream. -/
def Segment.Brings (g : Segment) : Prop := g.data ≠ [] ∨ g.flags.fin = true

theorem inputData_answer (hr : t.rcv.Held) (hop : ¬ t.state.opening) (hpend : t.pendSyn = false)
    {e : Env} :
    Answer g.Brings t (t.inputData e g) := by
  unfold Tcb.inputData
  dsimp only
  split_ifs with hrst hdata hold hnext
  · exact .out hr (.refl _) rfl opening_closed hpend rfl
  · exact .ack hr.room (.refl _) rfl hop hpend
  · obtain ⟨h1, h2, h3⟩ := store_room (b := g.Brings) hr (g.data.drop (diff t.rcv.nxt g.seq).toNat)
    exact (inputEnd_answer (t := { t with rcv := _ }) h1 h2 hop hpend
      (fun hnil => absurd hnil hdata.1) .inr).of_same
      (h3 (.inl hdata.1)) rfl
  · obtain ⟨h1, h2⟩ := oooInsert_held hr e.mem g.seq g.data
    exact Answer.ack (show Rcv.Room (Tcb.rcv { t with rcv := t.rcv.oooInsert e.mem g.seq g.data })
      from h1.room) h2 rfl
      hop hpend
  · exact inputEnd_answer hr.room (by have := hr.lead_nonneg; omega) hop hpend (fun _ => hr) .inr

theorem finAckedState_keeps (hop : ¬ t.state.opening) : ¬ t.finAckedState.state.opening ∧
    t.finAckedState.pendSyn = t.pendSyn ∧ t.finAckedState.mss = t.mss ∧
    t.finAckedState.rcv = t.rcv := by
  unfold Tcb.finAckedState
  split_ifs with hf
  · split
    · exact ⟨by simp [St.opening], rfl, rfl, rfl⟩
    · exact ⟨by simp [St.opening], rfl, rfl, rfl⟩
    · exact ⟨hop, rfl, rfl, rfl⟩
  · exact ⟨hop, rfl, rfl, rfl⟩

theorem inputSync_answer (hr : t.rcv.Held) (hop : ¬ t.state.opening)
    (hpend : t.state ≠ .closed → t.pendSyn = false) {e : Env} (hopen : t.state ≠ .closed) :
    Answer g.Brings t (t.inputSync e g) := by
  have hp := hpend hopen
  unfold Tcb.inputSync
  split_ifs with hend hack
  · exact .still hr rfl rfl hop hp
  · split
    · exact .ack hr.room (.refl _) rfl hop hp
    · rename_i s hs
      obtain ⟨h1, h2, h3, hrcv⟩ := finAckedState_keeps (t := { t with snd := s }) hop
      refine (inputData_answer (t := ({ t with snd := s } : Tcb).finAckedState) ?_ h1
        (h2.trans hp)).of_same ?_ h3
      · rw [hrcv]
        exact hr
      · rw [hrcv]
        exact .refl _
  · exact inputData_answer hr hop hp

section Calls

variable (h : t.Ready)

include h

theorem Tcb.Ready.pendSyn_false (hop : ¬ t.state.opening) (hcl : t.state ≠ .closed) :
    t.pendSyn = false := by
  by_contra hp
  rw [Bool.not_eq_false] at hp
  exact (h.pend hp).elim hop hcl

theorem inputSynSent_turn (hst : t.state = .synSent) : Turn b t (t.inputSynSent g) := by
  have hop : t.state.opening := .inl hst
  unfold Tcb.inputSynSent
  split_ifs with hok hbad
  · have hlevel := h.held.toSized.level (g.seq + 1) (peerOpts_scale h.held.scale g.opts)
    exact .out hlevel (.inl ⟨hop, rfl, peerOpts_wscale t g.opts⟩) rfl
      (fun ho => absurd ho opening_established) nofun (fun _ => hop) nofun
  · exact .out h.held (.inr (.refl _)) rfl (fun _ => .inr rfl) nofun id h.pend
  · exact .still h rfl rfl id h.pend

theorem abort_turn : Turn b t (t.abort now) := by
  unfold Tcb.abort
  dsimp only
  split_ifs with hs
  · exact .out h.held (.inr (.refl _)) rfl (fun ho => absurd ho opening_closed) nofun
      (fun ho => absurd ho opening_closed) nofun
  · exact .shut h rfl rfl rfl

theorem inputSync_turn (hop : ¬ t.state.opening) {e : Env} : Turn g.Brings t (t.inputSync e g) := by
  by_cases hcl : t.state = .closed
  · unfold Tcb.inputSync
    rw [if_pos (.inl hcl)]
    exact .still h rfl rfl id h.pend
  · exact (inputSync_answer h.held hop (fun _ => h.pendSyn_false hop hcl) hcl).turn rfl rfl

theorem input_turn {e : Env} : Turn g.Brings t (t.input e g) := by
  unfold Tcb.input
  generalize ht : ({ t with lastRxMs := e.now, kaProbes := 0 } : Tcb) = t'
  have h' : t'.Ready := by
    rw [← ht]
    exact ⟨h.held, h.pend⟩
  have hsame : ∀ p, Turn g.Brings t' p → Turn g.Brings t p :=
    fun p hp => hp.of_same (ht ▸ rfl) (ht ▸ rfl) (by rw [← ht]; exact id)
  refine hsame _ ?_
  dsimp only
  split_ifs with hrst hsent hrcvd hsyn hno horphan
  · unfold Tcb.inputRst
    dsimp only
    split
    · exact .still h' rfl rfl id h'.pend
    · exact .shut h' rfl rfl rfl
  · exact inputSynSent_turn h' hsent
  · exact .out h'.held (.inr (.refl _)) rfl (fun _ => .inl rfl) (fun _ => .inr hrcvd) id h'.pend
  · exact .still h' rfl rfl id h'.pend
  · exact (abort_turn (t := t'.inputSynRcvd g) ⟨h'.held, nofun⟩).of_same rfl rfl fun ho =>
      absurd ho opening_established
  · exact (inputSync_turn (t := t'.inputSynRcvd g) ⟨h'.held, nofun⟩ opening_established).of_same rfl
      rfl fun ho =>
      absurd ho opening_established
  · exact inputSync_turn h' fun ho => ho.elim hsent hrcvd

omit h in
theorem windowUpdateDue_opening (h : t.windowUpdateDue = true) : ¬ t.state.opening := by
  unfold Tcb.windowUpdateDue at h
  split_ifs at h with hst
  rintro (ho | ho) <;> simp [ho] at hst

theorem recvNone_turn : Turn b t ((t.recvNone got).1, (t.recvNone got).2.2) := by
  unfold Tcb.recvNone
  split_ifs <;> exact .still h rfl rfl id h.pend

theorem recvTurn_turn {fl : RecvFlags} {len : Nat} :
    Turn b t ((t.recvTurn fl len got).1, (t.recvTurn fl len got).2.2) := by
  unfold Tcb.recvTurn
  by_cases hpeek : fl.peek = true
  · simp only [if_pos hpeek]
    generalize (if fl.waitall = true then len else 1) = target
    split_ifs
    · exact .still h rfl rfl id h.pend
    · exact recvNone_turn h
  · simp only [if_neg hpeek]
    have htake := h.held.take (min_le_left t.rcv.count (len - got))
    split_ifs with hcount hdue
    · exact .out htake (.inr (.take (min_le_left _ _))) rfl
        (fun ho => absurd ho (windowUpdateDue_opening hdue)) nofun id h.pend
    · exact ⟨⟨_, .nothing rfl, htake.room, .inr (.take (min_le_left _ _))⟩, fun _ =>
        by simp, by simp, rfl, id, htake, h.pend⟩
    · exact recvNone_turn h

theorem trySend_turn {mem : Bool} : Turn b t (t.trySend now mem) := by
  unfold Tcb.trySend
  split_ifs with hno
  · exact .still h rfl rfl id h.pend
  have hst : ¬ t.state.opening ∧ t.state ≠ .closed := by
    rw [not_or, Bool.not_eq_false] at hno
    have := of_decide_eq_true hno.1
    constructor
    · rintro (h | h) <;> simp [h] at this
    · intro h
      simp [h] at this
  dsimp only
  split_ifs with hn hmem hfin
  · exact .still h rfl rfl id h.pend
  · exact .out h.held (.inr (.refl _)) rfl (fun ho => absurd ho hst.1) nofun id h.pend
  · exact .out h.held (.inr (.refl _)) rfl (fun ho => absurd ho hst.1) nofun id h.pend
  · exact .still h rfl rfl id h.pend

theorem tick_turn : Turn b t (t.tick now) := by
  unfold Tcb.tick
  split_ifs with hrex hpers hka
  · unfold Tcb.rexmit
    dsimp only
    split_ifs with hlim hsyn hprobe
    · exact .shut h rfl rfl rfl
    · have hop := (h.pend hsyn).resolve_right hrex.2.2.1
      exact .out h.held (.inr (.refl _)) rfl (fun _ => .inl rfl) (fun _ => hop) id h.pend
    · exact .still h rfl rfl id h.pend
    · exact .still h rfl rfl id h.pend
  · exact .still h rfl rfl id h.pend
  · have hop : ¬ t.state.opening := by
      rintro (h | h) <;> simp [h] at hka
    unfold Tcb.keepalive
    split_ifs with hcnt
    · exact .shut h rfl rfl rfl
    · exact .out h.held (.inr (.refl _)) rfl (fun ho => absurd ho hop) nofun id h.pend
  · exact .still h rfl rfl id h.pend

theorem shutdown_turn (closed : Bool) (now : Nat) :
    Turn b t ({ t.shutdown with appClosed := closed, closeMs := now }, []) := by
  unfold Tcb.shutdown
  split_ifs with hfin
  · exact .still h rfl rfl id h.pend
  · split
    · rename_i hst
      exact .still h rfl rfl (fun ho => absurd ho (by simp [St.opening])) fun hp =>
        absurd (h.pend hp) (by simp [St.opening, hst])
    · rename_i hst
      exact .still h rfl rfl (fun ho => absurd ho (by simp [St.opening])) fun hp =>
        absurd (h.pend hp) (by simp [St.opening, hst])
    · exact .shut h rfl rfl rfl
    · exact .shut h rfl rfl rfl
    · exact .still h rfl rfl id h.pend

theorem sendTurn_turn {data : List Byte} : Turn b t ((t.sendTurn data).1, []) := by
  unfold Tcb.sendTurn
  dsimp only
  repeat' split
  all_goals exact .still h rfl rfl id h.pend

theorem expire_turn : Turn b t (t.expire now, []) := by
  unfold Tcb.expire
  dsimp only
  split_ifs
  · exact .shut h rfl rfl rfl
  · exact .shut h rfl rfl rfl
  · exact .shut h rfl rfl rfl
  · exact .still h rfl rfl id h.pend

end Calls

/-- The receive buffer keeps its size, and a bare acknowledgement is sent after the handshake
only. -/
def Steady (w : World) : Action → Prop
  | .setOpts o mem => ¬(mem = true ∧ o.rcvbuf ≠ 0 ∧ o.rcvbuf ≠ w.tcb.rcv.cap ∧
    w.tcb.rcv.count ≤ o.rcvbuf)
  | .sendAck => ¬ w.tcb.state.opening
  | _ => True

def Action.Brings : Action → Prop
  | .input _ g => g.Brings
  | _ => False

theorem Steady.turn {w : World} {a : Action} (h : w.tcb.Ready) (hs : Steady w a) :
    ∃ gs, Turn a.Brings w.tcb ((w.next a).tcb, gs) ∧ (w.next a).sent = w.sent ++ gs := by
  cases a with
  | input e g => exact ⟨_, input_turn h, rfl⟩
  | recv fl len got => exact ⟨_, recvTurn_turn h, rfl⟩
  | send data => exact ⟨[], sendTurn_turn h, (append_nil _).symm⟩
  | grow want | takeError => exact ⟨[], .still h rfl rfl id h.pend, (append_nil _).symm⟩
  | trySend now mem => exact ⟨_, trySend_turn h, rfl⟩
  | sendAck =>
    exact ⟨_, .out h.held (.inr (.refl _)) rfl (fun hop => absurd hop hs) nofun id h.pend, rfl⟩
  | shutdown => exact ⟨[], shutdown_turn h w.tcb.shutdown.appClosed w.tcb.shutdown.closeMs,
    (append_nil _).symm⟩
  | abort now => exact ⟨_, abort_turn h, rfl⟩
  | close now =>
    refine ⟨_, ?_, rfl⟩
    show Turn False w.tcb (w.tcb.close now)
    unfold Tcb.close
    split_ifs
    · exact abort_turn h
    · exact shutdown_turn h true now
  | setOpts o mem => exact ⟨[], .still h (if_neg hs) rfl id h.pend, (append_nil _).symm⟩
  | expire now => exact ⟨[], expire_turn h, (append_nil _).symm⟩
  | tick now => exact ⟨_, tick_turn h, rfl⟩

end Cervus.Tcp
