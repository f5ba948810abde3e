import Cervus.Net.Tcp.Turn

/-! The right edge of the receive window: what has been offered can be stored. -/

namespace Cervus.Tcp

variable {r : Rcv} {t : Tcb}

/-- A new size of the receive buffer holds what was offered before. -/
def ResizeOk (w : World) : Action → Prop
  | .setOpts o _ =>
    o.rcvbuf ≠ 0 → w.tcb.rcv.count ≤ o.rcvbuf →
      ahead w.tcb.rcv.adv w.tcb.rcv.nxt ≤ o.rcvbuf + rcvSlack - w.tcb.rcv.count
  | _ => True

theorem Rcv.Held.setOpts (h : t.rcv.Held) {o : Opts} {mem : Bool}
    (hok : o.rcvbuf ≠ 0 → t.rcv.count ≤ o.rcvbuf →
    ahead t.rcv.adv t.rcv.nxt ≤ o.rcvbuf + rcvSlack - t.rcv.count) :
    (t.setOpts o mem).rcv.Held := by
  unfold Tcb.setOpts
  dsimp only
  split
  · rename_i hc
    have ha := ahead_eq (a := t.rcv.adv) (b := t.rcv.nxt)
    refine ⟨⟨⟨rfl, o.rcvbuf_le, ?_, h.scale⟩, h.lead_nonneg, ?_⟩, h.told⟩
    · exact Nat.le_trans hc.2.2.2 (Nat.le_add_right ..)
    · show Seq.diff t.rcv.adv t.rcv.nxt ≤ ((o.rcvbuf + rcvSlack - t.rcv.count : Nat) : Int)
      omega
  · exact h

theorem ResizeOk.ready {w : World} {a : Action} (h : w.tcb.Ready) (hok : ResizeOk w a) :
    (w.next a).tcb.Ready := by
  by_cases hs : Steady w a
  · obtain ⟨gs, ht, -⟩ := hs.turn h
    exact ht.ready
  · cases a with
    | setOpts o mem => exact ⟨h.held.setOpts hok, h.pend⟩
    | sendAck => exact ⟨h.held.emit, h.pend⟩
    | _ => exact absurd trivial hs

def withScale (scale : Nat) (p : Tcb × List Segment) : Tcb × List Segment :=
  ({ p.1 with rcv := { p.1.rcv with wscale := scale } }, p.2)

inductive Opening : Tcb × List Segment → Prop
  | connect (o : Opts) (iss : Seq) (mss now scale : Nat) (h : scale ≤ 14) :
    Opening (withScale scale (Tcb.connect o iss mss now))
  | child (o : Opts) (iss : Seq) (mss now : Nat) (g : Segment) (scale : Nat) (h : scale ≤ 14) :
    Opening (withScale scale (Tcb.child o iss mss now g))

theorem init_sized (o : Opts) : (Rcv.init o).Sized := by
  refine ⟨rfl, ?_, Nat.zero_le _, (by decide : tcpWscale ≤ 14)⟩
  show (if o.rcvbuf ≠ 0 then o.rcvbuf else rmemDef) ≤ bufMax
  split
  · exact o.rcvbuf_le
  · decide

theorem synAck_lead (h : r.adv = r.nxt) :
    (r.emit mss { syn := true, ack := true }).1.lead ≤ 65535 := by
  obtain ⟨n, hn, he⟩ : ∃ n ≤ 65535, (r.emit mss { syn := true, ack := true }).1 =
      if 0 < Seq.diff (r.nxt + BitVec.ofNat 32 n) r.adv
        then { r with adv := r.nxt + BitVec.ofNat 32 n } else r :=
    ⟨min r.window 65535, min_le_right _ _, by simp [Rcv.emit]⟩
  rw [he]
  split_ifs
  · rw [Rcv.lead, diff_nxt_add r (by omega)]
    exact_mod_cast hn
  · rw [Rcv.lead, h, Seq.diff_self]
    decide

theorem Rcv.Offered.rescale (h : r.Offered) (hs : scale ≤ 14) (hl : r.lead ≤ 65535) :
    Rcv.Held { r with wscale := scale } := by
  refine ⟨⟨⟨h.size, h.cap, h.count, hs⟩, h.lead_nonneg, h.lead_le⟩, ?_⟩
  have h1 : (1 : Int) ≤ ({ r with wscale := scale } : Rcv).unit := by exact_mod_cast Rcv.unit_pos _
  show r.lead ≤ _
  omega

theorem Opening.ready {p : Tcb × List Segment} (h : Opening p) : p.1.Ready ∧ p.1.state.opening := by
  cases h with
  | connect o iss mss now scale hs => exact ⟨⟨(init_sized o).level 0 hs, fun _ => .inl (.inl rfl)⟩,
    .inl rfl⟩
  | child o iss mss now g scale hs =>
    have hsc := peerOpts_scale (t := Tcb.start .synRcvd o iss mss now)
      (by decide : tcpWscale ≤ 14) g.opts
    exact ⟨⟨((init_sized o).level (g.seq + 1) hsc).toOffered.emit.rescale hs (synAck_lead rfl),
      fun _ => .inl (.inr rfl)⟩, .inr rfl⟩

/-- Every byte below an edge that was ever offered can be stored, if no change of the
receive buffer takes offered space away. -/
theorem offered_stored {p : Tcb × List Segment} {w : World} (hp : Opening p)
    (h : (connection p).Reach ResizeOk w) :
    ahead w.tcb.rcv.adv w.tcb.rcv.nxt ≤ w.tcb.rcv.space := by
  have ho : w.tcb.Ready := by
    refine h.invariant (I := fun w => w.tcb.Ready) hp.ready.1 fun w a w' _ hi hok hn => ?_
    cases hn
    exact hok.ready hi
  have := ahead_eq (a := w.tcb.rcv.adv) (b := w.tcb.rcv.nxt)
  have hl := ho.held.lead_le
  rw [Rcv.lead] at hl
  omega

def plainOpts (rcvbuf : Nat) (h : rcvbuf ≤ bufMax) : Opts :=
  ⟨rcvbuf, 0, false, false, 0, 0, 0, h, Nat.zero_le _⟩

def synAck : Segment := ⟨100, 1, { syn := true, ack := true }, 1000, [], []⟩

def opened : Tcb × List Segment := withScale 0 (Tcb.connect (plainOpts 0 (by decide)) 0 1460 0)

theorem offered_stored_opened :
    ((connection opened).final [.input ⟨0, true, false⟩ synAck]).tcb.rcv.space = 131200 ∧
    ahead ((connection opened).final [.input ⟨0, true, false⟩ synAck]).tcb.rcv.adv
      ((connection opened).final [.input ⟨0, true, false⟩ synAck]).tcb.rcv.nxt ≤
    ((connection opened).final [.input ⟨0, true, false⟩ synAck]).tcb.rcv.space :=
  ⟨by decide +kernel, offered_stored (.connect _ _ _ _ _ (by decide))
    (System.Reach.final ⟨trivial, fun _ _ => trivial⟩ (by decide +kernel))⟩

def shrunk : World :=
  (connection opened).final [.input ⟨0, true, false⟩ synAck,
    .setOpts (plainOpts 4096 (by decide)) true]

/-- The buffer has become smaller than the window that was offered. -/
theorem shrunk_below_offer : (connection opened).Reach System.anyStep shrunk ∧ Opening opened ∧
    shrunk.tcb.rcv.space < ahead shrunk.tcb.rcv.adv shrunk.tcb.rcv.nxt :=
  ⟨System.Reach.final System.runOk_any (by decide +kernel), .connect _ _ _ _ _ (by decide),
    by decide +kernel⟩

end Cervus.Tcp
