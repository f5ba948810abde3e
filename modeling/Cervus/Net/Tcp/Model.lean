import Cervus.Errno
import Cervus.Lib.Ring
import Cervus.Lib.Run
import Cervus.Lib.Seq

/-! The control block of a connection in `tcp.c`. Each function is what runs under the
lock of the block, together with the segments that it sends once the lock is free; how
much a task takes of a buffer in one turn of its loop is one such function too. -/

namespace Cervus.Tcp

open Cervus.Seq

abbrev Byte := BitVec 8

inductive St
  | closed | listen | synSent | synRcvd | established
  | finWait1 | finWait2 | closeWait | lastAck | timeWait
  deriving DecidableEq, Repr

def rtoMin : Int := 200
def rtoMax : Nat := 120000
def rtoInit : Nat := 1000
def tcpWscale : Nat := 7
def initCwnd : Nat := 10
def defMss : Nat := 536
def synRetries : Nat := 6
def retries2 : Nat := 15
def finTimeout : Nat := 60000
def timewaitMs : Nat := 2000
def wmemMax : Nat := 4 * 2 ^ 20
def cwndMax : Nat := 64 * 2 ^ 20
def oooMax : Nat := 16
def stackSeg : Nat := 1520
def rcvSlack : Nat := 2 ^ tcpWscale
def rmemDef : Nat := 131072
def wmemDef : Nat := 16384
def bufMax : Nat := 64 * 2 ^ 20

structure Opts where
  rcvbuf : Nat
  sndbuf : Nat
  nodelay : Bool
  keepalive : Bool
  kaIdle : Nat
  kaIntvl : Nat
  kaCnt : Nat
  rcvbuf_le : rcvbuf ≤ bufMax
  sndbuf_le : sndbuf ≤ bufMax

structure Flags where
  fin : Bool := false
  syn : Bool := false
  rst : Bool := false
  psh : Bool := false
  ack : Bool := false
  deriving DecidableEq, Repr

structure Segment where
  seq : Seq
  ack : Seq
  flags : Flags
  win : BitVec 16
  opts : List Byte
  data : List Byte
  deriving DecidableEq

structure Ooo where
  seq : Seq
  data : List Byte

structure Rcv where
  nxt : Seq
  adv : Seq
  wscale : Nat
  buf : Nat → Byte
  cap : Nat
  size : Nat
  head : Nat
  count : Nat
  ooo : List Ooo
  finSeen : Bool

structure Snd where
  iss : Seq
  una : Seq
  nxt : Seq
  smax : Seq
  wnd : Nat
  maxWnd : Nat
  wscale : Nat
  probeDue : Bool
  persistBackoff : Nat
  persistMs : Nat
  smss : Nat
  peerMss : Nat
  cwnd : Nat
  ssthresh : Nat
  dupacks : Nat
  rttSeq : Seq
  rttStart : Nat
  rttTiming : Bool
  srtt : Int
  rttvar : Int
  rtoMs : Nat
  buf : Nat → Byte
  cap : Nat
  head : Nat
  buflen : Nat
  lim : Nat
  locked : Bool
  pendFin : Bool
  finSent : Bool
  finSeq : Seq
  nodelay : Bool
  rexmitMs : Nat
  retries : Nat

structure Tcb where
  state : St
  snd : Snd
  rcv : Rcv
  mss : Nat
  wscaleOk : Bool
  pendSyn : Bool
  reset : Bool
  appClosed : Bool
  err : Int
  closeMs : Nat
  kaOn : Bool
  kaIdle : Nat
  kaIntvl : Nat
  kaCnt : Nat
  kaProbes : Nat
  lastRxMs : Nat

/-! The receive buffer and the segments kept for later. -/

def Rcv.window (r : Rcv) : Nat := if r.count < r.cap then r.cap - r.count else 0

def Rcv.space (r : Rcv) : Nat := r.size - r.count

def Rcv.push (r : Rcv) (data : List Byte) : Rcv × Nat :=
  let n := min data.length r.space
  let buf := if n = 0 then r.buf else Ring.put r.size r.buf ((r.head + r.count) % r.size)
    (data.take n)
  ({ r with buf := buf, count := r.count + n, nxt := r.nxt + BitVec.ofNat 32 n }, n)

def ahead (a b : Seq) : Nat := if 0 < diff a b then (a - b).toNat else 0

def oooPut (n : Ooo) : List Ooo → List Ooo
  | [] => [n]
  | q :: qs => if diff q.seq n.seq < 0 then q :: oooPut n qs else n :: q :: qs

/-- `mem` says whether there is memory for the copy. -/
def Rcv.oooInsert (r : Rcv) (mem : Bool) (seq : Seq) (data : List Byte) : Rcv :=
  let gap := (seq - r.nxt).toNat
  let wnd := min (ahead r.adv r.nxt) r.space
  if wnd ≤ gap then r
  else
    let data := data.take (wnd - gap)
    if r.ooo.any (fun q => q.seq == seq && decide (data.length ≤ q.data.length)) then r
    else if oooMax ≤ r.ooo.length ∨ mem = false then r
    else { r with ooo := oooPut ⟨seq, data⟩ r.ooo }

def Rcv.drainPass (r : Rcv) : List Ooo → Rcv × List Ooo × Bool × Bool
  | [] => (r, [], false, false)
  | q :: qs =>
    let off := diff r.nxt q.seq
    if 0 ≤ off ∧ off < q.data.length then
      let rest := q.data.drop off.toNat
      let p := r.push rest
      if p.2 < rest.length then (p.1, q :: qs, false, true)
      else
        let (r', qs', _, full) := p.1.drainPass qs
        (r', qs', true, full)
    else if (q.data.length : Int) ≤ off then
      let (r', qs', _, full) := r.drainPass qs
      (r', qs', true, full)
    else
      let (r', qs', progress, full) := r.drainPass qs
      (r', q :: qs', progress, full)

def Rcv.drainLoop : Nat → Rcv → Rcv
  | 0, r => r
  | fuel + 1, r =>
    match r.drainPass r.ooo with
    | (r', qs, progress, full) =>
      let r' := { r' with ooo := qs }
      if progress ∧ full = false then drainLoop fuel r' else r'

def Rcv.drain (r : Rcv) : Rcv := drainLoop (r.ooo.length + 1) r

/-! Segments that are sent. -/

/-- The window field of a segment and the edge that it offers, as `tcp_emit` sets them. -/
def Rcv.emit (r : Rcv) (mss : Nat) (flags : Flags) : Rcv × Nat :=
  let avail := if flags.syn = false ∧ r.window < r.cap / 2 ∧ r.window < mss then 0 else r.window
  let keep := ahead r.adv r.nxt
  let unit := 2 ^ r.wscale
  let k := if r.space < (keep + unit - 1) / unit * unit then keep / unit
    else (keep + unit - 1) / unit
  let win := if flags.syn then min avail 65535 else min (max (avail / unit) k) 65535
  let adv := if flags.syn then win else win * unit
  let edge := r.nxt + BitVec.ofNat 32 adv
  (if flags.ack ∧ flags.rst = false ∧ 0 < diff edge r.adv then { r with adv := edge } else r, win)

def Tcb.emit (t : Tcb) (seq : Seq) (flags : Flags) (opts data : List Byte) : Tcb × Segment :=
  let p := t.rcv.emit t.mss flags
  ({ t with rcv := p.1 }, ⟨seq, if flags.ack then t.rcv.nxt else 0, flags, BitVec.ofNat 16 p.2,
    opts, data⟩)

def Tcb.synOpts (t : Tcb) (flags : Flags) : List Byte :=
  if flags.syn then
    [2, 4, BitVec.ofNat 8 (t.mss / 256), BitVec.ofNat 8 t.mss] ++
      if flags.ack = false ∨ t.wscaleOk then [1, 3, 3, BitVec.ofNat 8 t.rcv.wscale] else []
  else []

def Tcb.output (t : Tcb) (seq : Seq) (flags : Flags) : Tcb × Segment :=
  t.emit seq flags (t.synOpts flags) []

def Tcb.sendAck (t : Tcb) : Tcb × List Segment :=
  let p := t.output t.snd.nxt { ack := true }
  (p.1, [p.2])

@[simp] theorem emit_fst (t : Tcb) (seq : Seq) (flags : Flags) (opts data : List Byte) :
    (t.emit seq flags opts data).1 = { t with rcv := (t.rcv.emit t.mss flags).1 } := rfl

@[simp] theorem output_fst (t : Tcb) (seq : Seq) (flags : Flags) :
    (t.output seq flags).1 = { t with rcv := (t.rcv.emit t.mss flags).1 } := rfl

@[simp] theorem sendAck_fst (t : Tcb) :
    t.sendAck.1 = { t with rcv := (t.rcv.emit t.mss { ack := true }).1 } := rfl

/-! What the other side has announced, and the timers. -/

structure PeerOpts where
  peerMss : Nat
  wscale : Nat
  wscaleOk : Bool

def parseOpts : Nat → PeerOpts → List Byte → PeerOpts
  | 0, o, _ => o
  | _, o, [] => o
  | fuel + 1, o, kind :: rest =>
    if kind = 0 then o
    else if kind = 1 then parseOpts fuel o rest
    else match rest with
      | [] => o
      | olen :: body =>
        if olen.toNat < 2 ∨ body.length < olen.toNat - 2 then o
        else
          let o :=
            if kind = 2 ∧ olen = 4 then
              let m := (body.getD 0 0).toNat * 256 + (body.getD 1 0).toNat
              if 88 ≤ m then { o with peerMss := m } else o
            else if kind = 3 ∧ olen = 3 then
              { o with wscale := min (body.getD 0 0).toNat 14, wscaleOk := true }
            else o
          parseOpts fuel o (body.drop (olen.toNat - 2))

def Tcb.peerOpts (t : Tcb) (opts : List Byte) : Tcb :=
  let o := parseOpts opts.length ⟨t.snd.peerMss, t.snd.wscale, t.wscaleOk⟩ opts
  { t with
    snd := { t.snd with peerMss := o.peerMss, wscale := if o.wscaleOk then o.wscale else 0 }
    rcv := { t.rcv with wscale := if o.wscaleOk then t.rcv.wscale else 0 }
    wscaleOk := o.wscaleOk }

def Snd.autotune (s : Snd) : Snd :=
  if s.locked then s
  else
    let want := min (2 * max (s.cwnd / s.smss) initCwnd * s.smss) wmemMax
    if s.lim < want then { s with lim := want } else s

def Snd.handshakeDone (s : Snd) (mss : Nat) : Snd :=
  let smss := min mss s.peerMss
  Snd.autotune { s with
    smss := smss, cwnd := initCwnd * smss, ssthresh := 0x7fffffff, rexmitMs := 0, retries := 0 }

def Snd.rttUpdate (s : Snd) (sample : Int) : Snd :=
  let sample := max sample 1
  let rttvar := if s.srtt < 0 then sample / 2 else (3 * s.rttvar + |s.srtt - sample|) / 4
  let srtt := if s.srtt < 0 then sample else (7 * s.srtt + sample) / 8
  let rto := min (max (srtt + 4 * rttvar) rtoMin) rtoMax
  { s with srtt := srtt, rttvar := rttvar, rtoMs := rto.toNat }

def Snd.loss (s : Snd) : Snd :=
  let inflight := (s.smax - s.una).toNat
  { s with ssthresh := max (inflight / 2) (2 * s.smss), cwnd := s.smss, dupacks := 0 }

def Snd.finAcked (s : Snd) : Bool := s.finSent && decide (0 < diff s.una s.finSeq)

def Snd.advanceMax (s : Snd) : Snd := if 0 < diff s.nxt s.smax then { s with smax := s.nxt } else s

/-! The send buffer. -/

def sendOpen (st : St) : Bool :=
  st = .established ∨ st = .closeWait ∨ st = .finWait1 ∨ st = .lastAck

/-- The window in a turn of `tcp_try_send`: with none, a probe of one byte when it is due. -/
def Snd.room (s : Snd) (now : Nat) : Snd × Nat :=
  let inflight := (s.nxt - s.una).toNat
  let unsent := s.buflen - inflight
  let room := min s.cwnd s.wnd - inflight
  if s.wnd ≠ 0 then ({ s with probeDue := false, persistMs := 0, persistBackoff := 0 }, room)
  else if inflight = 0 ∧ unsent ≠ 0 then
    if s.probeDue then ({ s with probeDue := false }, 1)
    else if s.persistMs = 0 then
      ({ s with persistMs := now + min (s.rtoMs * 2 ^ min s.persistBackoff 9) rtoMax }, room)
    else (s, room)
  else (s, room)

def Snd.segLen (s : Snd) (room : Nat) : Nat :=
  let inflight := (s.nxt - s.una).toNat
  let unsent := s.buflen - inflight
  let n := min (min unsent room) s.smss
  if n < s.smss ∧ n = unsent ∧ inflight ≠ 0 ∧ s.nodelay = false ∧ s.pendFin = false then 0
  else if n < s.smss ∧ n < unsent ∧ inflight ≠ 0 ∧ n < s.maxWnd / 2 then 0
  else n

def Snd.sent (s : Snd) (now n : Nat) : Snd :=
  let fresh := decide (0 ≤ diff s.nxt s.smax)
  let s' := Snd.advanceMax { s with nxt := s.nxt + BitVec.ofNat 32 n }
  let s' := if fresh && !s.rttTiming
    then { s' with rttTiming := true, rttSeq := s.nxt, rttStart := now } else s'
  if s'.rexmitMs = 0 then { s' with rexmitMs := now + s'.rtoMs } else s'

def Snd.finDue (s : Snd) : Bool :=
  s.pendFin && s.buflen == 0 && s.una == s.nxt && !s.finAcked && (!s.finSent || s.nxt == s.finSeq)

def Snd.finOut (s : Snd) (now : Nat) : Snd :=
  let s' := { s with
    finSeq := if s.finSent then s.finSeq else s.nxt, finSent := true, nxt := s.nxt + 1 }.advanceMax
  if s'.rexmitMs = 0 then { s' with rexmitMs := now + s'.rtoMs } else s'

/-- A turn of the loop of `tcp_try_send`. `mem` says whether there is memory for a segment
that does not fit the stack. -/
def Tcb.trySend (t : Tcb) (now : Nat) (mem : Bool) : Tcb × List Segment :=
  if sendOpen t.state = false ∨ t.reset then (t, [])
  else
    let (s, room) := t.snd.room now
    let n := s.segLen room
    let inflight := (s.nxt - s.una).toNat
    if n ≠ 0 then
      if stackSeg < 20 + n ∧ mem = false then ({ t with snd := s }, [])
      else
        let data := Ring.get s.cap s.buf ((s.head + inflight) % s.cap) n
        let p := { t with snd := s.sent now n }.emit s.nxt
          { ack := true, psh := n = s.buflen - inflight } [] data
        (p.1, [p.2])
    else if s.finDue then
      let p := { t with snd := s.finOut now }.output s.nxt { ack := true, fin := true }
      (p.1, [p.2])
    else ({ t with snd := s }, [])

def Snd.space (s : Snd) : Nat := if s.buflen < s.lim then s.lim - s.buflen else 0

/-- The size for the buffer of `tcp_send` to hold `need` bytes; doubling reaches it in
fewer than 32 turns. -/
def growWant (cap lim need : Nat) : Nat :=
  let rec double : Nat → Nat → Nat
    | 0, want => want
    | fuel + 1, want => if want < need then double fuel (2 * want) else want
  let want := double 32 (if cap ≠ 0 then cap else 4096)
  if lim < want ∧ need ≤ lim then lim else want

def Snd.grow (s : Snd) (want : Nat) : Snd :=
  if s.cap < want then
    { s with
      buf := if s.buflen = 0 then fun _ => 0 else Disk.write (fun _ => 0) 0
        (Ring.get s.cap s.buf s.head s.buflen)
      cap := want, head := 0 }
  else s

inductive SendTurn
  | failed (e : Int)
  | grow (want : Nat)
  | put (n : Nat)
  | full
  deriving DecidableEq

def Tcb.sendTurn (t : Tcb) (data : List Byte) : Tcb × SendTurn :=
  if t.err ≠ 0 then ({ t with err := 0 }, .failed t.err)
  else if t.reset ∨ t.snd.pendFin ∨ ¬(t.state = .established ∨ t.state = .closeWait ∨
      t.state = .synSent ∨ t.state = .synRcvd) then
    (t, .failed Errno.epipe)
  else
    let space := if t.state = .established ∨ t.state = .closeWait then t.snd.space else 0
    if space = 0 then (t, .full)
    else
      let s := t.snd
      let n := min data.length space
      if s.cap < s.buflen + n then (t, .grow (growWant s.cap s.lim (s.buflen + n)))
      else
        let buf := Ring.put s.cap s.buf ((s.head + s.buflen) % s.cap) (data.take n)
        ({ t with snd := { s with buf := buf, buflen := s.buflen + n } }, .put n)

/-! What the owner of the socket does. -/

def Tcb.windowUpdateDue (t : Tcb) : Bool :=
  if t.state = .established ∨ t.state = .finWait1 ∨ t.state = .finWait2 then
    let right := t.rcv.nxt + BitVec.ofNat 32 t.rcv.window
    decide ((min (2 * t.mss) (t.rcv.cap / 2) : Nat) ≤ diff right t.rcv.adv)
  else false

inductive RecvTurn
  | took (data : List Byte)
  | peeked (data : List Byte)
  | failed (e : Int)
  | ended
  | empty
  deriving DecidableEq

structure RecvFlags where
  peek : Bool
  waitall : Bool
  nonblock : Bool

/-- What a turn of the loop of `tcp_recv` does when it takes nothing. -/
def Tcb.recvNone (t : Tcb) (got : Nat) : Tcb × RecvTurn × List Segment :=
  if got = 0 ∧ t.err ≠ 0 then ({ t with err := 0 }, .failed t.err, [])
  else if t.rcv.finSeen ∨ t.reset ∨ t.state = .closed then (t, .ended, [])
  else (t, .empty, [])

def Tcb.recvTurn (t : Tcb) (fl : RecvFlags) (len got : Nat) : Tcb × RecvTurn × List Segment :=
  let r := t.rcv
  if fl.peek then
    let target := if fl.waitall then len else 1
    if target ≤ r.count ∨ (r.count ≠ 0 ∧ (r.finSeen ∨ t.reset ∨ fl.nonblock)) then
      (t, .peeked (Ring.get r.size r.buf r.head (min r.count len)), [])
    else t.recvNone got
  else if r.count ≠ 0 then
    let n := min r.count (len - got)
    let data := Ring.get r.size r.buf r.head n
    let t' := { t with rcv := { r with head := (r.head + n) % r.size, count := r.count - n } }
    let p := if t'.windowUpdateDue then t'.sendAck else (t', [])
    (p.1, .took data, p.2)
  else t.recvNone got

def Tcb.shutdown (t : Tcb) : Tcb :=
  if t.snd.pendFin then t
  else match t.state with
    | .established => { t with state := .finWait1, snd := { t.snd with pendFin := true } }
    | .closeWait => { t with state := .lastAck, snd := { t.snd with pendFin := true } }
    | .synSent | .synRcvd =>
      { t with state := .closed, pendSyn := false, snd := { t.snd with rexmitMs := 0 } }
    | _ => t

def Tcb.abort (t : Tcb) (now : Nat) : Tcb × List Segment :=
  let st := t.state
  let sendRst := !t.reset && decide (st ≠ .closed ∧ st ≠ .listen ∧ st ≠ .timeWait ∧ st ≠ .synSent)
  let t' := { t with
    state := .closed, reset := true, pendSyn := false, snd := { t.snd with rexmitMs := 0 }
    appClosed := true, closeMs := now }
  if sendRst then
    let p := t'.output t.snd.smax { rst := true, ack := true }
    (p.1, [p.2])
  else (t', [])

def Tcb.close (t : Tcb) (now : Nat) : Tcb × List Segment :=
  if 0 < t.rcv.count then t.abort now
  else ({ t.shutdown with appClosed := true, closeMs := now }, [])

def Rcv.resize (r : Rcv) (want : Nat) : Rcv :=
  { r with
    buf := if r.count = 0 then fun _ => 0 else Disk.write (fun _ => 0) 0
      (Ring.get r.size r.buf r.head r.count)
    cap := want, size := want + rcvSlack, head := 0 }

def Tcb.setOpts (t : Tcb) (o : Opts) (mem : Bool) : Tcb :=
  let s := { t.snd with
    nodelay := o.nodelay
    lim := if o.sndbuf ≠ 0 then o.sndbuf else t.snd.lim
    locked := decide (o.sndbuf ≠ 0) || t.snd.locked }
  let r := if mem ∧ o.rcvbuf ≠ 0 ∧ o.rcvbuf ≠ t.rcv.cap ∧
    t.rcv.count ≤ o.rcvbuf then t.rcv.resize o.rcvbuf
    else t.rcv
  { t with
    snd := s, rcv := r, kaOn := o.keepalive
    kaIdle := if o.kaIdle ≠ 0 then o.kaIdle else t.kaIdle
    kaIntvl := if o.kaIntvl ≠ 0 then o.kaIntvl else t.kaIntvl
    kaCnt := if o.kaCnt ≠ 0 then o.kaCnt else t.kaCnt }

/-! A segment that arrives. -/

/-- What the code finds around it: the time, memory for a copy, and whether there is no
listener left to take a new connection. -/
structure Env where
  now : Nat
  mem : Bool
  orphan : Bool

def Tcb.inputRst (t : Tcb) (g : Segment) : Tcb :=
  let st := t.state
  if st = .synSent ∧ (g.flags.ack = false ∨ g.ack ≠ t.snd.iss + 1) then t
  else
    let err :=
      if t.err = 0 ∧ t.appClosed = false ∧ st ≠ .closed ∧ st ≠ .timeWait then
        if st = .synSent then Errno.econnrefused else if st = .closeWait then Errno.epipe
          else Errno.econnreset
      else t.err
    { t with
      err := err, reset := true, state := .closed, pendSyn := false
      snd := { t.snd with rexmitMs := 0 } }

def Tcb.inputSynSent (t : Tcb) (g : Segment) : Tcb × List Segment :=
  if g.flags.syn ∧ g.flags.ack ∧ g.ack = t.snd.iss + 1 then
    let t := t.peerOpts g.opts
    let s := { t.snd with una := g.ack, wnd := g.win.toNat, maxWnd := g.win.toNat }
    { t with
      rcv := { t.rcv with nxt := g.seq + 1, adv := g.seq + 1 }
      snd := s.handshakeDone t.mss, pendSyn := false, state := .established }.sendAck
  else if g.flags.ack ∧ g.ack ≠ t.snd.iss + 1 then
    let p := t.emit g.ack { rst := true } [] []
    (p.1, [p.2])
  else (t, [])

def Tcb.inputSynRcvd (t : Tcb) (g : Segment) : Tcb :=
  let wnd := g.win.toNat * 2 ^ t.snd.wscale
  let s := { t.snd with una := g.ack, wnd := wnd, maxWnd := max t.snd.maxWnd wnd }
  { t with snd := s.handshakeDone t.mss, pendSyn := false, state := .established }

def Snd.acked (s : Snd) (now : Nat) (ack : Seq) (newWnd : Nat) : Snd :=
  let adv := (ack - s.una).toNat
  let dataAcked := min adv s.buflen
  let s := if 0 < diff ack s.nxt then { s with nxt := ack } else s
  let s := if dataAcked ≠ 0 then
      { s with head := (s.head + dataAcked) % s.cap, buflen := s.buflen - dataAcked } else s
  let s := if s.rttTiming ∧ 0 < diff ack s.rttSeq then
      { s.rttUpdate (now - s.rttStart : Nat) with rttTiming := false } else s
  let cwnd := if s.cwnd < s.ssthresh then s.cwnd + min adv s.smss
    else s.cwnd + max (s.smss * s.smss / (if s.cwnd ≠ 0 then s.cwnd else s.smss)) 1
  let s := Snd.autotune { s with cwnd := min cwnd cwndMax }
  { s with
    dupacks := 0, una := ack, wnd := newWnd, maxWnd := max s.maxWnd newWnd, retries := 0
    rexmitMs := if ack = s.smax then 0 else now + s.rtoMs }

def Snd.fastRetransmit (s : Snd) (now : Nat) : Snd :=
  let l := s.loss
  { l with
    cwnd := l.ssthresh + 3 * l.smss, nxt := l.una, rttTiming := false, rexmitMs := now + l.rtoMs }

def Snd.dupAck (s : Snd) (now : Nat) (newWnd : Nat) (bare : Bool) : Snd :=
  let outstanding := decide (s.smax ≠ s.una)
  let s' :=
    if newWnd ≠ s.wnd then
      { s with
        wnd := newWnd, maxWnd := max s.maxWnd newWnd, dupacks := 0
        rexmitMs := if s.una = s.smax then 0 else s.rexmitMs }
    else if bare && outstanding && decide (newWnd ≠ 0) then
      if s.dupacks + 1 = 3 then s.fastRetransmit now
      else { s with dupacks := s.dupacks + 1 }
    else s
  if newWnd = 0 ∧ outstanding then { s' with retries := 0 } else s'

/-- The acknowledgement of a segment; `none` for one of data that were never sent. -/
def Snd.inputAck (s : Snd) (now : Nat) (g : Segment) : Option Snd :=
  let newWnd := g.win.toNat * 2 ^ s.wscale
  if 0 < diff g.ack s.una ∧ diff g.ack s.smax ≤ 0 then some (s.acked now g.ack newWnd)
  else if g.ack = s.una then
    some (s.dupAck now newWnd (decide (g.data = []) && !g.flags.syn && !g.flags.fin))
  else if 0 < diff g.ack s.smax then none
  else some s

def Tcb.finAckedState (t : Tcb) : Tcb :=
  if t.snd.finAcked then
    match t.state with
    | .finWait1 => { t with state := .finWait2 }
    | .lastAck => { t with state := .closed, snd := { t.snd with rexmitMs := 0 } }
    | _ => t
  else t

def dataOk (st : St) : Bool := st = .established ∨ st = .finWait1 ∨ st = .finWait2

def Tcb.inputFin (t : Tcb) (now : Nat) : Tcb :=
  let t := { t with rcv := { t.rcv with nxt := t.rcv.nxt + 1, finSeen := true } }
  if t.state = .established then { t with state := .closeWait }
  else
    { t with
      state := .timeWait, closeMs := now
      snd := if t.snd.finAcked then { t.snd with rexmitMs := 0 } else t.snd }

/-- The rest of `tcp_input` once data are in place: the end of the stream, and the answer. -/
def Tcb.inputEnd (t : Tcb) (now : Nat) (g : Segment) (ok : Bool) : Tcb × List Segment :=
  if g.flags.fin ∧ ok ∧ g.seq + BitVec.ofNat 32 g.data.length = t.rcv.nxt
    then (t.inputFin now).sendAck
  else if g.data ≠ [] then t.sendAck
  else (t, [])

def Tcb.inputData (t : Tcb) (e : Env) (g : Segment) : Tcb × List Segment :=
  let ok := dataOk t.state
  if g.data ≠ [] ∧ ok ∧ t.appClosed ∧ t.state ≠ .established then
    let t' := { t with state := .closed, reset := true, snd := { t.snd with rexmitMs := 0 } }
    let p := t'.output t.snd.smax { rst := true, ack := true }
    (p.1, [p.2])
  else if g.data ≠ [] ∧ ok then
    let off := diff t.rcv.nxt g.seq
    if (g.data.length : Int) ≤ off then t.sendAck
    else if 0 ≤ off then
      { t with rcv := (t.rcv.push (g.data.drop off.toNat)).1.drain }.inputEnd e.now g ok
    else { t with rcv := t.rcv.oooInsert e.mem g.seq g.data }.sendAck
  else t.inputEnd e.now g ok

def Tcb.inputSync (t : Tcb) (e : Env) (g : Segment) : Tcb × List Segment :=
  if t.state = .closed ∨ t.state = .listen then (t, [])
  else if g.flags.ack then
    match t.snd.inputAck e.now g with
    | none => t.sendAck
    | some s => { t with snd := s }.finAckedState.inputData e g
  else t.inputData e g

/-- `tcp_input` up to the calls of `tcp_try_send` at its end, which are turns of their own. -/
def Tcb.input (t : Tcb) (e : Env) (g : Segment) : Tcb × List Segment :=
  let t := { t with lastRxMs := e.now, kaProbes := 0 }
  if g.flags.rst then (t.inputRst g, [])
  else if t.state = .synSent then t.inputSynSent g
  else if t.state = .synRcvd then
    if g.flags.syn ∧ g.flags.ack = false then
      let p := t.output t.snd.iss { syn := true, ack := true }
      (p.1, [p.2])
    else if g.flags.ack = false ∨ g.ack ≠ t.snd.iss + 1 then (t, [])
    else if e.orphan then (t.inputSynRcvd g).abort e.now
    else (t.inputSynRcvd g).inputSync e g
  else t.inputSync e g

/-! Where `tcp_input` comes to `tcp_try_send`, and the two together. -/

def Tcb.dataSends (t : Tcb) (g : Segment) : Bool :=
  let ok := dataOk t.state
  if g.data ≠ [] ∧ ok ∧ t.appClosed ∧ t.state ≠ .established then false
  else if g.data ≠ [] ∧ ok then
    decide (diff t.rcv.nxt g.seq < g.data.length) && decide (0 ≤ diff t.rcv.nxt g.seq)
  else true

def Tcb.syncSends (t : Tcb) (e : Env) (g : Segment) : Bool :=
  if t.state = .closed ∨ t.state = .listen then false
  else if g.flags.ack then
    match t.snd.inputAck e.now g with
    | none => false
    | some s => { t with snd := s }.finAckedState.dataSends g
  else t.dataSends g

def Tcb.inputSends (t : Tcb) (e : Env) (g : Segment) : Bool :=
  if g.flags.rst ∨ t.state = .synSent then false
  else if t.state = .synRcvd then
    if g.flags.ack = false ∨ g.ack ≠ t.snd.iss + 1 ∨ e.orphan then false
    else (t.inputSynRcvd g).syncSends e g
  else t.syncSends e g

/-- `tcp_try_send` when nothing comes between its turns. A turn that sends takes a byte of the
buffer or the end of the stream, so `buflen + 2` turns are enough. -/
def Tcb.trySendAll (now : Nat) (mem : Bool) : Nat → Tcb → Tcb × List Segment
  | 0, t => (t, [])
  | fuel + 1, t =>
    match t.trySend now mem with
    | (t, []) => (t, [])
    | (t, g :: gs) =>
      let p := trySendAll now mem fuel t
      (p.1, g :: gs ++ p.2)

def Tcb.tcpInput (t : Tcb) (e : Env) (g : Segment) : Tcb × List Segment :=
  let p := t.input e g
  if t.inputSends e g then
    let q := p.1.trySendAll e.now e.mem (p.1.snd.buflen + 2)
    (q.1, p.2 ++ q.2)
  else p

/-! The timer. -/

def Tcb.retryLimit (t : Tcb) : Nat := if t.pendSyn then synRetries else retries2

def Tcb.timeOut (t : Tcb) : Tcb :=
  { t with
    err := if t.err = 0 ∧ t.appClosed = false then Errno.etimedout else t.err
    reset := true, state := .closed }

def Snd.backoff (s : Snd) (now : Nat) : Snd :=
  { s with
    retries := s.retries + 1, rttTiming := false
    rexmitMs := now + min (s.rtoMs * 2 ^ min (s.retries + 1) 10) rtoMax }

def Tcb.rexmit (t : Tcb) (now : Nat) : Tcb × List Segment :=
  if t.retryLimit < t.snd.retries + 1 then
    ({ t.timeOut with snd := { t.snd with rexmitMs := 0, retries := t.snd.retries + 1 } }, [])
  else
    let s := t.snd.backoff now
    if t.pendSyn then
      let p := { t with snd := s }.output s.iss { syn := true, ack := t.state == St.synRcvd }
      (p.1, [p.2])
    else if s.wnd = 0 ∧ (s.smax - s.una).toNat ≤ 1 then
      ({ t with snd := { s with retries := t.snd.retries, rexmitMs := 0, nxt := s.una } }, [])
    else ({ t with snd := { s.loss with nxt := s.una } }, [])

def Tcb.keepalive (t : Tcb) : Tcb × List Segment :=
  if t.kaCnt ≤ t.kaProbes then (t.timeOut, [])
  else
    let p := { t with kaProbes := t.kaProbes + 1 }.output (t.snd.una - 1) { ack := true }
    (p.1, [p.2])

def Tcb.tick (t : Tcb) (now : Nat) : Tcb × List Segment :=
  if t.snd.rexmitMs ≠ 0 ∧ t.snd.rexmitMs ≤ now ∧ t.state ≠ .closed ∧
    t.state ≠ .timeWait then t.rexmit now
  else if t.snd.persistMs ≠ 0 ∧ t.snd.persistMs ≤ now ∧
    (t.state = .established ∨ t.state = .closeWait) then
    ({ t with snd := { t.snd with
      persistMs := 0, persistBackoff := min (t.snd.persistBackoff + 1) 16, probeDue := true } }, [])
  else if t.kaOn ∧ t.snd.rexmitMs = 0 ∧ (t.state = .established ∨ t.state = .closeWait) ∧
    t.snd.una = t.snd.smax ∧
      t.kaIdle * 1000 + t.kaProbes * t.kaIntvl * 1000 ≤ now - t.lastRxMs then t.keepalive
  else (t, [])

def Tcb.expire (t : Tcb) (now : Nat) : Tcb :=
  let t := if t.state = .timeWait ∧ timewaitMs < now - t.closeMs then { t with state := .closed }
    else t
  if t.appClosed ∧ t.state = .finWait2 ∧ finTimeout < now - t.closeMs then
    { t with state := .closed, snd := { t.snd with rexmitMs := 0 } }
  else t

def Tcb.reap (t : Tcb) : Bool := t.appClosed && (t.reset || t.state == .closed)

/-! New blocks. -/

def Rcv.init (o : Opts) : Rcv :=
  let cap := if o.rcvbuf ≠ 0 then o.rcvbuf else rmemDef
  { nxt := 0, adv := 0, wscale := tcpWscale, buf := fun _ => 0, cap := cap, size := cap + rcvSlack
    head := 0, count := 0, ooo := [], finSeen := false }

def Snd.init (o : Opts) (iss : Seq) (mss now : Nat) : Snd :=
  { iss := iss, una := iss, nxt := iss + 1, smax := iss + 1, wnd := 0, maxWnd := 0, wscale := 0
    probeDue := false, persistBackoff := 0, persistMs := 0
    smss := min mss defMss, peerMss := defMss, cwnd := initCwnd * min mss defMss
    ssthresh := 0x7fffffff, dupacks := 0, rttSeq := 0, rttStart := 0, rttTiming := false
    srtt := -1, rttvar := 0, rtoMs := rtoInit
    buf := fun _ => 0, cap := 0, head := 0, buflen := 0
    lim := if o.sndbuf ≠ 0 then o.sndbuf else wmemDef, locked := decide (o.sndbuf ≠ 0)
    pendFin := false, finSent := false, finSeq := 0, nodelay := o.nodelay
    rexmitMs := now + rtoInit, retries := 0 }

def Tcb.start (st : St) (o : Opts) (iss : Seq) (mss now : Nat) : Tcb :=
  { state := st, snd := Snd.init o iss mss now, rcv := Rcv.init o, mss := mss, wscaleOk := false
    pendSyn := true, reset := false, appClosed := false, err := 0, closeMs := 0, kaOn := o.keepalive
    kaIdle := if o.kaIdle ≠ 0 then o.kaIdle else 7200
    kaIntvl := if o.kaIntvl ≠ 0 then o.kaIntvl else 75
    kaCnt := if o.kaCnt ≠ 0 then o.kaCnt else 9, kaProbes := 0, lastRxMs := now }

def Tcb.connect (o : Opts) (iss : Seq) (mss now : Nat) : Tcb × List Segment :=
  let p := (Tcb.start .synSent o iss mss now).output iss { syn := true }
  (p.1, [p.2])

def Tcb.child (o : Opts) (iss : Seq) (mss now : Nat) (g : Segment) : Tcb × List Segment :=
  let t := (Tcb.start .synRcvd o iss mss now).peerOpts g.opts
  let t := { t with
    snd := { t.snd with wnd := g.win.toNat, maxWnd := g.win.toNat }
    rcv := { t.rcv with nxt := g.seq + 1, adv := g.seq + 1 } }
  let p := t.output iss { syn := true, ack := true }
  (p.1, [p.2])

/-! The life of one connection, with what has gone over the wire and through the calls. -/

inductive Action
  | input (e : Env) (g : Segment)
  | recv (fl : RecvFlags) (len got : Nat)
  | send (data : List Byte)
  | grow (want : Nat)
  | trySend (now : Nat) (mem : Bool)
  | sendAck
  | shutdown
  | abort (now : Nat)
  | close (now : Nat)
  | setOpts (o : Opts) (mem : Bool)
  | expire (now : Nat)
  | tick (now : Nat)
  | takeError

structure World where
  tcb : Tcb
  sent : List Segment
  taken : List Byte
  written : List Byte

def RecvTurn.bytes : RecvTurn → List Byte
  | .took data => data
  | _ => []

def SendTurn.bytes (data : List Byte) : SendTurn → List Byte
  | .put n => data.take n
  | _ => []

def World.emit (w : World) (p : Tcb × List Segment) : World :=
  { w with tcb := p.1, sent := w.sent ++ p.2 }

def World.next (w : World) : Action → World
  | .input e g => w.emit (w.tcb.input e g)
  | .recv fl len got =>
    let p := w.tcb.recvTurn fl len got
    { w.emit (p.1, p.2.2) with taken := w.taken ++ p.2.1.bytes }
  | .send data =>
    let p := w.tcb.sendTurn data
    { w with tcb := p.1, written := w.written ++ p.2.bytes data }
  | .grow want => { w with tcb := { w.tcb with snd := w.tcb.snd.grow want } }
  | .trySend now mem => w.emit (w.tcb.trySend now mem)
  | .sendAck => w.emit w.tcb.sendAck
  | .shutdown => { w with tcb := w.tcb.shutdown }
  | .abort now => w.emit (w.tcb.abort now)
  | .close now => w.emit (w.tcb.close now)
  | .setOpts o mem => { w with tcb := w.tcb.setOpts o mem }
  | .expire now => { w with tcb := w.tcb.expire now }
  | .tick now => w.emit (w.tcb.tick now)
  | .takeError => { w with tcb := { w.tcb with err := 0 } }

def World.start (p : Tcb × List Segment) : World := ⟨p.1, p.2, [], []⟩

def connection (p : Tcb × List Segment) : System World Action where
  init := World.start p
  next w a := some (w.next a)

end Cervus.Tcp
