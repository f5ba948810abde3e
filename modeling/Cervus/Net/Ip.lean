import Cervus.Net.Bytes
import Cervus.Lib.Carry

/-! Reassembly of IP fragments, `kernel/src/net/ip_frag.c`. An access outside a slot's
buffers or bitmap gives `none`. -/

namespace Cervus.Net

open List Function

def fragSlots : Nat := 8
def fragMaxlen : Nat := 65535
def fragUnits : Nat := fragMaxlen / 8 + 1
def fragBmap : Nat := fragUnits / 8
def fragTimeoutNs : Nat := 30000000000
def firstHdrSize : Nat := 68

structure Key where
  src : Nat
  dst : Nat
  id : Nat
  proto : Nat
  deriving DecidableEq

structure Piece where
  key : Key
  off : Nat
  data : List Byte
  deriving DecidableEq

/-- A `frag_t`. `pieces` is a history variable: the fragments accepted since the slot was
claimed. -/
structure Slot where
  used : Bool
  key : Key
  haveFirst : Bool
  firstHdr : List Byte
  total : Nat
  filled : Nat
  deadline : Nat
  buf : Option (Nat → Byte)
  bmap : Nat → Bool
  pieces : List Piece

abbrev Frags := Fin fragSlots → Slot

def Slot.reset (f : Slot) : Slot :=
  { f with
    used := false
    haveFirst := false
    total := 0
    filled := 0
    firstHdr := []
    bmap := fun _ => false
    pieces := [] }

def Slot.claimed (f : Slot) (now : Nat) (buf : Option (Nat → Byte)) : Slot :=
  { f.reset with used := true, deadline := (now + fragTimeoutNs) % 2 ^ 64, buf := buf }

def slotFind (S : Frags) (k : Key) : Option (Fin fragSlots) :=
  (finRange fragSlots).find? fun i => (S i).used && decide ((S i).key = k)

def oldest (S : Frags) : Fin fragSlots :=
  (finRange fragSlots).foldl
    (fun best i => if (S i).deadline < (S best).deadline then i else best) ⟨0, by decide⟩

/-- `fresh` is what `malloc` would return: a buffer with any contents, or nothing. -/
def slotClaim (S : Frags) (now : Nat) (fresh : Option (Nat → Byte)) :
    Option (Frags × Fin fragSlots) :=
  match (finRange fragSlots).find? fun i => !(S i).used with
  | some i =>
    match (S i).buf <|> fresh with
    | none => none
    | some b => some (update S i ((S i).claimed now (some b)), i)
  | none =>
    let i := oldest S
    some (update S i ((S i).claimed now (S i).buf), i)

/-- One turn of the loop of `bmap_fill`: unit `u` is taken from `data`, which lies at
`off`, unless it is there already. -/
def fillUnit (off : Nat) (data : List Byte) (u : Nat) (f : Slot) : Option Slot :=
  if fragBmap ≤ u / 8 then none
  else if f.bmap u then some f
  else
    let b := max (u * 8) off
    let stop := min (u * 8 + 8) (off + data.length)
    match f.buf with
    | none => none
    | some buf =>
      if fragMaxlen < stop then none
      else some { f with
        bmap := update f.bmap u true
        filled := f.filled + 1
        buf := some fun p => if b ≤ p ∧ p < stop then data.getD (p - off) 0 else buf p }

def fillLoop (off : Nat) (data : List Byte) : Nat → Nat → Slot → Option Slot
  | 0, _, f => some f
  | n + 1, u, f => do
    let f ← fillUnit off data u f
    fillLoop off data n (u + 1) f

def bmapFill (f : Slot) (off : Nat) (data : List Byte) : Option Slot :=
  let first := off / 8
  let last := (off + data.length + 7) / 8
  fillLoop off data (last - first) first f

/-- What is handed to `ip_deliver`: the first `len` bytes of `buf`. `key` and `pieces`
say where they come from. -/
structure Delivery where
  key : Key
  buf : Nat → Byte
  len : Nat
  pieces : List Piece

structure Header where
  ihl : Nat
  key : Key
  off : Nat
  more : Bool

def readHeader (pkt : List Byte) : Header where
  ihl := (pkt.getD 0 0).toNat % 16 * 4
  key := ⟨rd32be pkt 12, rd32be pkt 16, rd16be pkt 4, (pkt.getD 9 0).toNat⟩
  off := rd16be pkt 6 % 8192 * 8
  more := decide (rd16be pkt 6 / 8192 % 2 = 1)

def noteFirst (f : Slot) (h : Header) (pkt : List Byte) : Option Slot :=
  if h.off = 0 ∧ f.haveFirst = false then
    let keep := min (pkt.length - h.ihl) 8
    if firstHdrSize < h.ihl + keep then none
    else some { f with haveFirst := true, firstHdr := pkt.take (h.ihl + keep) }
  else some f

def fragAccept (S : Frags) (i : Fin fragSlots) (h : Header) (pkt : List Byte) :
    Option (Frags × Option Delivery) :=
  let f := S i
  let data := pkt.drop h.ihl
  let stop := h.off + data.length
  if h.more = false ∧ f.total ≠ 0 ∧ f.total ≠ stop then
    some (update S i f.reset, none)
  else do
    let f := if h.more then f else { f with total := stop }
    let f ← noteFirst f h pkt
    let f ← bmapFill { f with pieces := ⟨h.key, h.off, data⟩ :: f.pieces } h.off data
    if f.total ≠ 0 ∧ f.filled = (f.total + 7) / 8 then
      let buf ← f.buf
      some (update S i { f.reset with buf := none },
        some ⟨f.key, buf, f.total, f.pieces⟩)
    else some (update S i f, none)

def ipFragInput (S : Frags) (pkt : List Byte) (now : Nat) (fresh : Option (Nat → Byte)) :
    Option (Frags × Option Delivery) :=
  let h := readHeader pkt
  let plen := pkt.length - h.ihl
  if h.ihl < 20 ∨ pkt.length < h.ihl then some (S, none)
  else if plen = 0 ∧ h.more then some (S, none)
  else if fragMaxlen < h.off + plen then some (S, none)
  else if h.more ∧ plen % 8 ≠ 0 then some (S, none)
  else
    match slotFind S h.key with
    | some i => fragAccept S i h pkt
    | none =>
      match slotClaim S now fresh with
      | none => some (S, none)
      | some (S, i) => fragAccept (update S i { S i with key := h.key }) i h pkt

def ipFragTick (S : Frags) (now : Nat) : Frags :=
  fun i =>
    if (S i).used ∧ (BitVec.ofNat 64 now - BitVec.ofNat 64 (S i).deadline).toInt ≥ 0
      then (S i).reset
    else S i

def fragInit : Frags :=
  fun _ => ⟨false, ⟨0, 0, 0, 0⟩, false, [], 0, 0, 0, none, fun _ => false, []⟩

/-! Sending and receiving IP packets, `kernel/src/net/ip.c`. -/

open Cervus.Lib

structure Netdev where
  ip : BitVec 32
  netmask : BitVec 32
  gateway : BitVec 32
  mtu : BitVec 32

/-- The tables that sending consults: the registered devices, the loopback device,
`netdev_route` with its next hop, and the addresses that ARP has resolved. -/
structure NetEnv where
  devs : List Netdev
  loopback : Option Netdev
  route : BitVec 32 → Option (Netdev × BitVec 32)
  arp : BitVec 32 → Bool

/-- The sum that `ip_checksum` folds. No packet is long enough for 32 bits to wrap. -/
def wordSum : List Byte → Nat
  | a :: b :: r => a.toNat * 256 + b.toNat + wordSum r
  | [a] => a.toNat * 256
  | [] => 0

def ipChecksum (p : List Byte) : Nat := 65535 - foldCarry 4 (wordSum p)

def sameSubnet (dev : Netdev) (ip : BitVec 32) : Bool :=
  decide (ip &&& dev.netmask = dev.ip &&& dev.netmask)

def ipIsLocal (env : NetEnv) (dev : Option Netdev) (ip : BitVec 32) : Bool :=
  decide (ip >>> 24 = 127) || dev.any (fun d => d.ip != 0 && ip == d.ip) ||
    env.devs.any (fun d => d.ip != 0 && ip == d.ip)

def ipFillHeader (src dst proto ttl id frag payload : Nat) : List Byte :=
  let start := [0x45#8, 0#8] ++ be16 (20 + payload) ++ be16 id ++ be16 frag ++
    [BitVec.ofNat 8 ttl, BitVec.ofNat 8 proto]
  let stop := be32 src ++ be32 dst
  start ++ be16 (ipChecksum (start ++ be16 0 ++ stop)) ++ stop

def sendTarget (env : NetEnv) (dev : Option Netdev) (dst : BitVec 32) :
    Option (Netdev × BitVec 32) :=
  if ipIsLocal env dev dst then env.loopback.map fun lo => (lo, dst)
  else if dst = 0xffffffff then dev.map fun d => (d, d.ip)
  else
    match env.route dst with
    | some (out, nexthop) => if env.arp nexthop then some (out, out.ip) else none
    | none =>
      match dev with
      | none => none
      | some d =>
        let nexthop := if sameSubnet d dst then dst else d.gateway
        if d.ip = 0 ∨ nexthop = 0 ∨ env.arp nexthop = false then none else some (d, d.ip)

def sendMtu (dev : Netdev) : Nat := min (max (if dev.mtu = 0 then 1500 else dev.mtu.toNat) 68) 65535

/-- The loop over the fragments. `mk` puts a header before the data; `tx` says which
packets are sent without an error. -/
def sendLoop (mk : Nat → List Byte → List Byte) (payload : List Byte) (chunk : Nat)
    (tx : Nat → Bool) : Nat → Nat → List (List Byte) × Bool
  | 0, _ => ([], true)
  | fuel + 1, off =>
    if off < payload.length then
      let n := min (payload.length - off) chunk
      let frag := off / 8 + if off + n < payload.length then 0x2000 else 0
      let pkt := mk frag ((payload.drop off).take n)
      if tx off then
        let r := sendLoop mk payload chunk tx fuel (off + chunk)
        (pkt :: r.1, r.2)
      else ([pkt], false)
    else ([], true)

/-- `ip_send` with the identification `id`: the packets handed to the device and whether
all were sent; `none` when nothing is. `mem` says that `malloc` succeeds. -/
def ipSend (env : NetEnv) (dev : Option Netdev) (dst : BitVec 32) (proto : Byte)
    (payload : List Byte) (ttl : Byte) (id : BitVec 16) (mem : Bool) (tx : Nat → Bool) :
    Option (List (List Byte) × Bool) :=
  if 65515 < payload.length then none
  else
    match sendTarget env dev dst with
    | none => none
    | some (out, src) =>
      let mtu := sendMtu out
      let chunk := (mtu - 20) / 8 * 8
      let want := 20 + if payload.length + 20 ≤ mtu then payload.length else chunk
      let mk := fun frag data =>
        ipFillHeader src.toNat dst.toNat proto.toNat ttl.toNat id.toNat frag data.length ++ data
      if 1520 < want ∧ mem = false then none
      else if 20 + payload.length ≤ mtu then some ([mk 0 payload], tx 0)
      else some (sendLoop mk payload chunk tx payload.length 0)

structure Datagram where
  src : Nat
  dst : Nat
  proto : Nat
  data : List Byte
  deriving DecidableEq

def Delivery.datagram (D : Delivery) : Datagram :=
  ⟨D.key.src, D.key.dst, D.key.proto, (List.range D.len).map D.buf⟩

def accepts (dev : Netdev) (dst : Nat) : Bool :=
  decide (dst / 2 ^ 24 = 127) || dev.ip == 0 || dst == dev.ip.toNat || dst == 0xffffffff

def ipRx (S : Frags) (dev : Netdev) (p : List Byte) (now : Nat) (fresh : Option (Nat → Byte)) :
    Option (Frags × Option Datagram) :=
  let ihl := (p.getD 0 0).toNat % 16 * 4
  if p.length < 20 ∨ (p.getD 0 0).toNat / 16 ≠ 4 then some (S, none)
  else if ihl < 20 ∨ p.length < ihl then some (S, none)
  else if ipChecksum (p.take ihl) ≠ 0 then some (S, none)
  else
    let total := rd16be p 2
    let total := if total < ihl ∨ p.length < total then p.length % 65536 else total
    let dst := rd32be p 16
    if accepts dev dst = false then some (S, none)
    else if rd16be p 6 / 8192 % 2 = 1 ∨ rd16be p 6 % 8192 ≠ 0 then
      (ipFragInput S (p.take total) now fresh).map fun r => (r.1, r.2.map Delivery.datagram)
    else some (S, some ⟨rd32be p 12, dst, (p.getD 9 0).toNat, (p.take total).drop ihl⟩)

end Cervus.Net
