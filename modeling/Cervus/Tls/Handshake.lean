import Cervus.Crypto.X509

/-! The client's side of the TLS 1.3 handshake of `tls.c`, from the ServerHello to the check of
the server's certificate. What the record layer delivers is given; so are the hashes, the
signatures, the parser of certificates and the key of the Finished message. -/

namespace Cervus.Tls

open List
open X509 (Byte Bytes Cert SigAlg Primitives)

def hsbufSize : Nat := 32768

structure Env where
  prim : Primitives
  parseCert : Bytes → Option Cert
  finished : Bytes → Bytes → Bytes
  store : Option (List Cert)
  host : Bytes
  now : Int
  clientHello : Bytes
  records : List (Byte × Bytes)
  /-- The memory behind `hsbuf`. -/
  beyond : Bytes
  sends : Bool

def u16 (a b : Byte) : Nat := a.toNat * 256 + b.toNat

def u24 (a b c : Byte) : Nat := a.toNat * 65536 + b.toNat * 256 + c.toNat

/-! The ServerHello. -/

def hrr : Bytes :=
  [0xCF, 0x21, 0xAD, 0x74, 0xE5, 0x9A, 0x61, 0x11, 0xBE, 0x1D, 0x8C, 0x02, 0x1E, 0x65, 0xB8, 0x91,
    0xC2, 0xA2, 0x11, 0x16, 0x7A, 0xBB, 0x8C, 0x5E, 0x07, 0x9E, 0x09, 0xE2, 0xC8, 0xA8, 0x33, 0x9C]

def keyShare : Nat → Bytes → Bool → Bool
  | fuel + 1, t1 :: t0 :: l1 :: l0 :: p, got =>
    let el := u16 l1 l0
    if p.length < el then got
    else
      let here := match p with
        | g1 :: g0 :: k1 :: k0 :: _ => u16 t1 t0 == 51 && decide (4 ≤ el) && u16 g1 g0 == 0x1d &&
          u16 k1 k0 == 32
        | _ => false
      keyShare fuel (p.drop el) (got || here)
  | _, _, got => got

def parseServerHello (buf : Bytes) : Except String Unit :=
  if buf.length < 44 ∨ buf.headD 0 ≠ 2 then .error "not ServerHello"
  else if (buf.drop 6).take 32 = hrr then .error "HelloRetryRequest unsupported"
  else match buf.drop 38 with
    | [] => .error "malformed ServerHello"
    | sidlen :: p =>
      match p.drop sidlen.toNat with
      | s1 :: s0 :: _ :: p =>
        if u16 s1 s0 ≠ 0x1303 ∧ u16 s1 s0 ≠ 0x1301
          then .error "server picked unsupported cipher suite"
        else match p with
          | e1 :: e0 :: p =>
            if keyShare p.length (p.take (u16 e1 e0)) false then .ok ()
              else .error "no x25519 key_share in ServerHello"
          | _ => .error "malformed ServerHello"
      | _ => .error "malformed ServerHello"

/-! Messages. -/

structure Peer where
  th : Bytes
  chain : List Cert
  cvScheme : Nat
  /-- Place and length of the signature in `hsbuf`. -/
  cvSig : Nat × Nat
  thCert : Bytes

structure Conn where
  records : List (Byte × Bytes)
  hsbuf : Bytes
  hsPos : Nat
  peer : Peer

def hsFill (c : Conn) : Except String Conn :=
  match c.records with
  | [] => .error "connection closed"
  | (rt, data) :: records =>
    if rt = 21 then .error "alert during handshake"
    else if rt ≠ 22 then .error "expected handshake record"
    else if hsbufSize < c.hsbuf.length + data.length then .error "handshake too large"
    else .ok { c with records, hsbuf := c.hsbuf ++ data }

/-- Reads until `n` bytes stand at the current place; each turn takes a record. -/
def fillTo (n : Nat) : Nat → Conn → Except String Conn
  | k, c =>
    if c.hsbuf.length - c.hsPos < n then
      match k with
      | 0 => hsFill c
      | k + 1 => do fillTo n k (← hsFill c)
    else .ok c

def hsNext (c : Conn) : Except String (Conn × Bytes) := do
  let c ← fillTo 4 c.records.length c
  match c.hsbuf.drop c.hsPos with
  | _ :: l2 :: l1 :: l0 :: _ =>
    let total := 4 + u24 l2 l1 l0
    let c ← fillTo total c.records.length c
    return (c, (c.hsbuf.drop c.hsPos).take total)
  | _ => .error ""

def certList (parse : Bytes → Option Cert) : Nat → Nat → Bytes → List Cert
  | fuel + 1, n, l2 :: l1 :: l0 :: p =>
    if n = 12 then []
    else
      let clen := u24 l2 l1 l0
      if p.length < clen then []
      else
        let cert := (parse (p.take clen)).toList
        cert ++ match p.drop clen with
          | e1 :: e0 :: p => certList parse fuel (n + cert.length) (p.drop (u16 e1 e0))
          | _ => []
  | _, _, _ => []

def parseCertificate (parse : Bytes → Option Cert) (body : Bytes) : List Cert :=
  if body.length < 4 then []
  else match body with
    | [] => []
    | ctxlen :: p =>
      match p.drop ctxlen.toNat with
      | l2 :: l1 :: l0 :: p => certList parse p.length 0 (p.take (u24 l2 l1 l0))
      | _ => []

def htype (m : Bytes) : Byte := m.headD 0

/-- A message other than Finished, at place `pos` of `hsbuf`. -/
def handle (E : Env) (pos : Nat) (c : Peer) (m : Bytes) : Peer :=
  let body := m.drop 4
  let c := if htype m = 11 then { c with chain := parseCertificate E.parseCert body } else c
  let c :=
    if htype m = 15 then
      let c := { c with thCert := E.prim.sha256 c.th }
      match body with
      | s1 :: s0 :: l1 :: l0 :: _ => { c with cvScheme := u16 s1 s0, cvSig := (pos + 8, u16 l1 l0) }
      | _ => c
    else c
  { c with th := c.th ++ m }

def finish (E : Env) (hello : Bytes) (c : Peer) (m : Bytes) : Except String Peer :=
  if (m.drop 4).length = 32 ∧ m.drop 4 = E.finished (E.prim.sha256 hello) (E.prim.sha256 c.th)
    then .ok { c with th := c.th ++ m }
  else .error "bad server Finished"

def loop (E : Env) (hello : Bytes) : Nat → Conn → Option (Except String Conn)
  | 0, _ => none
  | k + 1, c =>
    match hsNext c with
    | .error e => some (.error e)
    | .ok (c, m) =>
      if htype m = 20 then
        some ((finish E hello c.peer m).map fun peer =>
          { c with peer, hsPos := c.hsPos + m.length })
      else loop E hello k { c with peer := handle E c.hsPos c.peer m, hsPos := c.hsPos + m.length }

/-! The check of the server. -/

def cvAlg : Nat → Option SigAlg
  | 0x0403 => some .ecdsaSha256
  | 0x0503 => some .ecdsaSha384
  | 0x0807 => some .ed25519
  | 0x0804 => some .rsaPssSha256
  | 0x0401 => some .rsaSha256
  | _ => none

def cvContext : Bytes :=
  [0x54, 0x4c, 0x53, 0x20, 0x31, 0x2e, 0x33, 0x2c, 0x20, 0x73, 0x65, 0x72, 0x76, 0x65, 0x72, 0x20,
    0x43, 0x65, 0x72,
    0x74, 0x69, 0x66, 0x69, 0x63, 0x61, 0x74, 0x65, 0x56, 0x65, 0x72, 0x69, 0x66, 0x79]

def signedData (th : Bytes) : Bytes := replicate 64 0x20 ++ cvContext ++ 0 :: th

/-- What stands at a place of `hsbuf`, and behind it. -/
def sigAt (E : Env) (hsbuf : Bytes) (at_ : Nat × Nat) : Bytes :=
  ((hsbuf ++ replicate (hsbufSize - hsbuf.length) 0 ++ E.beyond).drop at_.1).take at_.2

def verifyPeer (E : Env) (c : Conn) : Except String Unit :=
  match c.peer.chain with
  | [] => .error "server sent no certificate"
  | leaf :: _ =>
    match cvAlg c.peer.cvScheme with
    | none => .error "unsupported CertificateVerify scheme"
    | some alg =>
      if X509.verifySig E.prim leaf alg (signedData c.peer.thCert)
          (sigAt E c.hsbuf c.peer.cvSig) then
        match E.store with
        | none => .error "cannot open CA store /etc/ssl/certs/ca-certificates.crt"
        | some store =>
          match X509.verifyChain E.prim c.peer.chain store (some E.host) E.now with
          | .ok () => .ok ()
          | .error e => .error ("certificate: " ++ e.message)
      else .error "CertificateVerify signature invalid"

/-- The connection after `tls_handshake` has returned 0. -/
def tlsHandshake (E : Env) (verify : Bool) : Except String Conn :=
  if E.sends = false then .error "write"
  else match E.records with
    | [] => .error "connection closed"
    | (rt, sh) :: records =>
      if rt ≠ 22 then .error "expected ServerHello"
      else do
        parseServerHello sh
        let hello := E.clientHello ++ sh
        let peer :=
          { th := hello, chain := [], cvScheme := 0, cvSig := (0, 0), thCert := replicate 32 0 }
        let c ← (loop E hello (hsbufSize / 4 + 1) { records, hsbuf := [], hsPos := 0, peer }).getD
          (.error "")
        if verify then verifyPeer E c
        return c

end Cervus.Tls
