import Cervus.Tls.Handshake

/-! Which messages the client accepts as the server's encrypted flight, and what the signature
of the CertificateVerify covers. The loop takes messages of any type in any order; if they come
in the order of the protocol, the signature covers the certificate it was checked with. -/

namespace Cervus.Tls

open List
open X509 (Byte Bytes Cert SigAlg)

/-! The flight, read off the records. -/

/-- The bytes of the records up to the first that `hs_fill` does not take. -/
def received : Nat → List (Byte × Bytes) → Bytes
  | n, (rt, data) :: records =>
    if rt = 22 ∧ n + data.length ≤ hsbufSize then data ++ received (n + data.length) records else []
  | _, [] => []

def msgLen : Bytes → Option Nat
  | _ :: l2 :: l1 :: l0 :: p => if u24 l2 l1 l0 ≤ p.length then some (4 + u24 l2 l1 l0) else none
  | _ => none

def split : Nat → Bytes → List Bytes
  | 0, _ => []
  | k + 1, b =>
    match msgLen b with
    | some n => b.take n :: split k (b.drop n)
    | none => []

def upToFinished : List Bytes → List Bytes
  | [] => []
  | m :: ms => if htype m = 20 then [m] else m :: upToFinished ms

def flight (E : Env) : List Bytes :=
  upToFinished (split hsbufSize (received 0 E.records.tail))

def hello (E : Env) : Bytes := E.clientHello ++ (E.records.head?.map Prod.snd).getD []

/-- What the messages leave behind, the first at place `pos`. -/
def handleAll (E : Env) : Nat → Peer → List Bytes → Peer
  | _, c, [] => c
  | pos, c, m :: ms => handleAll E (pos + m.length) (handle E pos c m) ms

/-- EncryptedExtensions, a CertificateRequest or none, Certificate, CertificateVerify, Finished. -/
def Ordered (fl : List Bytes) : Prop :=
  fl.map htype = [8, 11, 15, 20] ∨ fl.map htype = [8, 13, 11, 15, 20]

/-- A flight with a Certificate, a CertificateVerify and a Finished message is in order. -/
def Regular (fl : List Bytes) : Prop := [11, 15, 20] ⊆ fl.map htype → Ordered fl

/-- A signature of the flight verifies with the leaf of a Certificate message, over a transcript
that the message belongs to. -/
def Bound (E : Env) (c : Conn) (fl : List Bytes) : Prop :=
  ∃ pre cert mid cv post s1 s0 l1 l0 sig leaf rest alg,
    fl = pre ++ cert :: mid ++ cv :: post ∧ htype cert = 11 ∧ htype cv = 15 ∧
    parseCertificate E.parseCert (cert.drop 4) = leaf :: rest ∧ c.peer.chain = leaf :: rest ∧
    cv.drop 4 = s1 :: s0 :: l1 :: l0 :: sig ∧ cvAlg (u16 s1 s0) = some alg ∧
    X509.verifySig E.prim leaf alg (signedData
    (E.prim.sha256 (hello E ++ (pre ++ cert :: mid).flatten)))
      (sigAt E c.hsbuf ((pre ++ cert :: mid).flatten.length + 8, u16 l1 l0)) = true

/-! The reader of messages. -/

theorem bind_ok {α β : Type} {x : Except String α} {f : α → Except String β} {r : β}
    (h : x >>= f = .ok r) :
    ∃ a, x = .ok a ∧ f a = .ok r := by
  cases x with
  | error e => cases h
  | ok a => exact ⟨a, rfl, h⟩

def Conn.stream (c : Conn) : Bytes := c.hsbuf ++ received c.hsbuf.length c.records

structure Reads (c c' : Conn) : Prop where
  stream : c'.stream = c.stream
  pos : c'.hsPos = c.hsPos
  peer : c'.peer = c.peer
  grows : c.hsbuf.length ≤ c'.hsbuf.length
  fits : c.hsbuf.length ≤ hsbufSize → c'.hsbuf.length ≤ hsbufSize

theorem Reads.refl (c : Conn) : Reads c c := ⟨rfl, rfl, rfl, le_rfl, id⟩

variable {c c' : Conn} {m : Bytes} {E : Env} {pre : List Bytes}

theorem Reads.trans {a b : Conn} (h : Reads a b) (h' : Reads b c) : Reads a c :=
  ⟨h'.stream.trans h.stream, h'.pos.trans h.pos, h'.peer.trans h.peer, h.grows.trans h'.grows,
    h'.fits ∘ h.fits⟩

theorem hsFill_ok (h : hsFill c = .ok c') :
    Reads c c' ∧ c'.records.length + 1 = c.records.length := by
  obtain ⟨records, hsbuf, hsPos, peer⟩ := c
  cases records with
  | nil => cases h
  | cons r records =>
    obtain ⟨rt, data⟩ := r
    simp only [hsFill] at h
    split_ifs at h with h1 h2 h3
    cases h
    have hfits : (hsbuf ++ data).length ≤ hsbufSize := by rw [length_append]; omega
    refine ⟨⟨?_, rfl, rfl, by simp, fun _ => hfits⟩, rfl⟩
    rw [Conn.stream, Conn.stream]
    dsimp only
    rw [received, if_pos ⟨not_not.mp h2, by omega⟩, length_append, append_assoc]

theorem fillTo_ok {n k : Nat} (hk : c.records.length ≤ k) (h : fillTo n k c = .ok c') :
    Reads c c' ∧ n ≤ c'.hsbuf.length - c'.hsPos := by
  induction k generalizing c with
  | zero =>
    rw [fillTo] at h
    split_ifs at h with hn
    · obtain ⟨-, hr⟩ := hsFill_ok h
      omega
    · cases h
      exact ⟨.refl _, by omega⟩
  | succ k ih =>
    rw [fillTo] at h
    split_ifs at h with hn
    · obtain ⟨d, hd, h⟩ := bind_ok h
      obtain ⟨hread, hr⟩ := hsFill_ok hd
      obtain ⟨hreads, hlen⟩ := ih (by omega) h
      exact ⟨hread.trans hreads, hlen⟩
    · cases h
      exact ⟨.refl _, by omega⟩

theorem drop_stream (h : c.hsPos ≤ c.hsbuf.length) :
    c.stream.drop c.hsPos = c.hsbuf.drop c.hsPos ++ received c.hsbuf.length c.records :=
  drop_append_of_le_length h

/-- A message that is read is the next of the stream. -/
theorem hsNext_ok (h : hsNext c = .ok (c', m)) (hpos : c.hsPos ≤ c.hsbuf.length) :
    Reads c c' ∧ 4 ≤ m.length ∧ c'.hsPos + m.length ≤ c'.hsbuf.length ∧
      msgLen (c.stream.drop c.hsPos) = some m.length ∧
      m = (c.stream.drop c.hsPos).take m.length := by
  obtain ⟨d, hd, h⟩ := bind_ok h
  obtain ⟨hcd, -⟩ := fillTo_ok le_rfl hd
  have hdpos : d.hsPos ≤ d.hsbuf.length := by have := hcd.grows; have := hcd.pos; omega
  split at h
  next t l2 l1 l0 p hp =>
    obtain ⟨e, he, h⟩ := bind_ok h
    obtain ⟨hde, hlen⟩ := fillTo_ok le_rfl he
    cases h
    have hce := hcd.trans hde
    have hepos : c'.hsPos ≤ c'.hsbuf.length := by have := hde.grows; have := hde.pos; omega
    have hm : ((c'.hsbuf.drop c'.hsPos).take (4 + u24 l2 l1 l0)).length = 4 + u24 l2 l1 l0 := by
      rw [length_take, length_drop]
      omega
    have hst : c.stream.drop c.hsPos = c'.hsbuf.drop c'.hsPos ++
        received c'.hsbuf.length c'.records := by
      rw [← hce.stream, ← hce.pos, drop_stream hepos]
    have hhead : c.stream.drop c.hsPos = t :: l2 :: l1 :: l0 ::
        (p ++ received d.hsbuf.length d.records) := by
      rw [← hcd.stream, ← hcd.pos, drop_stream hdpos, hp]
      rfl
    refine ⟨hce, by omega, by omega, ?_, ?_⟩
    · have hl := congrArg length hhead
      rw [hst, length_append, length_drop] at hl
      simp only [length_cons] at hl
      rw [hm, hhead, msgLen, if_pos (by omega)]
    · rw [hm, hst, take_append_of_le_length (by rw [length_drop]; omega)]
  next => cases h

/-! The loop. -/

theorem split_succ {b : Bytes} {n : Nat} (h : msgLen b = some n) (k : Nat) :
    split (k + 1) b = b.take n :: split k (b.drop n) := by
  rw [split, h]

theorem handle_other (h11 : htype m ≠ 11) (h15 : htype m ≠ 15) (E : Env) (pos : Nat) (c : Peer) :
    handle E pos c m = { c with th := c.th ++ m } := by
  rw [handle]
  rw [if_neg h11, if_neg h15]

theorem handle_certificate (h : htype m = 11) (E : Env) (pos : Nat) (c : Peer) :
    handle E pos c m =
      { c with chain := parseCertificate E.parseCert (m.drop 4), th := c.th ++ m } := by
  rw [handle]
  rw [if_pos h, if_neg (by rw [h]; decide)]

theorem handle_certificateVerify (h : htype m = 15) (E : Env) (pos : Nat) (c : Peer) :
    handle E pos c m = { c with thCert := E.prim.sha256 c.th, th := c.th ++ m } ∨
      ∃ s1 s0 l1 l0 sig, m.drop 4 = s1 :: s0 :: l1 :: l0 :: sig ∧ handle E pos c m =
        { c with
          thCert := E.prim.sha256 c.th, cvScheme := u16 s1 s0, cvSig := (pos + 8, u16 l1 l0)
          th := c.th ++ m } := by
  rw [handle]
  rw [if_pos h, if_neg (by rw [h]; decide)]
  split
  next s1 s0 l1 l0 sig hbody => exact .inr ⟨s1, s0, l1, l0, sig, hbody, rfl⟩
  next => exact .inl rfl

theorem loop_ok {hello : Bytes} {k j : Nat} (h : loop E hello k c = some (.ok c'))
    (hpos : c.hsPos ≤ c.hsbuf.length) (hj : k ≤ j) :
    c'.peer = handleAll E c.hsPos c.peer (upToFinished (split j (c.stream.drop c.hsPos))) ∧
      20 ∈ (upToFinished (split j (c.stream.drop c.hsPos))).map htype := by
  induction k generalizing c j with
  | zero => cases h
  | succ k ih =>
    obtain ⟨j, rfl⟩ := Nat.exists_eq_succ_of_ne_zero (show j ≠ 0 by omega)
    rw [loop] at h
    split at h
    next => cases h
    next d m hm =>
      obtain ⟨hread, -, hend, hlen, hmsg⟩ := hsNext_ok hm hpos
      rw [Nat.succ_eq_add_one, split_succ hlen, ← hmsg, upToFinished, ← hread.peer, ← hread.pos,
        ← hread.stream]
      split_ifs at h ⊢ with ht
      · rw [handleAll, handleAll, handle_other (by rw [ht]; decide) (by rw [ht]; decide)]
        rw [finish] at h
        split_ifs at h
        · cases h
          exact ⟨rfl, by simp [ht]⟩
        · cases h
      · obtain ⟨hpeer, hfin⟩ := ih h hend (Nat.le_of_succ_le_succ hj)
        rw [drop_drop]
        exact ⟨hpeer, .tail _ hfin⟩

theorem loop_isSome {hello : Bytes} {k : Nat} (hpos : c.hsPos ≤ c.hsbuf.length)
    (hfits : c.hsbuf.length ≤ hsbufSize) (hk : hsbufSize < c.hsPos + 4 * k) :
    (loop E hello k c).isSome := by
  induction k generalizing c with
  | zero => omega
  | succ k ih =>
    rw [loop]
    split
    next => rfl
    next d m hm =>
      obtain ⟨hread, h4, hend, -, -⟩ := hsNext_ok hm hpos
      split_ifs
      · rfl
      · refine ih hend (hread.fits hfits) ?_
        have := hread.pos
        dsimp only
        omega

theorem loop_ends (E : Env) (hello : Bytes) (records : List (Byte × Bytes)) (peer : Peer) :
    (loop E hello (hsbufSize / 4 + 1) { records, hsbuf := [], hsPos := 0, peer }).isSome :=
  loop_isSome (Nat.zero_le _) (Nat.zero_le _)
    (show hsbufSize < 0 + 4 * (hsbufSize / 4 + 1) by decide)

/-! The accepted signature. -/

theorem handleAll_skip (h : ∀ m ∈ pre, htype m ≠ 11 ∧ htype m ≠ 15) (E : Env) (pos : Nat) (c : Peer)
    (ms : List Bytes) :
    handleAll E pos c (pre ++ ms) =
      handleAll E (pos + pre.flatten.length) { c with th := c.th ++ pre.flatten } ms := by
  induction pre generalizing pos c with
  | nil => simp
  | cons m pre ih =>
    obtain ⟨h11, h15⟩ := h m (.head _)
    rw [cons_append, handleAll, handle_other h11 h15, ih fun m hm => h m (.tail _ hm)]
    simp only [flatten_cons, length_append, append_assoc, Nat.add_assoc]

theorem handle_chain (h : htype m ≠ 11) (pos : Nat) (p : Peer) :
    (handle E pos p m).chain = p.chain := by
  by_cases h15 : htype m = 15
  · obtain he | ⟨_, _, _, _, _, -, he⟩ := handle_certificateVerify h15 E pos p <;> rw [he]
  · rw [handle_other h h15]

theorem handle_scheme (h : htype m ≠ 15) (pos : Nat) (p : Peer) :
    (handle E pos p m).cvScheme = p.cvScheme := by
  by_cases h11 : htype m = 11
  · rw [handle_certificate h11]
  · rw [handle_other h11 h]

/-- What only messages of one type change is kept by a flight without them. -/
theorem handleAll_keeps {α : Type} {f : Peer → α} {t : Byte} {fl : List Bytes}
    (hf : ∀ m, htype m ≠ t → ∀ pos p, f (handle E pos p m) = f p) (h : t ∉ fl.map htype) (pos : Nat)
    (p : Peer) :
    f (handleAll E pos p fl) = f p := by
  induction fl generalizing pos p with
  | nil => rfl
  | cons m fl ih =>
    rw [map_cons, mem_cons, not_or] at h
    rw [handleAll, ih h.2, hf m (Ne.symm h.1)]

theorem verifyPeer_ok (h : verifyPeer E c = .ok ()) :
    ∃ leaf rest alg, c.peer.chain = leaf :: rest ∧ cvAlg c.peer.cvScheme = some alg ∧
      X509.verifySig E.prim leaf alg (signedData c.peer.thCert) (sigAt E c.hsbuf c.peer.cvSig) =
      true := by
  rw [verifyPeer] at h
  split at h
  next => cases h
  next leaf rest hchain =>
    split at h
    next => cases h
    next alg halg =>
      split_ifs at h with hsig
      exact ⟨leaf, rest, alg, hchain, halg, hsig⟩

def firstPeer (E : Env) : Peer :=
  { th := hello E, chain := [], cvScheme := 0, cvSig := (0, 0), thCert := replicate 32 0 }

section
variable (h : tlsHandshake E true = .ok c)
include h

/-- A handshake that succeeds has handled the whole flight in order. -/
theorem tlsHandshake_ok : c.peer = handleAll E 0 (firstPeer E) (flight E) ∧
    20 ∈ (flight E).map htype ∧ verifyPeer E c = .ok () := by
  rw [tlsHandshake] at h
  simp only [if_true] at h
  split_ifs at h
  split at h
  next => cases h
  next rt sh records hrecords =>
    split_ifs at h
    obtain ⟨-, -, h⟩ := bind_ok h
    obtain ⟨d, hd, h⟩ := bind_ok h
    obtain ⟨⟨⟩, hv, h⟩ := bind_ok h
    cases h
    have hhello : hello E = E.clientHello ++ sh := by rw [hello, hrecords]; rfl
    rw [← and_assoc]
    refine ⟨?_, hv⟩
    cases hl : loop E (E.clientHello ++ sh) (hsbufSize / 4 + 1)
        { records, hsbuf := [], hsPos := 0, peer := { firstPeer E with th := E.clientHello ++ sh } }
          with
    | none =>
      rw [firstPeer] at hl
      rw [hl] at hd
      cases hd
    | some r =>
      rw [firstPeer] at hl
      rw [hl] at hd
      cases hd
      rw [flight, hrecords, firstPeer, hhello]
      exact loop_ok hl le_rfl (by decide)

theorem bound_of_adjacent {cert cv fin : Bytes}
    (hpre : ∀ m ∈ pre, htype m ≠ 11 ∧ htype m ≠ 15) (hcert : htype cert = 11)
    (hcv : htype cv = 15) (hfin : htype fin = 20) (hfl : flight E = pre ++ [cert, cv, fin]) :
    Bound E c (flight E) := by
  obtain ⟨hpeer, -, hv⟩ := tlsHandshake_ok h
  obtain ⟨leaf, rest, alg, hchain, halg, hsig⟩ := verifyPeer_ok hv
  rw [hfl, handleAll_skip hpre, handleAll, handleAll, handleAll, handleAll,
    handle_certificate hcert,
    handle_other (by rw [hfin]; decide) (by rw [hfin]; decide)] at hpeer
  obtain hshort | ⟨s1, s0, l1, l0, sig, hbody, hlong⟩ := handle_certificateVerify hcv E _ _
  · -- the scheme is still 0, which `verify_peer` refuses
    rw [hpeer, hshort] at halg
    cases halg
  · rw [hlong] at hpeer
    have hpos : (pre ++ [cert]).flatten.length = 0 + pre.flatten.length + cert.length := by simp
    have hth : hello E ++ (pre ++ [cert]).flatten = (firstPeer E).th ++ pre.flatten ++ cert := by
      simp [firstPeer]
    refine ⟨pre, cert, [], cv, [fin], s1, s0, l1, l0, sig, leaf, rest, alg,
      by simpa using hfl, hcert, hcv, ?_, hchain,
      hbody, ?_, ?_⟩
    · rw [← hchain, hpeer]
    · rw [← halg, hpeer]
    · rw [hpos, hth, ← hsig, hpeer]

theorem bound_of_ordered (ho : Ordered (flight E)) : Bound E c (flight E) := by
  obtain ⟨ts, hts, ho⟩ : ∃ ts : List Byte, (∀ t ∈ ts, t ≠ 11 ∧ t ≠ 15) ∧
      (flight E).map htype = ts ++ [11, 15, 20] := by
    rcases ho with ho | ho
    · exact ⟨[8], by decide, ho⟩
    · exact ⟨[8, 13], by decide, ho⟩
  obtain ⟨pre, last, hfl, rfl, hlast⟩ := map_eq_append_iff.mp ho
  obtain ⟨cert, last, rfl, hcert, hlast⟩ := map_eq_cons_iff.mp hlast
  obtain ⟨cv, last, rfl, hcv, hlast⟩ := map_eq_cons_iff.mp hlast
  obtain ⟨fin, last, rfl, hfin, hlast⟩ := map_eq_cons_iff.mp hlast
  obtain rfl := map_eq_nil_iff.mp hlast
  exact bound_of_adjacent h (fun m hm => hts _ (mem_map_of_mem hm)) hcert hcv hfin hfl

end

/-- An accepted flight has a certificate, a signature and a Finished message in it. -/
theorem accepted_complete (h : tlsHandshake E true = .ok c) :
    [11, 15, 20] ⊆ (flight E).map htype := by
  obtain ⟨hpeer, hfin, hv⟩ := tlsHandshake_ok h
  obtain ⟨leaf, rest, alg, hchain, halg, -⟩ := verifyPeer_ok hv
  have hcert : 11 ∈ (flight E).map htype := by
    by_contra hno
    rw [hpeer, handleAll_keeps (f := Peer.chain) (fun _ => handle_chain) hno] at hchain
    cases hchain
  have hcv : 15 ∈ (flight E).map htype := by
    by_contra hno
    rw [hpeer, handleAll_keeps (f := Peer.cvScheme) (fun _ => handle_scheme) hno] at halg
    cases halg
  simp only [cons_subset, nil_subset, and_true]
  exact ⟨hcert, hcv, hfin⟩

def serverHello : Bytes :=
  [2, 0, 0, 80, 3, 3] ++ replicate 32 0 ++ [0, 0x13, 0x03, 0, 0, 40, 0, 51, 0, 36, 0, 0x1d, 0,
    32] ++ replicate 32 0

def certMsg : Bytes := [11, 0, 0, 10, 0, 0, 0, 6, 0, 0, 1, 7, 0, 0]

def verifyMsg : Bytes := [15, 0, 0, 5, 8, 7, 0, 1, 2]

def finishedMsg : Bytes := [20, 0, 0, 32] ++ replicate 32 0

def plainEnv (fl : List Bytes) : Env where
  prim := X509.plain
  parseCert der := if der = [7] then some (X509.plainCert 1 2 false) else none
  finished _ _ := replicate 32 0
  store := some [X509.plainCert 1 1 true]
  host := [0x61]
  now := 5
  clientHello := []
  records := [(22, serverHello), (22, fl.flatten)]
  beyond := []
  sends := true

def orderedEnv : Env := plainEnv [[8, 0, 0, 2, 0, 0], certMsg, verifyMsg, finishedMsg]

def reorderedEnv : Env := plainEnv [verifyMsg, certMsg, finishedMsg]

theorem isOk_iff {α : Type} {x : Except String α} : x.isOk = true ↔ ∃ a, x = .ok a := by
  cases x <;> simp [Except.isOk, Except.toBool]

end Cervus.Tls
