import Mathlib.Data.List.TakeWhile

/-! Certificates of `x509.c`: what the parser keeps of the extensions, the match of a host
name, and the walk from the leaf of a chain to a root of the store. The primitives that
check one signature are parameters. -/

namespace Cervus.X509

open List

abbrev Byte := BitVec 8
abbrev Bytes := List Byte

inductive SigAlg
  | rsaSha256 | rsaSha384 | rsaSha512 | rsaPssSha256 | ecdsaSha256 | ecdsaSha384 | ed25519 | unknown
  deriving DecidableEq

inductive KeyType
  | rsa | ecP256 | ecP384 | ed25519 | unknown
  deriving DecidableEq

structure Cert where
  tbs : Bytes
  sigAlg : SigAlg
  sig : Bytes
  issuer : Bytes
  subject : Bytes
  notBefore : Int
  notAfter : Int
  keyType : KeyType
  rsaN : Bytes
  rsaE : Bytes
  ecPoint : Bytes
  edPub : Bytes
  isCa : Bool
  san : Option Bytes

/-! Tags, lengths and values. -/

def derLen : Bytes → Option (Nat × Bytes)
  | [] => none
  | b :: rest =>
    if b.toNat < 0x80 then some (b.toNat, rest)
    else
      let n := b.toNat % 128
      if n = 0 ∨ 4 < n ∨ rest.length < n then none
      else some ((rest.take n).foldl (fun v x => v * 256 + x.toNat) 0, rest.drop n)

def derTlv : Bytes → Option (Byte × Bytes × Bytes)
  | [] => none
  | tag :: rest =>
    match derLen rest with
    | none => none
    | some (l, rest) => if rest.length < l then none else some (tag, rest.take l, rest.drop l)

def derSeq : Nat → Bytes → List (Byte × Bytes)
  | 0, _ => []
  | fuel + 1, bs =>
    match derTlv bs with
    | none => []
    | some (tag, v, rest) => (tag, v) :: derSeq fuel rest

def elements (bs : Bytes) : List (Byte × Bytes) := derSeq bs.length bs

def extension (x : Bytes) : Option (Bytes × Bytes) :=
  match derTlv x with
  | some (0x06, oid, rest) =>
    match derTlv rest with
    | some (0x04, val, _) => some (oid, val)
    | some (0x01, _, rest) =>
      match derTlv rest with
      | some (0x04, val, _) => some (oid, val)
      | _ => none
    | _ => none
  | _ => none

def oidBasic : Bytes := [0x55, 0x1d, 0x13]
def oidSan : Bytes := [0x55, 0x1d, 0x11]

def basicCa (val : Bytes) : Bool :=
  match derTlv val with
  | some (0x30, v, _) =>
    match derTlv v with
    | some (0x01, [b], _) => b != 0
    | _ => false
  | _ => false

def addExtension (c : Cert) (x : Bytes) : Cert :=
  match extension x with
  | some (oid, val) =>
    if oid = oidBasic then (if basicCa val then { c with isCa := true } else c)
    else if oid = oidSan then { c with san := some val }
    else c
  | none => c

def extensionList (bs : Bytes) : List Bytes :=
  match derTlv bs with
  | some (0x30, v, _) => ((elements v).takeWhile fun e => e.1 == 0x30).map Prod.snd
  | _ => []

def parseExtensions (bs : Bytes) (c : Cert) : Cert := (extensionList bs).foldl addExtension c

theorem parseExtensions_isCa {bs : Bytes} {c : Cert} : (parseExtensions bs c).isCa = true ↔
      c.isCa = true ∨ ∃ x ∈ extensionList bs, ∃ val, extension x = some (oidBasic, val) ∧
      basicCa val = true := by
  unfold parseExtensions
  induction extensionList bs generalizing c with
  | nil => simp
  | cons x xs ih =>
    have hx : (addExtension c x).isCa = true ↔
        c.isCa = true ∨ ∃ val, extension x = some (oidBasic, val) ∧ basicCa val = true := by
      unfold addExtension
      cases hx : extension x with
      | none => simp
      | some p =>
        obtain ⟨oid, val⟩ := p
        by_cases ho : oid = oidBasic
        · by_cases hb : basicCa val = true <;> simp [ho, hb]
        · by_cases hs : oid = oidSan <;> simp [ho, hs, show oidSan ≠ oidBasic by decide]
    rw [foldl_cons, ih, hx, or_assoc]
    simp

/-! Signatures. -/

structure Primitives where
  sha256 : Bytes → Bytes
  sha384 : Bytes → Bytes
  sha512 : Bytes → Bytes
  /-- Signature, data and public key. -/
  ed25519 : Bytes → Bytes → Bytes → Bool
  /-- Point, signature and hash. -/
  ecdsaP256 : Bytes → Bytes → Bytes → Bool
  ecdsaP384 : Bytes → Bytes → Bytes → Bool
  /-- Modulus, exponent, signature and hash. -/
  rsaPss : Bytes → Bytes → Bytes → Bytes → Bool
  rsaPkcs1 : Bytes → Bytes → Bytes → Bytes → Nat → Bool

def hashFor (P : Primitives) (alg : SigAlg) (data : Bytes) : Option (Bytes × Nat) :=
  match alg with
  | .rsaSha256 | .ecdsaSha256 | .rsaPssSha256 => some (P.sha256 data, 0)
  | .rsaSha384 | .ecdsaSha384 => some (P.sha384 data, 1)
  | .rsaSha512 => some (P.sha512 data, 2)
  | _ => none

def verifySig (P : Primitives) (signer : Cert) (alg : SigAlg) (data sig : Bytes) : Bool :=
  if alg = .ed25519 then decide (signer.keyType = .ed25519) && P.ed25519 sig data signer.edPub
  else match hashFor P alg data with
    | none => false
    | some (h, id) =>
      match alg with
      | .ecdsaSha256 | .ecdsaSha384 =>
        match signer.keyType with
        | .ecP256 => P.ecdsaP256 signer.ecPoint sig h
        | .ecP384 => P.ecdsaP384 signer.ecPoint sig h
        | _ => false
      | .rsaPssSha256 => decide (signer.keyType = .rsa) && P.rsaPss signer.rsaN signer.rsaE sig h
      | _ => decide (signer.keyType = .rsa) && P.rsaPkcs1 signer.rsaN signer.rsaE sig h id

/-- The signature on `c` verifies under the key of `signer`. -/
def Signs (P : Primitives) (signer c : Cert) : Prop :=
  verifySig P signer c.sigAlg c.tbs c.sig = true

instance (P : Primitives) (signer c : Cert) : Decidable (Signs P signer c) :=
  inferInstanceAs (Decidable (_ = _))

/-! Host names. -/

def lower (b : Byte) : Byte := if 0x41 ≤ b.toNat ∧ b.toNat ≤ 0x5a then b + 32 else b

def hostMatch (pat host : Bytes) : Bool :=
  match pat with
  | 0x2a :: 0x2e :: rest =>
    match host.dropWhile (· != 0x2e) with
    | [] => false
    | suffix => suffix == 0x2e :: rest
  | _ => pat.map lower == host.map lower

def Cert.dnsNames (c : Cert) : List Bytes :=
  match c.san.bind derTlv with
  | some (0x30, v, _) => ((elements v).filter fun e => e.1 == 0x82).map Prod.snd
  | _ => []

def checkHost (leaf : Cert) (host : Bytes) : Bool := leaf.dnsNames.any (hostMatch · host)

def DnsMatch (pat host : Bytes) : Prop :=
  pat.map lower = host.map lower ∨
  ∃ label rest, pat = 0x2a :: 0x2e :: rest ∧ host = label ++ 0x2e :: rest ∧ 0x2e ∉ label

theorem hostMatch_sound {pat host : Bytes} (h : hostMatch pat host = true) : DnsMatch pat host := by
  unfold hostMatch at h
  split at h
  · rename_i rest
    split at h
    · cases h
    · have hs : host.dropWhile (· != 0x2e) = 0x2e :: rest := by simpa using h
      refine .inr ⟨host.takeWhile (· != 0x2e), rest, rfl, ?_, fun hm => ?_⟩
      · rw [← hs, takeWhile_append_dropWhile]
      · simpa using mem_takeWhile_imp hm
  · exact .inl (by simpa using h)

/-! The walk along the chain. -/

def Cert.ValidAt (c : Cert) (now : Int) : Prop := c.notBefore ≤ now ∧ now ≤ c.notAfter

instance (c : Cert) (now : Int) : Decidable (c.ValidAt now) := inferInstanceAs (Decidable (_ ∧ _))

def Anchors (P : Primitives) (now : Int) (root c : Cert) : Prop :=
  root.subject = c.issuer ∧ (now ≠ 0 → root.ValidAt now) ∧ Signs P root c

instance (P : Primitives) (now : Int) (root c : Cert) : Decidable (Anchors P now root c) :=
  inferInstanceAs (Decidable (_ ∧ _))

inductive ChainError
  | empty
  | host
  | expired (i : Nat)
  | brokenLink (i : Nat)
  | badSignature (i : Nat)
  | noRoot
  deriving DecidableEq

def ChainError.message : ChainError → String
  | .empty => "empty chain"
  | .host => "hostname does not match certificate"
  | .expired i => "certificate " ++ toString i ++ " expired or not yet valid"
  | .brokenLink i => "broken chain link at " ++ toString i
  | .badSignature i => "bad signature on certificate " ++ toString i
  | .noRoot => "no trusted root found for chain"

def anchored (P : Primitives) (store : List Cert) (now : Int) (c : Cert) : Bool :=
  store.any fun root => decide (Anchors P now root c)

def verifyFrom (P : Primitives) (store : List Cert) (now : Int) :
    Nat → List Cert → Except ChainError Unit
  | _, [] => .error .noRoot
  | i, c :: rest =>
    if now ≠ 0 ∧ ¬c.ValidAt now then .error (.expired i)
    else if anchored P store now c then .ok ()
    else match rest with
      | [] => .error .noRoot
      | d :: _ =>
        if c.issuer ≠ d.subject then .error (.brokenLink i)
        else if ¬Signs P d c then .error (.badSignature i)
        else verifyFrom P store now (i + 1) rest

def verifyChain (P : Primitives) (chain store : List Cert) (host : Option Bytes) (now : Int) :
    Except ChainError Unit :=
  match chain with
  | [] => .error .empty
  | leaf :: _ =>
    if host.any (fun h => !checkHost leaf h) then .error .host else verifyFrom P store now 0 chain

/-- The chain leads from its leaf over signatures of certificates of authorities to certificate
`k`, which a root of the store has signed, all within their time, and the leaf is the host's. -/
structure Trusted (P : Primitives) (chain store : List Cert) (host : Option Bytes) (now : Int)
    (k : Nat) :
    Prop where
  link : ∀ i < k, ∃ c d, chain[i]? = some c ∧ chain[i + 1]? = some d ∧
    c.issuer = d.subject ∧ Signs P d c ∧ d.isCa = true
  root : ∃ c r, chain[k]? = some c ∧ r ∈ store ∧ r.subject = c.issuer ∧ Signs P r c ∧ r.ValidAt now
  valid : ∀ i ≤ k, ∃ c, chain[i]? = some c ∧ c.ValidAt now
  host : ∀ h, host = some h → ∃ leaf, chain[0]? = some leaf ∧
    ∃ name ∈ leaf.dnsNames, DnsMatch name h

def depth (P : Primitives) (chain store : List Cert) (now : Int) : Nat :=
  chain.findIdx (anchored P store now)

variable {P : Primitives} {store chain : List Cert} {now : Int}

theorem anchored_iff {c : Cert} (hn : now ≠ 0) :
    anchored P store now c = true ↔ ∃ r ∈ store, r.subject = c.issuer ∧ Signs P r c ∧
      r.ValidAt now := by
  simp [anchored, Anchors, hn, and_comm]

structure Walked (P : Primitives) (chain store : List Cert) (now : Int) : Prop where
  link : ∀ i < depth P chain store now, ∃ c d, chain[i]? = some c ∧ chain[i + 1]? = some d ∧
    c.issuer = d.subject ∧ Signs P d c
  root : ∃ c, chain[depth P chain store now]? = some c ∧ anchored P store now c = true
  valid : ∀ i ≤ depth P chain store now, ∃ c, chain[i]? = some c ∧ c.ValidAt now

theorem verifyFrom_cases {i : Nat} {c : Cert} {rest : List Cert} (hn : now ≠ 0)
    (h : verifyFrom P store now i (c :: rest) = .ok ()) :
    c.ValidAt now ∧ (anchored P store now c = true ∨ anchored P store now c = false ∧
      ∃ d, rest[0]? = some d ∧ c.issuer = d.subject ∧ Signs P d c ∧
        verifyFrom P store now (i + 1) rest = .ok ()) := by
  have hv : c.ValidAt now := by
    by_contra hv
    cases rest <;> simp [verifyFrom, hn, hv] at h
  refine ⟨hv, ?_⟩
  cases ha : anchored P store now c with
  | true => exact .inl rfl
  | false =>
    refine .inr ⟨rfl, ?_⟩
    cases rest with
    | nil => simp [verifyFrom, hv, ha] at h
    | cons d rest =>
      rw [verifyFrom, if_neg (fun h => h.2 hv), if_neg (by simp [ha])] at h
      split_ifs at h with hi hs
      exact ⟨d, rfl, not_not.mp hi, hs, h⟩

theorem verifyFrom_walked {i : Nat} (hn : now ≠ 0) (h : verifyFrom P store now i chain = .ok ()) :
    Walked P chain store now := by
  induction chain generalizing i with
  | nil => cases h
  | cons c rest ih =>
    obtain ⟨hv, ha | ⟨ha, d, hd, hi, hs, hrest⟩⟩ := verifyFrom_cases hn h
    · have h0 : depth P (c :: rest) store now = 0 := by simp [depth, findIdx_cons, ha]
      refine ⟨fun i hlt => ?_, ⟨c, by rw [h0]; rfl, ha⟩, fun i hle => ⟨c, ?_, hv⟩⟩
      · omega
      · rw [h0, Nat.le_zero] at hle
        rw [hle, List.getElem?_cons_zero]
    · have h1 : depth P (c :: rest) store now = depth P rest store now + 1 := by
        simp [depth, findIdx_cons, ha]
      obtain ⟨link, root, valid⟩ := ih hrest
      refine ⟨fun i hlt => ?_, by simpa [h1] using root, fun i hle => ?_⟩
      · cases i with
        | zero => exact ⟨c, d, rfl, by simpa using hd, hi, hs⟩
        | succ i => simpa using link i (by omega)
      · cases i with
        | zero => exact ⟨c, rfl, hv⟩
        | succ i => simpa using valid i (by omega)

theorem verifyChain_cases {host : Option Bytes} (h : verifyChain P chain store host now = .ok ()) :
    verifyFrom P store now 0 chain = .ok () ∧
      ∀ name, host = some name → ∃ leaf, chain[0]? = some leaf ∧ checkHost leaf name = true := by
  unfold verifyChain at h
  split at h
  · cases h
  · rename_i leaf _
    split_ifs at h with hh
    refine ⟨h, ?_⟩
    rintro name rfl
    exact ⟨leaf, rfl, by simpa using hh⟩

/-- An accepted chain is to be trusted exactly when the certificates above its leaf that the walk
has passed are those of authorities: the walk itself does not look at the flag. -/
theorem accepted_trusted {host : Option Bytes} (hn : now ≠ 0)
    (h : verifyChain P chain store host now = .ok ()) :
    (∃ k, Trusted P chain store host now k) ↔
      ∀ i, 0 < i → i ≤ depth P chain store now → ∃ d, chain[i]? = some d ∧ d.isCa = true := by
  obtain ⟨hfrom, hhost⟩ := verifyChain_cases h
  have hw := verifyFrom_walked hn hfrom
  constructor
  · rintro ⟨k, hk⟩ i hi hle
    -- no certificate before the place where the walk stops has a root
    have hdepth : depth P chain store now ≤ k := by
      by_contra hlt
      obtain ⟨c, r, hc, hr⟩ := hk.root
      have hnot := not_of_lt_findIdx (not_le.mp hlt)
      obtain ⟨hlen, rfl⟩ := List.getElem?_eq_some_iff.mp hc
      exact Bool.false_ne_true (hnot.symm.trans ((anchored_iff hn).mpr ⟨r, hr⟩))
    obtain ⟨c, d, -, hd, -, -, hca⟩ := hk.link (i - 1) (by omega)
    exact ⟨d, by rwa [Nat.sub_add_cancel hi] at hd, hca⟩
  · intro hca
    refine ⟨depth P chain store now, fun i hi => ?_, ?_, hw.valid, fun name hname => ?_⟩
    · obtain ⟨c, d, hc, hd, hlink, hs⟩ := hw.link i hi
      obtain ⟨d', hd', hca⟩ := hca (i + 1) i.succ_pos hi
      obtain rfl : d' = d := Option.some_inj.mp (hd'.symm.trans hd)
      exact ⟨c, d', hc, hd', hlink, hs, hca⟩
    · obtain ⟨c, hc, ha⟩ := hw.root
      obtain ⟨r, hr⟩ := (anchored_iff hn).mp ha
      exact ⟨c, r, hc, hr⟩
    · obtain ⟨leaf, hleaf, hcheck⟩ := hhost name hname
      obtain ⟨pat, hpat, hm⟩ := any_eq_true.mp hcheck
      exact ⟨leaf, hleaf, pat, hpat, hostMatch_sound hm⟩

def plain : Primitives where
  sha256 := id
  sha384 := id
  sha512 := id
  ed25519 sig _ pub := sig == pub
  ecdsaP256 _ _ _ := false
  ecdsaP384 _ _ _ := false
  rsaPss _ _ _ _ := false
  rsaPkcs1 _ _ _ _ _ := false

def plainCert (issuer subject : Byte) (ca : Bool) : Cert where
  tbs := []
  sigAlg := .ed25519
  sig := [issuer]
  issuer := [issuer]
  subject := [subject]
  notBefore := 0
  notAfter := 9
  keyType := .ed25519
  rsaN := []
  rsaE := []
  ecPoint := []
  edPub := [subject]
  isCa := ca
  san := some [0x30, 3, 0x82, 1, 0x61]

/-- The extensions of an authority: basicConstraints with the flag set. -/
def caExtensions : Bytes :=
  [0x30, 14, 0x30, 12, 0x06, 3, 0x55, 0x1d, 0x13, 0x04, 5, 0x30, 3, 0x01, 1, 0xff]

def authority : Cert := parseExtensions caExtensions (plainCert 1 2 false)

theorem accepted_trusted_authority :
    ∃ k, Trusted plain [plainCert 2 3 false, authority] [plainCert 1 1 true] (some [0x61]) 5 k := by
  refine (accepted_trusted (by decide) (by decide +kernel)).mpr fun i hi hle => ?_
  have hd : depth plain [plainCert 2 3 false, authority] [plainCert 1 1 true] 5 = 1 := by
    decide +kernel
  obtain rfl : i = 1 := by omega
  refine ⟨authority, rfl, parseExtensions_isCa.mpr (.inr ?_)⟩
  exact ⟨[0x06, 3, 0x55, 0x1d, 0x13, 0x04, 5, 0x30, 3, 0x01, 1, 0xff], by decide +kernel,
    [0x30, 3, 0x01, 1, 0xff], by decide +kernel, by decide +kernel⟩

/-- The owner of an ordinary certificate issues one for any host. -/
theorem issued_by_leaf :
    verifyChain plain [plainCert 2 3 false, plainCert 1 2 false] [plainCert 1 1 true]
        (some [0x61]) 5 = .ok () ∧
      ¬∃ k, Trusted plain [plainCert 2 3 false, plainCert 1 2 false] [plainCert 1 1 true]
        (some [0x61]) 5 k := by
  refine ⟨by decide +kernel, ?_⟩
  rintro ⟨k, hk⟩
  cases k with
  | zero =>
    obtain ⟨c, r, hc, hr, hsub, -⟩ := hk.root
    obtain rfl := Option.some_inj.mp hc
    obtain rfl := mem_singleton.mp hr
    exact absurd hsub (by decide)
  | succ k =>
    obtain ⟨c, d, -, hd, -, -, hca⟩ := hk.link 0 k.succ_pos
    obtain rfl := Option.some_inj.mp hd
    cases hca

end Cervus.X509
