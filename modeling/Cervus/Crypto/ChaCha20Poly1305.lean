import Cervus.Crypto.Poly1305Tag

/-! Authenticated encryption, `chacha20.c` and `chacha20poly1305.c`: the key stream of ChaCha20
is added to the text, and Poly1305 with a key from the same stream makes the tag. -/

namespace Cervus.Poly1305

abbrev ChaCha := Vector (BitVec 32) 16

def rotl (x : BitVec 32) (n : Nat) : BitVec 32 := x <<< n ||| x >>> (32 - n)

def qr (x : ChaCha) (a b c d : Fin 16) : ChaCha :=
  let x := x.set a (x[a] + x[b])
  let x := x.set d (rotl (x[d] ^^^ x[a]) 16)
  let x := x.set c (x[c] + x[d])
  let x := x.set b (rotl (x[b] ^^^ x[c]) 12)
  let x := x.set a (x[a] + x[b])
  let x := x.set d (rotl (x[d] ^^^ x[a]) 8)
  let x := x.set c (x[c] + x[d])
  x.set b (rotl (x[b] ^^^ x[c]) 7)

def doubleRound (x : ChaCha) : ChaCha :=
  let x := qr x 0 4 8 12
  let x := qr x 1 5 9 13
  let x := qr x 2 6 10 14
  let x := qr x 3 7 11 15
  let x := qr x 0 5 10 15
  let x := qr x 1 6 11 12
  let x := qr x 2 7 8 13
  qr x 3 4 9 14

def chacha20Block (input : ChaCha) : List Byte :=
  let x := doubleRound^[10] input
  (Vector.zipWith (· + ·) x input).toList.flatMap st32

def chacha20State (key : Bytes 32) (nonce : Bytes 12) (counter : BitVec 32) : ChaCha :=
  #v[0x61707865, 0x3320646e, 0x79622d32, 0x6b206574,
    u32 key.1, u32 (key.1.drop 4), u32 (key.1.drop 8), u32 (key.1.drop 12),
    u32 (key.1.drop 16), u32 (key.1.drop 20), u32 (key.1.drop 24), u32 (key.1.drop 28),
    counter, u32 nonce.1, u32 (nonce.1.drop 4), u32 (nonce.1.drop 8)]

def chacha20Loop : Nat → ChaCha → List Byte → List Byte
  | 0, _, _ => []
  | k + 1, state, input =>
    List.zipWith (· ^^^ ·) (input.take 64) (chacha20Block state) ++
      chacha20Loop k (state.set 12 (state[12] + 1)) (input.drop 64)

def chacha20 (key : Bytes 32) (nonce : Bytes 12) (counter : BitVec 32) (input : List Byte) :
    List Byte :=
  chacha20Loop ((input.length + 63) / 64) (chacha20State key nonce counter) input

theorem length_chacha20Block (state : ChaCha) : (chacha20Block state).length = 64 := by
  rw [chacha20Block, show st32 = Rsa.wordBytes from rfl, Rsa.length_flatMap_wordBytes,
    Vector.length_toList]

variable {a b input : List Byte}

theorem length_chacha20Loop {k : Nat} (state : ChaCha) (hk : input.length ≤ 64 * k) :
    (chacha20Loop k state input).length = input.length := by
  induction k generalizing state input with
  | zero =>
    rw [chacha20Loop, List.length_nil]
    omega
  | succ k ih =>
    rw [chacha20Loop, List.length_append, List.length_zipWith, length_chacha20Block,
      ih _ (by rw [List.length_drop]; omega), List.length_take, List.length_drop]
    omega

theorem zipWith_xor_self (h : a.length ≤ b.length) :
    List.zipWith (· ^^^ ·) (List.zipWith (· ^^^ ·) a b) b = a := by
  induction a generalizing b with
  | nil => simp
  | cons x a ih =>
    obtain _ | ⟨y, b⟩ := b
    · simp at h
    · simp only [List.zipWith_cons_cons, ih (show a.length ≤ b.length by simpa using h)]
      rw [BitVec.xor_assoc, BitVec.xor_self, BitVec.xor_zero]

/-- Encrypting twice with the same state gives the input back. -/
theorem chacha20Loop_involutive {k : Nat} (state : ChaCha) (hk : input.length ≤ 64 * k) :
    chacha20Loop k state (chacha20Loop k state input) = input := by
  induction k generalizing state input with
  | zero => exact (List.length_eq_zero_iff.mp (by omega)).symm
  | succ k ih =>
    have hd : (input.drop 64).length ≤ 64 * k := by rw [List.length_drop]; omega
    have hrest := length_chacha20Loop (state.set 12 (state[12] + 1)) hd
    have hfirst : (List.zipWith (· ^^^ ·) (input.take 64) (chacha20Block state)).length =
        min 64 input.length := by
      rw [List.length_zipWith, length_chacha20Block, List.length_take, Nat.min_right_comm, min_self]
    rw [List.length_drop] at hrest
    -- a block that is not full is the last, so cutting the output again gives the same pieces
    have hcut : (chacha20Loop (k + 1) state input).take 64 =
          List.zipWith (· ^^^ ·) (input.take 64) (chacha20Block state) ∧
        (chacha20Loop (k + 1) state input).drop 64 =
          chacha20Loop k (state.set 12 (state[12] + 1)) (input.drop 64) := by
      rw [chacha20Loop]
      by_cases hlen : 64 ≤ input.length
      · rw [min_eq_left hlen] at hfirst
        exact ⟨List.take_left' hfirst, List.drop_left' hfirst⟩
      · rw [List.length_eq_zero_iff.mp (show (chacha20Loop k _ _).length = 0 by omega),
          List.append_nil]
        exact ⟨List.take_of_length_le (by omega), List.drop_eq_nil_of_le (by omega)⟩
    nth_rewrite 1 [chacha20Loop]
    rw [hcut.1, hcut.2, ih _ hd, zipWith_xor_self, List.take_append_drop]
    rw [List.length_take, length_chacha20Block]
    omega

theorem chacha20_involutive (key : Bytes 32) (nonce : Bytes 12) (counter : BitVec 32)
    (input : List Byte) :
    chacha20 key nonce counter (chacha20 key nonce counter input) = input := by
  have hk : input.length ≤ 64 * ((input.length + 63) / 64) := by omega
  rw [chacha20, chacha20, length_chacha20Loop _ hk]
  exact chacha20Loop_involutive _ hk

/-! The construction. -/

def polyKey (key : Bytes 32) (nonce : Bytes 12) : Bytes 32 :=
  ⟨(chacha20 key nonce 0 (List.replicate 64 0)).take 32, by
    rw [chacha20, List.length_take, length_chacha20Loop _ (by rw [List.length_replicate]),
      List.length_replicate]
    rfl⟩

def zpad (len : Nat) : List Byte := List.replicate ((16 - len % 16) % 16) 0

def lens (aadlen ctlen : Nat) : List Byte :=
  (List.range 8).map (fun i => BitVec.ofNat 8 (aadlen >>> (i * 8))) ++
    (List.range 8).map fun i => BitVec.ofNat 8 (ctlen >>> (i * 8))

def macCompute (pkey : Bytes 32) (aad ct : List Byte) : List Byte :=
  let st := poly1305Init pkey
  let st := poly1305Update st aad
  let st := poly1305Update st (zpad aad.length)
  let st := poly1305Update st ct
  let st := poly1305Update st (zpad ct.length)
  let st := poly1305Update st (lens aad.length ct.length)
  poly1305Final st

def chacha20Poly1305Encrypt (key : Bytes 32) (nonce : Bytes 12) (aad pt : List Byte) :
    List Byte × List Byte :=
  let ct := chacha20 key nonce 1 pt
  (ct, macCompute (polyKey key nonce) aad ct)

def chacha20Poly1305Decrypt (key : Bytes 32) (nonce : Bytes 12) (aad ct : List Byte)
    (tag : Bytes 16) :
    Option (List Byte) :=
  let want := macCompute (polyKey key nonce) aad ct
  let diff := (List.zipWith (· ^^^ ·) want tag.1).foldl (· ||| ·) 0
  if diff ≠ 0 then none else some (chacha20 key nonce 1 ct)

theorem foldl_or_eq_zero {l : List Byte} {d : Byte} :
    l.foldl (· ||| ·) d = 0 ↔ d = 0 ∧ ∀ x ∈ l, x = 0 := by
  induction l generalizing d with
  | nil => simp
  | cons x l ih =>
    rw [List.foldl_cons, ih, List.forall_mem_cons, ← and_assoc]
    refine and_congr_left fun _ => ?_
    exact BitVec.or_eq_zero_iff

theorem zipWith_xor_zero (h : a.length = b.length) :
    (∀ x ∈ List.zipWith (· ^^^ ·) a b, x = 0) ↔ b = a := by
  induction a generalizing b with
  | nil =>
    obtain rfl := List.length_eq_zero_iff.mp h.symm
    simp
  | cons x a ih =>
    obtain _ | ⟨y, b⟩ := b
    · simp at h
    · rw [List.zipWith_cons_cons, List.forall_mem_cons, ih (by simpa using h), List.cons.injEq]
      refine and_congr_left fun _ => ?_
      rw [eq_comm (a := y)]
      exact BitVec.xor_eq_zero_iff

theorem macCompute_eq_tag (pkey : Bytes 32) (aad ct : List Byte) : macCompute pkey aad ct =
      tag pkey (aad ++ zpad aad.length ++ ct ++ zpad ct.length ++ lens aad.length ct.length) := by
  have h :=
    poly1305Final_eq_tag pkey [aad, zpad aad.length, ct, zpad ct.length, lens aad.length ct.length]
  simpa [macCompute] using h

theorem length_macCompute (pkey : Bytes 32) (aad ct : List Byte) :
    (macCompute pkey aad ct).length = 16 := by
  rw [macCompute_eq_tag, tag, leBytes, List.length_map, List.length_range]

theorem decrypt_encrypt (key : Bytes 32) (nonce : Bytes 12) (aad pt : List Byte) (t : Bytes 16) :
    chacha20Poly1305Decrypt key nonce aad (chacha20Poly1305Encrypt key nonce aad pt).1 t =
      if t.1 = (chacha20Poly1305Encrypt key nonce aad pt).2 then some pt else none := by
  have hlen := length_macCompute (polyKey key nonce) aad (chacha20 key nonce 1 pt)
  have hdiff := foldl_or_eq_zero (d := 0)
    (l := List.zipWith (· ^^^ ·) (macCompute (polyKey key nonce) aad (chacha20 key nonce 1 pt)) t.1)
  rw [zipWith_xor_zero (hlen.trans t.2.symm)] at hdiff
  rw [chacha20Poly1305Decrypt, chacha20Poly1305Encrypt]
  by_cases hc : t.1 = macCompute (polyKey key nonce) aad (chacha20 key nonce 1 pt)
  · rw [if_neg (not_not.mpr (hdiff.mpr ⟨rfl, hc⟩)), if_pos hc, chacha20_involutive]
  · rw [if_pos fun h => hc (hdiff.mp h).2, if_neg hc]

/-- What is opened is what was sealed: nothing else passes the comparison of the tags. -/
theorem decrypt_eq_some_iff (key : Bytes 32) (nonce : Bytes 12) (aad ct pt : List Byte)
    (t : Bytes 16) :
    chacha20Poly1305Decrypt key nonce aad ct t = some pt ↔
      chacha20Poly1305Encrypt key nonce aad pt = (ct, t.1) := by
  have h := decrypt_encrypt key nonce aad (chacha20 key nonce 1 ct) t
  simp only [chacha20Poly1305Encrypt, chacha20_involutive] at h
  rw [h, chacha20Poly1305Encrypt, Prod.mk.injEq]
  constructor
  · intro hs
    split_ifs at hs with ht
    cases hs
    rw [chacha20_involutive]
    exact ⟨rfl, ht.symm⟩
  · rintro ⟨rfl, ht⟩
    rw [if_pos ht.symm, chacha20_involutive]

/-- The tag is that of RFC 8439 for every key and every way to cut the message; no sum or product
on the way overflows; and decryption undoes encryption for the right tag only. -/
theorem poly1305_correct :
    (∀ (key : Bytes 32) (pieces : List (List Byte)),
      poly1305Final (pieces.foldl poly1305Update (poly1305Init key)) = tag key pieces.flatten ∧
      (∃ bs, (pieces.foldl poly1305Update (poly1305Init key)).h = accumulate (keyR key.1) bs) ∧
      ∃ bs, lastBlock (pieces.foldl poly1305Update (poly1305Init key)) =
      accumulate (keyR key.1) bs) ∧
    (∀ (key : Bytes 32) (bs : List (Bool × Bytes 16)) (last : Bool) (m : Bytes 16),
      BlockFits (keyR key.1) (hibit last) (accumulate (keyR key.1) bs) m.1 ∧
        TagFits (accumulate (keyR key.1) bs) (poly1305Init key).pad) ∧
    ∀ (key : Bytes 32) (nonce : Bytes 12) (aad pt : List Byte) (t : Bytes 16),
      chacha20Poly1305Decrypt key nonce aad (chacha20Poly1305Encrypt key nonce aad pt).1 t =
        if t.1 = (chacha20Poly1305Encrypt key nonce aad pt).2 then some pt else none := by
  refine ⟨fun key pieces => ⟨poly1305Final_eq_tag key pieces, update_accumulates key pieces⟩, ?_,
    decrypt_encrypt⟩
  intro key bs last m
  have hr := (keyR_spec (show 16 ≤ key.1.length by rw [key.2]; omega)).1
  have hs := settled_accumulate hr bs
  exact ⟨(poly1305Block_spec hr hs (hibit_cases last) m.2).1, tagFits hs _⟩

end Cervus.Poly1305
