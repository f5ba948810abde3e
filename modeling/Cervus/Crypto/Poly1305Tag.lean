import Cervus.Crypto.Poly1305Block

/-! The tag: the blocks of the message are the coefficients of a polynomial in the clamped
half of the key, and the other half is added to its value. -/

namespace Cervus.Poly1305

open List Limbs Nat

/-! The key. -/

def clampMask : Nat := 0x0ffffffc0ffffffc0ffffffc0fffffff

theorem digit_and (v c k n : Nat) (h : k + n ≤ 128) :
    (v % 2 ^ 128 &&& c) / 2 ^ k % 2 ^ n = v / 2 ^ k % 2 ^ n &&& c / 2 ^ k % 2 ^ n := by
  refine eq_of_testBit_eq fun i => ?_
  simp only [testBit_and, testBit_div_two_pow, testBit_mod_two_pow]
  by_cases hi : i < n
  · simp [hi, show i + k < 128 by omega]
  · simp [hi]

variable {b key : List Byte} {g h : Limbs26}

/-- The limbs of `r` hold the clamped first half of the key. -/
theorem keyR_spec (hk : 16 ≤ key.length) :
    (keyR key).Below (2 ^ 26) ∧ (keyR key).value = value (key.take 16) &&& clampMask := by
  have hv := value_take hk
  generalize hx : value (key.take 16) &&& clampMask = x
  have hlt : x < 2 ^ 128 := by
    rw [← hx]
    exact and_lt_two_pow _ (by decide)
  -- the five masks are the limbs of the clamping mask
  have digit {k s n : Nat} {mask : BitVec 32} (hb : k + 4 ≤ key.length) (hs : s + n ≤ 32)
    (hkn : 8 * k + s + n ≤ 128)
      (hm : clampMask / 2 ^ (8 * k + s) % 2 ^ n = mask.toNat) :
      (u32 (key.drop k) >>> s &&& mask).toNat = x / 2 ^ (8 * k + s) % 2 ^ n := by
    rw [toNat_limb hb hs (hm ▸ Nat.mod_lt _ (Nat.two_pow_pos n)), ← hm, ← digit_and _ _ _ _ hkn,
      ← hx, hv]
  have e0 : (keyR key).l0.toNat = x % 2 ^ 26 := by
    have h : (u32 (key.drop 0) >>> 0 &&& 0x3ffffff).toNat = x / 2 ^ 0 % 2 ^ 26 :=
      digit (by omega) (by omega) (by omega) (by decide)
    simpa [keyR] using h
  have e1 : (keyR key).l1.toNat = x / 2 ^ 26 % 2 ^ 26 :=
    digit (by omega) (by omega) (by omega) (by decide)
  have e2 : (keyR key).l2.toNat = x / 2 ^ 52 % 2 ^ 26 :=
    digit (by omega) (by omega) (by omega) (by decide)
  have e3 : (keyR key).l3.toNat = x / 2 ^ 78 % 2 ^ 26 :=
    digit (by omega) (by omega) (by omega) (by decide)
  have e4 : (keyR key).l4.toNat = x / 2 ^ 104 % 2 ^ 24 :=
    digit (by omega) (by omega) (by omega) (by decide)
  constructor
  · constructor <;> omega
  · rw [Limbs26.value]
    omega

theorem value_pad (hk : key.length = 32) :
    value [u32 (key.drop 16), u32 (key.drop 20), u32 (key.drop 24), u32 (key.drop 28)] =
      value (key.drop 16) := by
  have h := Rsa.value_packWords (k := 4) (b := key.drop 16) (by rw [length_drop]; omega)
  simpa [Rsa.packWords, u32, drop_drop] using h

/-! The last carries. -/

structure Reduced (h : Limbs26) : Prop where
  l0 : h.l0.toNat < 2 ^ 26
  l1 : h.l1.toNat < 2 ^ 26
  l2 : h.l2.toNat < 2 ^ 26
  l3 : h.l3.toNat < 2 ^ 26
  l4 : h.l4.toNat < 2 ^ 26

structure FinalFits (h : Limbs26) : Prop where
  h2 : h.l2.toNat + h.l1.toNat / 2 ^ 26 < 2 ^ 32
  h3 : h.l3.toNat + (finalSums h).l2.toNat / 2 ^ 26 < 2 ^ 32
  h4 : h.l4.toNat + (finalSums h).l3.toNat / 2 ^ 26 < 2 ^ 32
  five : (finalSums h).l4.toNat / 2 ^ 26 * 5 < 2 ^ 32
  h0 : h.l0.toNat + (finalSums h).l4.toNat / 2 ^ 26 * 5 < 2 ^ 32
  h1 : h.l1.toNat % 2 ^ 26 + (finalSums h).l0.toNat / 2 ^ 26 < 2 ^ 32

theorem toNat_add_shr {x y : BitVec 32} (h : x.toNat + y.toNat / 2 ^ 26 < 2 ^ 32) :
    (x + y >>> 26).toNat = x.toNat + y.toNat / 2 ^ 26 := by
  rw [toNat_add_exact (by rwa [toNat_shr]), toNat_shr]

/-- The final carries leave the same residue. -/
theorem finalCarry_spec (hh : Settled h) :
    FinalFits h ∧ Reduced (finalCarry h) ∧ (finalCarry h).value ≡ h.value [MOD p] := by
  obtain ⟨h0, h1, h2, h3, h4⟩ := hh
  have f2 : h.l2.toNat + h.l1.toNat / 2 ^ 26 < 2 ^ 32 := by omega
  have e2 : (finalSums h).l2.toNat = _ := toNat_add_shr f2
  have f3 : h.l3.toNat + (finalSums h).l2.toNat / 2 ^ 26 < 2 ^ 32 := by omega
  have e3 : (finalSums h).l3.toNat = h.l3.toNat + (finalSums h).l2.toNat / 2 ^ 26 :=
    toNat_add_shr f3
  have f4 : h.l4.toNat + (finalSums h).l3.toNat / 2 ^ 26 < 2 ^ 32 := by omega
  have e4 : (finalSums h).l4.toNat = h.l4.toNat + (finalSums h).l3.toNat / 2 ^ 26 :=
    toNat_add_shr f4
  have f5 : (finalSums h).l4.toNat / 2 ^ 26 * 5 < 2 ^ 32 := by omega
  have e5 := toNat_mul_five (x := (finalSums h).l4 >>> 26) (by rwa [toNat_shr])
  rw [toNat_shr] at e5
  have f0 : h.l0.toNat + (finalSums h).l4.toNat / 2 ^ 26 * 5 < 2 ^ 32 := by omega
  have e0 : (finalSums h).l0.toNat = h.l0.toNat + ((finalSums h).l4 >>> 26 * 5).toNat :=
    toNat_add_exact (e5 ▸ f0)
  rw [e5] at e0
  have f1 : h.l1.toNat % 2 ^ 26 + (finalSums h).l0.toNat / 2 ^ 26 < 2 ^ 32 := by omega
  have m1 := toNat_mask h.l1 0x3ffffff rfl
  have e1 : (finalSums h).l1.toNat = (h.l1 &&& 0x3ffffff).toNat + (finalSums h).l0.toNat / 2 ^ 26 :=
    toNat_add_shr (m1 ▸ f1)
  have w0 : (finalCarry h).l0.toNat = _ := toNat_mask (finalSums h).l0 0x3ffffff rfl
  have w1 : (finalCarry h).l1.toNat = (finalSums h).l1.toNat := rfl
  have w2 : (finalCarry h).l2.toNat = _ := toNat_mask (finalSums h).l2 0x3ffffff rfl
  have w3 : (finalCarry h).l3.toNat = _ := toNat_mask (finalSums h).l3 0x3ffffff rfl
  have w4 : (finalCarry h).l4.toNat = _ := toNat_mask (finalSums h).l4 0x3ffffff rfl
  -- a carry reaches a limb only if the one before had one, so nothing comes back to the second limb
  have k2 : (finalSums h).l2.toNat / 2 ^ 26 ≤ h.l1.toNat / 2 ^ 26 := by omega
  have k3 : (finalSums h).l3.toNat / 2 ^ 26 ≤ (finalSums h).l2.toNat / 2 ^ 26 := by omega
  have k4 : (finalSums h).l4.toNat / 2 ^ 26 ≤ (finalSums h).l3.toNat / 2 ^ 26 := by omega
  have k0 : (finalSums h).l0.toNat / 2 ^ 26 ≤ h.l1.toNat / 2 ^ 26 := by omega
  have hl1 : (finalSums h).l1.toNat < 2 ^ 26 := by omega
  refine ⟨⟨f2, f3, f4, f5, f0, f1⟩, ⟨by omega, by omega, by omega, by omega, by omega⟩, ?_⟩
  have hval : h.value = (finalCarry h).value + p * ((finalSums h).l4.toNat / 2 ^ 26) := by
    rw [Limbs26.value, Limbs26.value, p_eq]
    omega
  rw [hval]
  exact (add_mul_mod_self_left _ _ _).symm

structure PlusFits (h : Limbs26) : Prop where
  g0 : h.l0.toNat + 5 < 2 ^ 32
  g1 : h.l1.toNat + (plusFive h).l0.toNat / 2 ^ 26 < 2 ^ 32
  g2 : h.l2.toNat + (plusFive h).l1.toNat / 2 ^ 26 < 2 ^ 32
  g3 : h.l3.toNat + (plusFive h).l2.toNat / 2 ^ 26 < 2 ^ 32
  g4 : h.l4.toNat + (plusFive h).l3.toNat / 2 ^ 26 < 2 ^ 32

theorem plusFive_spec (hh : Reduced h) : PlusFits h ∧ (plusFive h).l4.toNat ≤ 2 ^ 26 ∧
    (plusFive h).l0.toNat % 2 ^ 26 + 2 ^ 26 * ((plusFive h).l1.toNat % 2 ^ 26) +
      2 ^ 52 * ((plusFive h).l2.toNat % 2 ^ 26) + 2 ^ 78 * ((plusFive h).l3.toNat % 2 ^ 26) +
      2 ^ 104 * (plusFive h).l4.toNat = h.value + 5 := by
  obtain ⟨h0, h1, h2, h3, h4⟩ := hh
  have f0 : h.l0.toNat + 5 < 2 ^ 32 := by omega
  have e0 : (plusFive h).l0.toNat = h.l0.toNat + 5 := toNat_add_exact f0
  have f1 : h.l1.toNat + (plusFive h).l0.toNat / 2 ^ 26 < 2 ^ 32 := by omega
  have e1 : (plusFive h).l1.toNat = h.l1.toNat + (plusFive h).l0.toNat / 2 ^ 26 := toNat_add_shr f1
  have f2 : h.l2.toNat + (plusFive h).l1.toNat / 2 ^ 26 < 2 ^ 32 := by omega
  have e2 : (plusFive h).l2.toNat = h.l2.toNat + (plusFive h).l1.toNat / 2 ^ 26 := toNat_add_shr f2
  have f3 : h.l3.toNat + (plusFive h).l2.toNat / 2 ^ 26 < 2 ^ 32 := by omega
  have e3 : (plusFive h).l3.toNat = h.l3.toNat + (plusFive h).l2.toNat / 2 ^ 26 := toNat_add_shr f3
  have f4 : h.l4.toNat + (plusFive h).l3.toNat / 2 ^ 26 < 2 ^ 32 := by omega
  have e4 : (plusFive h).l4.toNat = h.l4.toNat + (plusFive h).l3.toNat / 2 ^ 26 := toNat_add_shr f4
  refine ⟨⟨f0, f1, f2, f3, f4⟩, by omega, ?_⟩
  rw [Limbs26.value]
  omega

theorem select_of_mask_zero (h : Limbs26) (hm : g.l4 >>> 31 - 1 = 0#32) : select h g = h := by
  simp only [select, hm, BitVec.not_zero, BitVec.and_allOnes, BitVec.and_zero, BitVec.or_zero]

theorem select_of_mask_ones (h : Limbs26) (hm : g.l4 >>> 31 - 1 = BitVec.allOnes 32) :
    select h g = g := by
  simp only [select, hm, BitVec.not_allOnes, BitVec.and_allOnes, BitVec.and_zero, BitVec.zero_or]

/-- The choice without a branch is reduction modulo `p`. -/
theorem select_spec (hh : Reduced h) :
    Reduced (select h (lessP h)) ∧ (select h (lessP h)).value = h.value % p := by
  obtain ⟨-, ht, hsum⟩ := plusFive_spec hh
  have w0 : (lessP h).l0.toNat = _ := toNat_mask (plusFive h).l0 0x3ffffff rfl
  have w1 : (lessP h).l1.toNat = _ := toNat_mask (plusFive h).l1 0x3ffffff rfl
  have w2 : (lessP h).l2.toNat = _ := toNat_mask (plusFive h).l2 0x3ffffff rfl
  have w3 : (lessP h).l3.toNat = _ := toNat_mask (plusFive h).l3 0x3ffffff rfl
  have hp := p_eq
  have hlt : h.value < 2 ^ 130 := by
    obtain ⟨h0, h1, h2, h3, h4⟩ := hh
    rw [Limbs26.value]
    omega
  by_cases hc : (plusFive h).l4.toNat = 2 ^ 26
  · have h4 : (lessP h).l4 = 0 := by
      rw [lessP, BitVec.eq_of_toNat_eq (y := 1#32 <<< 26) hc]
      rfl
    rw [select_of_mask_ones h (by rw [h4]; rfl)]
    refine ⟨⟨by omega, by omega, by omega, by omega, by rw [h4]; decide⟩, ?_⟩
    have hval : (lessP h).value = h.value - p := by
      rw [Limbs26.value, w0, w1, w2, w3, h4, show (0 : BitVec 32).toNat = 0 from rfl]
      omega
    rw [hval, mod_eq_sub_mod (by omega), mod_eq_of_lt (by omega)]
  · have h4 : (lessP h).l4.toNat = 2 ^ 32 - 2 ^ 26 + (plusFive h).l4.toNat := by
      rw [lessP, BitVec.toNat_sub, show (1#32 <<< 26 : BitVec 32).toNat = 2 ^ 26 from rfl]
      omega
    have htop : (lessP h).l4 >>> 31 = 1 := by
      refine BitVec.eq_of_toNat_eq ?_
      rw [toNat_shr, h4, show (1 : BitVec 32).toNat = 1 from rfl]
      omega
    rw [select_of_mask_zero h (by rw [htop]; rfl)]
    refine ⟨hh, (mod_eq_of_lt ?_).symm⟩
    omega

/-! The words of the tag. -/

theorem toNat_or_shl {a b : BitVec 32} {k : Nat} (hk : k ≤ 32) (ha : a.toNat < 2 ^ k) :
    (a ||| b <<< k).toNat = a.toNat + 2 ^ k * (b.toNat % 2 ^ (32 - k)) := by
  have hshl : (b <<< k).toNat = 2 ^ k * (b.toNat % 2 ^ (32 - k)) := by
    rw [BitVec.toNat_shiftLeft, Nat.shiftLeft_eq, mul_comm]
    nth_rewrite 2 [← Nat.add_sub_cancel' hk]
    rw [pow_add, Nat.mul_mod_mul_left]
  rw [BitVec.toNat_or, hshl, Nat.or_comm, ← Nat.two_pow_add_eq_or_of_lt ha, add_comm]

theorem value_pack (hh : Reduced h) : value (pack h) = h.value % 2 ^ 128 := by
  obtain ⟨h0, h1, h2, h3, h4⟩ := hh
  have w0 := toNat_or_shl (b := h.l1) (by omega) h0
  have w1 := toNat_or_shl (k := 20) (a := h.l1 >>> 6) (b :=
    h.l2) (by omega) (by rw [toNat_shr]; omega)
  have w2 := toNat_or_shl (k := 14) (a := h.l2 >>> 12) (b :=
    h.l3) (by omega) (by rw [toNat_shr]; omega)
  have w3 := toNat_or_shl (k := 8) (a := h.l3 >>> 18) (b :=
    h.l4) (by omega) (by rw [toNat_shr]; omega)
  rw [toNat_shr] at w1 w2 w3
  simp only [pack, value_cons, value_nil, w0, w1, w2, w3, Limbs26.value]
  omega

/-! The polynomial of RFC 8439. -/

def blockValue (b : List Byte) : Nat := value b + 2 ^ (8 * b.length)

def blockCount (m : List Byte) : Nat := (m.length + 15) / 16

def blockAt (m : List Byte) (i : Nat) : List Byte := (m.drop (16 * i)).take 16

def polySum (r : Nat) (m : List Byte) : Nat :=
  ∑ i ∈ Finset.range (blockCount m), blockValue (blockAt m i) * r ^ (blockCount m - i)

def leBytes (n v : Nat) : List Byte := (range n).map fun i => BitVec.ofNat 8 (v / 2 ^ (8 * i))

def tag (key : Bytes 32) (m : List Byte) : List Byte :=
  let r := value (key.1.take 16) &&& clampMask
  let s := value (key.1.drop 16)
  leBytes 16 ((polySum r m % p + s) % 2 ^ 128)

theorem polySum_append (r : Nat) (hb : b.length = 16) (m : List Byte) :
    blockCount (b ++ m) = blockCount m + 1 ∧
      polySum r (b ++ m) = blockValue b * r ^ (blockCount m + 1) + polySum r m := by
  have hc : blockCount (b ++ m) = blockCount m + 1 := by
    rw [blockCount, blockCount, length_append]
    omega
  have h0 : blockAt (b ++ m) 0 = b := by simp [blockAt, take_left' hb]
  have hs : ∀ i, blockAt (b ++ m) (i + 1) = blockAt m i := by
    intro i
    rw [blockAt, blockAt, mul_succ, Nat.add_comm, ← drop_drop, drop_left' hb]
  refine ⟨hc, ?_⟩
  rw [polySum, hc, Finset.sum_range_succ', h0, Nat.sub_zero, Nat.add_comm, polySum]
  simp only [hs, Nat.add_sub_add_right]

theorem value_leBytes (n v : Nat) : value (leBytes n v) = v % 2 ^ (8 * n) := by
  induction n with
  | zero => simp [leBytes, mod_one]
  | succ n ih =>
    have hlen : (leBytes n v).length = n := by simp [leBytes]
    have hcat : leBytes (n + 1) v = leBytes n v ++ [BitVec.ofNat 8 (v / 2 ^ (8 * n))] := by
      simp [leBytes, range_succ]
    rw [hcat, value_append, ih, hlen]
    simp only [value_cons, value_nil, BitVec.toNat_ofNat, mul_zero, add_zero]
    rw [mul_succ, pow_add, mod_mul]

/-! The message. -/

theorem value_padded (hb : b.length < 16) : (b ++ 1 :: replicate (15 - b.length) 0).length = 16 ∧
      value (b ++ 1 :: replicate (15 - b.length) 0) = blockValue b := by
  constructor
  · rw [length_append, length_cons, length_replicate]
    omega
  · rw [value_append, value_cons, show (0 : Byte) = 0#8 from rfl, value_replicate, blockValue,
      show (1 : Byte).toNat + 2 ^ 8 * 0 = 1 from rfl, mul_one]

section Message

variable {r : Limbs26} (hr : r.Below (2 ^ 26))

include hr

theorem block_step {h : Limbs26} (hh : Settled h) {b : List Byte} (hb : b.length = 16) :
    Settled (poly1305Block r (1#32 <<< 24) h b) ∧
      (poly1305Block r (1#32 <<< 24) h b).value ≡ (h.value + blockValue b) * r.value [MOD p] := by
  obtain ⟨-, hs, hv⟩ := poly1305Block_spec hr hh (.inr rfl) hb
  refine ⟨hs, ?_⟩
  rwa [blockValue, hb, ← add_assoc]

theorem lastBlock_step {st : Poly1305Ctx} (hst : st.r = r) (hh : Settled st.h)
    (hb : st.buffer.length < 16) :
    Settled (lastBlock st) ∧
      (lastBlock st).value ≡ st.h.value * r.value ^ blockCount st.buffer +
      polySum r.value st.buffer [MOD p] := by
  rw [lastBlock]
  split_ifs with he
  · refine ⟨hh, ?_⟩
    simp [he, blockCount, polySum, Nat.ModEq]
  obtain ⟨hlen, hval⟩ := value_padded hb
  rw [hst]
  obtain ⟨-, hs, hv⟩ := poly1305Block_spec hr hh (.inl rfl) hlen
  refine ⟨hs, hv.trans ?_⟩
  have hone : blockCount st.buffer = 1 := by
    have := length_pos_iff.mpr he
    rw [blockCount]
    omega
  have hat : blockAt st.buffer 0 = st.buffer := by
    rw [blockAt, drop_zero, take_of_length_le (by omega)]
  rw [hval, polySum, hone, Finset.sum_range_one, hat, show (0 : BitVec 32).toNat = 0 from rfl]
  simp only [mul_zero, add_zero, Nat.sub_zero, pow_one, add_mul]
  rfl

theorem whole_value {h : Limbs26} (hh : Settled h) (pad : List (BitVec 32)) (m : List Byte) :
    let x := Absorb.whole 16 (poly1305Block r (1#32 <<< 24)) h m
    Settled (lastBlock ⟨r, x.1, pad, x.2⟩) ∧
      (lastBlock ⟨r, x.1, pad, x.2⟩).value ≡ h.value * r.value ^ blockCount m +
      polySum r.value m [MOD p] := by
  induction m using Absorb.induction_blocks (show 0 < 16 by decide) generalizing h with
  | hrest m hm =>
    rw [Absorb.whole_of_lt hm]
    exact lastBlock_step hr rfl hh hm
  | hblock b m hb ih =>
    obtain ⟨hs, hv⟩ := block_step hr hh hb
    obtain ⟨hc, hsum⟩ := polySum_append r.value hb m
    rw [Absorb.whole_cons (by decide) hb, hc, hsum]
    obtain ⟨h1, h2⟩ := ih hs
    refine ⟨h1, h2.trans ?_⟩
    have hmul := (hv.mul_right (r.value ^ blockCount m)).add_right (polySum r.value m)
    refine hmul.trans (congrArg (· % p) ?_)
    ring

end Message

theorem settled_zero : Settled .zero := ⟨by decide, by decide, by decide, by decide, by decide⟩

theorem foldl_poly1305Update (st : Poly1305Ctx) (pieces : List (List Byte)) :
    pieces.foldl poly1305Update st =
      { st with
        h := (pieces.foldl (Absorb.update 16 (poly1305Block st.r (1#32 <<< 24)))
          (st.h, st.buffer)).1
        buffer :=
          (pieces.foldl (Absorb.update 16 (poly1305Block st.r (1#32 <<< 24)))
          (st.h, st.buffer)).2 } := by
  induction pieces generalizing st with
  | nil => rfl
  | cons m pieces ih => rw [foldl_cons, ih, foldl_cons, poly1305Update]

theorem poly1305Final_eq {st : Poly1305Ctx} (hs : Settled (lastBlock st)) (hp : st.pad.length = 4) :
    poly1305Final st = leBytes 16 (((lastBlock st).value % p + value st.pad) % 2 ^ 128) := by
  obtain ⟨-, hred, hmod⟩ := finalCarry_spec hs
  obtain ⟨hsel, hval⟩ := select_spec hred
  have hpack := value_pack hsel
  rw [hval, hmod] at hpack
  have hlen :
      (pack (select (finalCarry (lastBlock st)) (lessP (finalCarry (lastBlock st))))).length =
      st.pad.length := by
    rw [hp]
    rfl
  obtain ⟨hadd, -⟩ := value_add (w := 32) (by decide) (c := 0) hlen (by decide)
  have hl := length_add (w := 32) 0 hlen
  have hlt := Limbs.value_lt (add 0 (pack (select (finalCarry (lastBlock st))
    (lessP (finalCarry (lastBlock st))))) st.pad).1
  rw [hl, hlen, hp] at hlt
  rw [hlen, hp, hpack, show (0 : BitVec (2 * 32)).toNat = 0 from rfl] at hadd
  have hbytes : poly1305Final st = (add 0 (pack (select (finalCarry (lastBlock st))
    (lessP (finalCarry (lastBlock st))))) st.pad).1.flatMap Rsa.wordBytes := rfl
  refine value_inj ?_ ?_
  · rw [hbytes, Rsa.length_flatMap_wordBytes, hl, hlen, hp, leBytes, length_map, length_range]
  · rw [hbytes, value_leBytes, Rsa.value_flatMap_wordBytes]
    omega

theorem poly1305Final_eq_tag (key : Bytes 32) (pieces : List (List Byte)) :
    poly1305Final (pieces.foldl poly1305Update (poly1305Init key)) = tag key pieces.flatten := by
  obtain ⟨key, hk⟩ := key
  obtain ⟨hr, hclamp⟩ := keyR_spec (show 16 ≤ key.length by omega)
  obtain ⟨hs, hv⟩ := whole_value hr settled_zero (poly1305Init ⟨key, hk⟩).pad pieces.flatten
  have hst := foldl_poly1305Update (poly1305Init ⟨key, hk⟩) pieces
  rw [show ((poly1305Init ⟨key, hk⟩).h, (poly1305Init ⟨key, hk⟩).buffer) = (Limbs26.zero, [])
    from rfl,
    Absorb.foldl_update (by decide)] at hst
  rw [hst]
  refine (poly1305Final_eq hs rfl).trans ?_
  rw [hv, tag, ← hclamp, show Limbs26.zero.value = 0 from rfl, zero_mul, zero_add]
  exact congrArg (fun s => leBytes 16 ((polySum (keyR key).value pieces.flatten % p + s) % 2 ^ 128))
    (value_pad hk)

/-! No overflow. The one subtraction that can wrap, in `lessP`, is the comparison with `p`. -/

def hibit (last : Bool) : BitVec 32 := if last then 0 else 1#32 <<< 24

/-- The accumulator after some blocks, of which any may have come as a last one. -/
def accumulate (r : Limbs26) (bs : List (Bool × Bytes 16)) : Limbs26 :=
  bs.foldl (fun h b => poly1305Block r (hibit b.1) h b.2.1) .zero

theorem accumulate_append (r : Limbs26) (bs : List (Bool × Bytes 16)) (b : Bool × Bytes 16) :
    accumulate r (bs ++ [b]) = poly1305Block r (hibit b.1) (accumulate r bs) b.2.1 := by
  rw [accumulate, foldl_append]
  rfl

theorem hibit_cases (last : Bool) : hibit last = 0 ∨ hibit last = 1#32 <<< 24 := by
  cases last
  · exact .inr rfl
  · exact .inl rfl

theorem settled_accumulate {r : Limbs26} (hr : r.Below (2 ^ 26)) (bs : List (Bool × Bytes 16)) :
    Settled (accumulate r bs) := by
  induction bs using reverseRecOn with
  | nil => exact settled_zero
  | append_singleton bs b ih =>
    rw [accumulate_append]
    exact (poly1305Block_spec hr ih (hibit_cases b.1) b.2.2).2.1

def PadFits : BitVec (2 * 32) → List (BitVec 32) → List (BitVec 32) → Prop
  | c, a :: as, b :: bs =>
    a.toNat + b.toNat + c.toNat < 2 ^ 64 ∧ PadFits ((a.setWidth _ + b.setWidth _ + c) >>> 32) as bs
  | _, _, _ => True

theorem padFits {c : BitVec (2 * 32)} (hc : c.toNat < 2 ^ 32) (a b : List (BitVec 32)) :
    PadFits c a b := by
  induction a generalizing b c with
  | nil => exact trivial
  | cons x a ih =>
    obtain _ | ⟨y, b⟩ := b
    · exact trivial
    · have hx := x.isLt
      exact ⟨by omega, ih (high_lt _) b⟩

/-- No sum on the way from the accumulator to the tag leaves its word. -/
structure TagFits (h : Limbs26) (pad : List (BitVec 32)) : Prop where
  carries : FinalFits h
  plus : PlusFits (finalCarry h)
  pad : PadFits 0 (pack (select (finalCarry h) (lessP (finalCarry h)))) pad

theorem tagFits (hh : Settled h) (pad : List (BitVec 32)) : TagFits h pad := by
  obtain ⟨hf, hred, -⟩ := finalCarry_spec hh
  exact ⟨hf, (plusFive_spec hred).1, padFits (by decide) _ _⟩

theorem whole_accumulates (r : Limbs26) (m : List Byte) (bs : List (Bool × Bytes 16)) :
    ∃ bs', (Absorb.whole 16 (poly1305Block r (1#32 <<< 24)) (accumulate r bs) m).1 =
      accumulate r bs' := by
  induction m using Absorb.induction_blocks (show 0 < 16 by decide) generalizing bs with
  | hrest m hm => exact ⟨bs, by rw [Absorb.whole_of_lt hm]⟩
  | hblock b m hb ih =>
    obtain ⟨bs', h⟩ := ih (bs ++ [(false, ⟨b, hb⟩)])
    refine ⟨bs', ?_⟩
    rw [Absorb.whole_cons (by decide) hb, ← h, accumulate_append]
    rfl

theorem update_accumulates (key : Bytes 32) (pieces : List (List Byte)) :
    (∃ bs, (pieces.foldl poly1305Update (poly1305Init key)).h = accumulate (keyR key.1) bs) ∧
      ∃ bs, lastBlock (pieces.foldl poly1305Update (poly1305Init key)) =
      accumulate (keyR key.1) bs := by
  obtain ⟨bs, hbs⟩ := whole_accumulates (keyR key.1) pieces.flatten []
  have hlt :
    (Absorb.whole 16 (poly1305Block (keyR key.1) (1#32 <<< 24)) (accumulate (keyR key.1) [])
      pieces.flatten).2.length < 16 := Absorb.length_whole_lt (by decide) _ _
  have hst := foldl_poly1305Update (poly1305Init key) pieces
  rw [show ((poly1305Init key).h, (poly1305Init key).buffer) = (accumulate (keyR key.1) [], [])
    from rfl,
    Absorb.foldl_update (by decide)] at hst
  rw [hst]
  refine ⟨⟨bs, hbs⟩, ?_⟩
  rw [lastBlock]
  split_ifs
  · exact ⟨bs, hbs⟩
  · refine ⟨bs ++ [(true, ⟨_, (value_padded hlt).1⟩)], ?_⟩
    rw [accumulate_append, ← hbs]
    rfl

end Cervus.Poly1305
