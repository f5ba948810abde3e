import Cervus.Crypto.Poly1305

/-! What a block does to the accumulator: the block is added and the sum multiplied by `r`,
modulo `2 ^ 130 - 5`. No sum or product on the way leaves its word. -/

namespace Cervus.Poly1305

open Limbs BitVec Nat

def p : Nat := 2 ^ 130 - 5

theorem p_eq : p = 1361129467683753853853498429727072845819 := rfl

def Limbs26.value (h : Limbs26) : Nat :=
  h.l0.toNat + 2 ^ 26 * h.l1.toNat + 2 ^ 52 * h.l2.toNat + 2 ^ 78 * h.l3.toNat + 2 ^ 104 *
    h.l4.toNat

def Limbs64.value (d : Limbs64) : Nat :=
  d.d0.toNat + 2 ^ 26 * d.d1.toNat + 2 ^ 52 * d.d2.toNat + 2 ^ 78 * d.d3.toNat + 2 ^ 104 *
    d.d4.toNat

structure Limbs26.Below (n : Nat) (h : Limbs26) : Prop where
  l0 : h.l0.toNat ≤ n
  l1 : h.l1.toNat ≤ n
  l2 : h.l2.toNat ≤ n
  l3 : h.l3.toNat ≤ n
  l4 : h.l4.toNat ≤ n

structure Settled (h : Limbs26) : Prop where
  l0 : h.l0.toNat < 2 ^ 26
  l1 : h.l1.toNat < 2 ^ 26 + 64
  l2 : h.l2.toNat < 2 ^ 26
  l3 : h.l3.toNat < 2 ^ 26
  l4 : h.l4.toNat < 2 ^ 26

variable {k s w : Nat} {m : List Byte} {h r : Limbs26} {d : Limbs64}

theorem toNat_add_exact {x y : BitVec w} (h : x.toNat + y.toNat < 2 ^ w) :
    (x + y).toNat = x.toNat + y.toNat := by
  rw [toNat_add, mod_eq_of_lt h]

theorem toNat_mul_five {x : BitVec 32} (h : x.toNat * 5 < 2 ^ 32) :
    (x * 5).toNat = x.toNat * 5 := by
  rw [toNat_mul, show (5 : BitVec 32).toNat = 5 from rfl, mod_eq_of_lt h]

theorem toNat_mask (x mask : BitVec w) (h : mask.toNat = 2 ^ 26 - 1) :
    (x &&& mask).toNat = x.toNat % 2 ^ 26 := by
  rw [toNat_and, h, and_two_pow_sub_one_eq_mod]

theorem toNat_shr (x : BitVec w) (k : Nat) : (x >>> k).toNat = x.toNat / 2 ^ k := by
  rw [toNat_ushiftRight, shiftRight_eq_div_pow]

/-! The limbs of sixteen bytes. -/

theorem toNat_u32_drop (hk : k + 4 ≤ m.length) :
    (u32 (m.drop k)).toNat = value m / 2 ^ (8 * k) % 2 ^ 32 := by
  have hsplit := Limbs.value_take_add_drop k m (by omega)
  have hlt := Limbs.value_lt (m.take k)
  rw [List.length_take_of_le (by omega)] at hlt
  rw [u32, Rsa.word32_toNat, Limbs.value_take (by rw [List.length_drop]; omega), ← hsplit,
    Nat.add_mul_div_left _ _ (Nat.two_pow_pos _), Nat.div_eq_of_lt hlt, zero_add]

theorem toNat_limb {n : Nat} (hk : k + 4 ≤ m.length) (hs : s + n ≤ 32) {mask : BitVec 32}
    (hmask : mask.toNat < 2 ^ n) :
    (u32 (m.drop k) >>> s &&& mask).toNat = value m / 2 ^ (8 * k + s) % 2 ^ n &&& mask.toNat := by
  refine eq_of_testBit_eq fun i => ?_
  rw [toNat_and, toNat_shr, toNat_u32_drop hk]
  simp only [testBit_and, testBit_div_two_pow, testBit_mod_two_pow]
  by_cases hi : i < n
  · simp only [hi,
      show s + i < 32 by omega, decide_true, Bool.true_and, add_assoc, add_left_comm, add_comm]
  · rw [Nat.testBit_lt_two_pow (hmask.trans_le (Nat.pow_le_pow_right (by decide) (by omega)))]
    simp

theorem toNat_limb_full (hk : k + 4 ≤ m.length) (hs : s ≤ 6) :
    (u32 (m.drop k) >>> s &&& 0x3ffffff).toNat = value m / 2 ^ (8 * k + s) % 2 ^ 26 := by
  rw [toNat_limb (n := 26) hk (by omega) (by decide),
    show (0x3ffffff : BitVec 32).toNat = 2 ^ 26 - 1 from rfl,
    and_two_pow_sub_one_eq_mod, mod_mod]

theorem toNat_limb_top (hm : m.length = 16) {hibit : BitVec 32}
    (hb : hibit = 0 ∨ hibit = 1#32 <<< 24) :
    (u32 (m.drop 12) >>> 8 ||| hibit).toNat = value m / 2 ^ 104 + hibit.toNat := by
  have hlt := Limbs.value_lt m
  rw [hm] at hlt
  have hx : (u32 (m.drop 12) >>> 8).toNat = value m / 2 ^ 104 := by
    rw [toNat_shr, toNat_u32_drop (by omega)]
    omega
  obtain rfl | rfl := hb
  · rw [toNat_or, hx]
    simp
  · have h24 : value m / 2 ^ 104 < 2 ^ 24 := by omega
    have hor := Nat.two_pow_add_eq_or_of_lt h24 1
    rw [toNat_or, hx, show (1#32 <<< 24 : BitVec 32).toNat = 2 ^ 24 * 1 from rfl, Nat.or_comm,
      ← hor, add_comm]

theorem toNat_limbs (hm : m.length = 16) {hibit : BitVec 32}
    (hb : hibit = 0 ∨ hibit = 1#32 <<< 24) :
    (u32 m &&& 0x3ffffff).toNat = value m % 2 ^ 26 ∧
    (u32 (m.drop 3) >>> 2 &&& 0x3ffffff).toNat = value m / 2 ^ 26 % 2 ^ 26 ∧
    (u32 (m.drop 6) >>> 4 &&& 0x3ffffff).toNat = value m / 2 ^ 52 % 2 ^ 26 ∧
    (u32 (m.drop 9) >>> 6 &&& 0x3ffffff).toNat = value m / 2 ^ 78 % 2 ^ 26 ∧
    (u32 (m.drop 12) >>> 8 ||| hibit).toNat = value m / 2 ^ 104 + hibit.toNat := by
  refine ⟨?_, toNat_limb_full (by omega) (by omega), toNat_limb_full (by omega) (by omega),
    toNat_limb_full (by omega) (by omega), toNat_limb_top hm hb⟩
  have hl := toNat_limb_full (m := m) (k := 0) (s := 0) (by omega) (by omega)
  simpa using hl

/-! The sum. -/

/-- The sums of `addBlock` before they are cut to 32 bits. -/
structure SumsFit (hibit : BitVec 32) (h : Limbs26) (m : List Byte) : Prop where
  l0 : h.l0.toNat + (u32 m &&& 0x3ffffff).toNat < 2 ^ 32
  l1 : h.l1.toNat + (u32 (m.drop 3) >>> 2 &&& 0x3ffffff).toNat < 2 ^ 32
  l2 : h.l2.toNat + (u32 (m.drop 6) >>> 4 &&& 0x3ffffff).toNat < 2 ^ 32
  l3 : h.l3.toNat + (u32 (m.drop 9) >>> 6 &&& 0x3ffffff).toNat < 2 ^ 32
  l4 : h.l4.toNat + (u32 (m.drop 12) >>> 8 ||| hibit).toNat < 2 ^ 32

section AddBlock

variable {hibit : BitVec 32} {h : Limbs26} {m : List Byte} (hb : hibit = 0 ∨ hibit = 1#32 <<< 24)
    (hh : Settled h)
  (hm : m.length = 16)

include hb hh hm

theorem addBlock_spec : SumsFit hibit h m ∧ (addBlock hibit h m).Below (2 ^ 27 + 63) ∧
    (addBlock hibit h m).value = h.value + value m + 2 ^ 104 * hibit.toNat := by
  have hlt := Limbs.value_lt m
  rw [hm] at hlt
  have hbit : hibit.toNat ≤ 2 ^ 24 := by obtain rfl | rfl := hb <;> decide
  obtain ⟨h0, h1, h2, h3, h4⟩ := hh
  obtain ⟨e0, e1, e2, e3, e4⟩ := toNat_limbs hm hb
  have hfit : SumsFit hibit h m :=
    ⟨by rw [e0]; omega, by rw [e1]; omega, by rw [e2]; omega, by rw [e3]; omega, by rw [e4]; omega⟩
  have a0 := (toNat_add_exact hfit.l0).trans (congrArg _ e0)
  have a1 := (toNat_add_exact hfit.l1).trans (congrArg _ e1)
  have a2 := (toNat_add_exact hfit.l2).trans (congrArg _ e2)
  have a3 := (toNat_add_exact hfit.l3).trans (congrArg _ e3)
  have a4 := (toNat_add_exact hfit.l4).trans (congrArg _ e4)
  refine ⟨hfit, ⟨?_, ?_, ?_, ?_, ?_⟩, ?_⟩
  · rw [addBlock, a0]; omega
  · rw [addBlock, a1]; omega
  · rw [addBlock, a2]; omega
  · rw [addBlock, a3]; omega
  · rw [addBlock, a4]; omega
  · simp only [Limbs26.value, addBlock, a0, a1, a2, a3, a4]
    omega

end AddBlock

/-! The product. -/

theorem toNat_mul64 (a b : BitVec 32) : (mul64 a b).toNat = a.toNat * b.toNat := by
  have ha := a.isLt
  have hb := b.isLt
  have hab : a.toNat * b.toNat < 2 ^ 32 * 2 ^ 32 := mul_lt_mul'' ha hb
  rw [mul64, toNat_mul, toNat_setWidth_of_le (by decide), toNat_setWidth_of_le (by decide),
    mod_eq_of_lt (by omega)]

theorem toNat_column {a : Limbs26} (b : Limbs26) {x y : Nat} (hxy : 5 * (x * y) < 2 ^ 64)
    (ha : a.Below x) (hb : b.Below y) :
    (mul64 a.l0 b.l0 + mul64 a.l1 b.l1 + mul64 a.l2 b.l2 + mul64 a.l3 b.l3 +
    mul64 a.l4 b.l4).toNat =
      a.l0.toNat * b.l0.toNat + a.l1.toNat * b.l1.toNat + a.l2.toNat * b.l2.toNat + a.l3.toNat *
        b.l3.toNat +
        a.l4.toNat * b.l4.toNat ∧
    a.l0.toNat * b.l0.toNat + a.l1.toNat * b.l1.toNat + a.l2.toNat * b.l2.toNat + a.l3.toNat *
    b.l3.toNat +
        a.l4.toNat * b.l4.toNat ≤ 5 * (x * y) := by
  have m0 := mul_le_mul ha.l0 hb.l0
  have m1 := mul_le_mul ha.l1 hb.l1
  have m2 := mul_le_mul ha.l2 hb.l2
  have m3 := mul_le_mul ha.l3 hb.l3
  have m4 := mul_le_mul ha.l4 hb.l4
  simp only [toNat_add, toNat_mul64]
  omega

structure ProductsFit (r h : Limbs26) : Prop where
  s1 : r.l1.toNat * 5 < 2 ^ 32
  s2 : r.l2.toNat * 5 < 2 ^ 32
  s3 : r.l3.toNat * 5 < 2 ^ 32
  s4 : r.l4.toNat * 5 < 2 ^ 32
  d0 : h.l0.toNat * r.l0.toNat + h.l1.toNat * (r.l4.toNat * 5) + h.l2.toNat * (r.l3.toNat * 5) +
    h.l3.toNat * (r.l2.toNat * 5) + h.l4.toNat * (r.l1.toNat * 5) < 2 ^ 64
  d1 : h.l0.toNat * r.l1.toNat + h.l1.toNat * r.l0.toNat + h.l2.toNat * (r.l4.toNat * 5) +
    h.l3.toNat * (r.l3.toNat * 5) + h.l4.toNat * (r.l2.toNat * 5) < 2 ^ 64
  d2 : h.l0.toNat * r.l2.toNat + h.l1.toNat * r.l1.toNat + h.l2.toNat * r.l0.toNat +
    h.l3.toNat * (r.l4.toNat * 5) + h.l4.toNat * (r.l3.toNat * 5) < 2 ^ 64
  d3 : h.l0.toNat * r.l3.toNat + h.l1.toNat * r.l2.toNat + h.l2.toNat * r.l1.toNat +
    h.l3.toNat * r.l0.toNat + h.l4.toNat * (r.l4.toNat * 5) < 2 ^ 64
  d4 : h.l0.toNat * r.l4.toNat + h.l1.toNat * r.l3.toNat + h.l2.toNat * r.l2.toNat +
    h.l3.toNat * r.l1.toNat + h.l4.toNat * r.l0.toNat < 2 ^ 64

structure Limbs64.Small (d : Limbs64) : Prop where
  d0 : d.d0.toNat ≤ 5 * ((2 ^ 27 + 63) * (2 ^ 26 * 5))
  d1 : d.d1.toNat ≤ 5 * ((2 ^ 27 + 63) * (2 ^ 26 * 5))
  d2 : d.d2.toNat ≤ 5 * ((2 ^ 27 + 63) * (2 ^ 26 * 5))
  d3 : d.d3.toNat ≤ 5 * ((2 ^ 27 + 63) * (2 ^ 26 * 5))
  d4 : d.d4.toNat ≤ 5 * ((2 ^ 27 + 63) * 2 ^ 26)

theorem schoolbook (a0 a1 a2 a3 a4 b0 b1 b2 b3 b4 : Nat) :
    (a0 + 2 ^ 26 * a1 + 2 ^ 52 * a2 + 2 ^ 78 * a3 + 2 ^ 104 * a4) *
        (b0 + 2 ^ 26 * b1 + 2 ^ 52 * b2 + 2 ^ 78 * b3 + 2 ^ 104 * b4) ≡
      (a0 * b0 + a1 * (b4 * 5) + a2 * (b3 * 5) + a3 * (b2 * 5) + a4 * (b1 * 5)) +
        2 ^ 26 * (a0 * b1 + a1 * b0 + a2 * (b4 * 5) + a3 * (b3 * 5) + a4 * (b2 * 5)) +
        2 ^ 52 * (a0 * b2 + a1 * b1 + a2 * b0 + a3 * (b4 * 5) + a4 * (b3 * 5)) +
        2 ^ 78 * (a0 * b3 + a1 * b2 + a2 * b1 + a3 * b0 + a4 * (b4 * 5)) +
        2 ^ 104 * (a0 * b4 + a1 * b3 + a2 * b2 + a3 * b1 + a4 * b0) [MOD p] := by
  set rest := (a1 * b4 + a2 * b3 + a3 * b2 + a4 * b1) + 2 ^ 26 * (a2 * b4 + a3 * b3 + a4 * b2) +
    2 ^ 52 * (a3 * b4 + a4 * b3) + 2 ^ 78 * (a4 * b4) with hrest
  refine Eq.trans (congrArg (· % p) ?_) (add_mul_mod_self_left _ p rest)
  rw [hrest, p_eq]
  ring

/-- No product overflows, and their sum is that of the numbers modulo `p`. -/
theorem products_spec (hr : r.Below (2 ^ 26)) (hh : h.Below (2 ^ 27 + 63)) :
    ProductsFit r h ∧ (products r h).Small ∧ h.value * r.value ≡ (products r h).value [MOD p] := by
  obtain ⟨r0, r1, r2, r3, r4⟩ := hr
  have s1 : r.l1.toNat * 5 < 2 ^ 32 := by omega
  have s2 : r.l2.toNat * 5 < 2 ^ 32 := by omega
  have s3 : r.l3.toNat * 5 < 2 ^ 32 := by omega
  have s4 : r.l4.toNat * 5 < 2 ^ 32 := by omega
  have e1 := toNat_mul_five s1
  have e2 := toNat_mul_five s2
  have e3 := toNat_mul_five s3
  have e4 := toNat_mul_five s4
  have plain {x : BitVec 32} (hx : x.toNat ≤ 2 ^ 26) : x.toNat ≤ 2 ^ 26 * 5 := by omega
  have five {x : BitVec 32} (hx : x.toNat ≤ 2 ^ 26) (he : (x * 5).toNat = x.toNat * 5) :
    (x * 5).toNat ≤ 2 ^ 26 * 5 :=
    he ▸ mul_le_mul_right 5 hx
  obtain ⟨c0, b0⟩ := toNat_column ⟨r.l0, r.l4 * 5, r.l3 * 5, r.l2 * 5, r.l1 * 5⟩ (y :=
    2 ^ 26 * 5) (by norm_num) hh
    ⟨plain r0, five r4 e4, five r3 e3, five r2 e2, five r1 e1⟩
  obtain ⟨c1, b1⟩ := toNat_column ⟨r.l1, r.l0, r.l4 * 5, r.l3 * 5, r.l2 * 5⟩ (y :=
    2 ^ 26 * 5) (by norm_num) hh
    ⟨plain r1, plain r0, five r4 e4, five r3 e3, five r2 e2⟩
  obtain ⟨c2, b2⟩ := toNat_column ⟨r.l2, r.l1, r.l0, r.l4 * 5, r.l3 * 5⟩ (y :=
    2 ^ 26 * 5) (by norm_num) hh
    ⟨plain r2, plain r1, plain r0, five r4 e4, five r3 e3⟩
  obtain ⟨c3, b3⟩ := toNat_column ⟨r.l3, r.l2, r.l1, r.l0, r.l4 * 5⟩ (y :=
    2 ^ 26 * 5) (by norm_num) hh
    ⟨plain r3, plain r2, plain r1, plain r0, five r4 e4⟩
  obtain ⟨c4, b4⟩ := toNat_column ⟨r.l4, r.l3, r.l2, r.l1, r.l0⟩ (y := 2 ^ 26) (by norm_num) hh
    ⟨r4, r3, r2, r1, r0⟩
  have hsmall : (products r h).Small := ⟨c0 ▸ b0, c1 ▸ b1, c2 ▸ b2, c3 ▸ b3, c4 ▸ b4⟩
  dsimp only at c0 b0 c1 b1 c2 b2 c3 b3 c4 b4
  rw [e1, e2, e3, e4] at c0 b0
  rw [e2, e3, e4] at c1 b1
  rw [e3, e4] at c2 b2
  rw [e4] at c3 b3
  refine ⟨⟨s1, s2, s3, s4, by omega, by omega, by omega, by omega, by omega⟩, hsmall, ?_⟩
  rw [Limbs64.value, products, c0, c1, c2, c3, c4]
  exact schoolbook ..

/-! The carries. -/

theorem toNat_carryOf {d : BitVec 64} (h : d.toNat / 2 ^ 26 < 2 ^ 32) :
    (carryOf d).toNat = d.toNat / 2 ^ 26 := by
  rw [carryOf, toNat_setWidth, toNat_shr, mod_eq_of_lt h]

theorem toNat_low26 (d : BitVec 64) : (low26 d).toNat = d.toNat % 2 ^ 26 := by
  rw [low26, toNat_mask _ _ rfl, toNat_setWidth, mod_mod_of_dvd _ (by decide)]

theorem toNat_withCarry {d : BitVec 64} {c : BitVec 32} (h : d.toNat + c.toNat < 2 ^ 64) :
    (withCarry d c).toNat = d.toNat + c.toNat := by
  have hc : (c.setWidth 64).toNat = c.toNat := toNat_setWidth_of_le (by decide)
  rw [withCarry, toNat_add_exact (by rwa [hc]), hc]

structure CarriesFit (d : Limbs64) : Prop where
  c0 : (carried d).d0.toNat / 2 ^ 26 < 2 ^ 32
  d1 : d.d1.toNat + (carryOf (carried d).d0).toNat < 2 ^ 64
  c1 : (carried d).d1.toNat / 2 ^ 26 < 2 ^ 32
  d2 : d.d2.toNat + (carryOf (carried d).d1).toNat < 2 ^ 64
  c2 : (carried d).d2.toNat / 2 ^ 26 < 2 ^ 32
  d3 : d.d3.toNat + (carryOf (carried d).d2).toNat < 2 ^ 64
  c3 : (carried d).d3.toNat / 2 ^ 26 < 2 ^ 32
  d4 : d.d4.toNat + (carryOf (carried d).d3).toNat < 2 ^ 64
  c4 : (carried d).d4.toNat / 2 ^ 26 < 2 ^ 32

/-- Carrying keeps the value. -/
theorem carried_spec (h : d.Small) :
    CarriesFit d ∧ (carried d).d4.toNat / 2 ^ 26 < 2 ^ 29 + 2 ^ 28 ∧
    d.value = ((carried d).d0.toNat % 2 ^ 26) + 2 ^ 26 * ((carried d).d1.toNat % 2 ^ 26) +
      2 ^ 52 * ((carried d).d2.toNat % 2 ^ 26) + 2 ^ 78 * ((carried d).d3.toNat % 2 ^ 26) +
      2 ^ 104 * (carried d).d4.toNat := by
  obtain ⟨h0, h1, h2, h3, h4⟩ := h
  have e0 : (carried d).d0.toNat = d.d0.toNat := rfl
  have c0 : (carried d).d0.toNat / 2 ^ 26 < 2 ^ 32 := by omega
  have k0 := toNat_carryOf c0
  have f1 : d.d1.toNat + (carryOf (carried d).d0).toNat < 2 ^ 64 := by omega
  have e1 : (carried d).d1.toNat = d.d1.toNat + (carryOf (carried d).d0).toNat := toNat_withCarry f1
  have c1 : (carried d).d1.toNat / 2 ^ 26 < 2 ^ 32 := by omega
  have k1 := toNat_carryOf c1
  have f2 : d.d2.toNat + (carryOf (carried d).d1).toNat < 2 ^ 64 := by omega
  have e2 : (carried d).d2.toNat = d.d2.toNat + (carryOf (carried d).d1).toNat := toNat_withCarry f2
  have c2 : (carried d).d2.toNat / 2 ^ 26 < 2 ^ 32 := by omega
  have k2 := toNat_carryOf c2
  have f3 : d.d3.toNat + (carryOf (carried d).d2).toNat < 2 ^ 64 := by omega
  have e3 : (carried d).d3.toNat = d.d3.toNat + (carryOf (carried d).d2).toNat := toNat_withCarry f3
  have c3 : (carried d).d3.toNat / 2 ^ 26 < 2 ^ 32 := by omega
  have k3 := toNat_carryOf c3
  have f4 : d.d4.toNat + (carryOf (carried d).d3).toNat < 2 ^ 64 := by omega
  have e4 : (carried d).d4.toNat = d.d4.toNat + (carryOf (carried d).d3).toNat := toNat_withCarry f4
  refine ⟨⟨c0, f1, c1, f2, c2, f3, c3, f4, by omega⟩, by omega, ?_⟩
  rw [Limbs64.value]
  omega

structure ReduceFits (d : Limbs64) : Prop where
  five : (carryOf d.d4).toNat * 5 < 2 ^ 32
  h0 : (low26 d.d0).toNat + (carryOf d.d4).toNat * 5 < 2 ^ 32
  h1 : (low26 d.d1).toNat + (low26 d.d0 + carryOf d.d4 * 5).toNat / 2 ^ 26 < 2 ^ 32

/-- The last carry takes multiples of `p` away and leaves settled limbs. -/
theorem reduceOnce_spec (h : d.d4.toNat / 2 ^ 26 < 2 ^ 29 + 2 ^ 28) :
    ReduceFits d ∧ Settled (reduceOnce d) ∧
      (reduceOnce d).value + p * (d.d4.toNat / 2 ^ 26) = (d.d0.toNat % 2 ^ 26) + 2 ^ 26 *
      (d.d1.toNat % 2 ^ 26) +
        2 ^ 52 * (d.d2.toNat % 2 ^ 26) + 2 ^ 78 * (d.d3.toNat % 2 ^ 26) + 2 ^ 104 * d.d4.toNat := by
  have k4 := toNat_carryOf (d := d.d4) (by omega)
  have five : (carryOf d.d4).toNat * 5 < 2 ^ 32 := by omega
  have w0 := toNat_low26 d.d0
  have w1 := toNat_low26 d.d1
  have w2 := toNat_low26 d.d2
  have w3 := toNat_low26 d.d3
  have w4 := toNat_low26 d.d4
  have fit0 : (low26 d.d0).toNat + (carryOf d.d4).toNat * 5 < 2 ^ 32 := by omega
  have e5 := toNat_mul_five five
  have e0 := toNat_add_exact (x := low26 d.d0) (y := carryOf d.d4 * 5) (by rwa [e5])
  generalize hb : low26 d.d0 + carryOf d.d4 * 5 = b at e0
  have fit1 : (low26 d.d1).toNat + b.toNat / 2 ^ 26 < 2 ^ 32 := by omega
  have l0 := toNat_mask b 0x3ffffff rfl
  have l1 := toNat_add_exact (x := low26 d.d1) (y := b >>> 26) (by rwa [toNat_shr])
  rw [toNat_shr] at l1
  have hred : reduceOnce d = ⟨b &&& 0x3ffffff, low26 d.d1 + b >>> 26, low26 d.d2, low26 d.d3,
      low26 d.d4⟩ := by
    simp only [reduceOnce, hb]
  rw [hred]
  refine ⟨⟨five, fit0, hb ▸ fit1⟩, ⟨?_, ?_, ?_, ?_, ?_⟩, ?_⟩
  · rw [l0]; omega
  · rw [l1]; omega
  · rw [w2]; omega
  · rw [w3]; omega
  · rw [w4]; omega
  · simp only [Limbs26.value, l0, l1, w2, w3, w4, p_eq]
    omega

/-! The block. -/

/-- No sum or product of the block leaves its word. -/
structure BlockFits (r : Limbs26) (hibit : BitVec 32) (h : Limbs26) (m : List Byte) : Prop where
  sums : SumsFit hibit h m
  prods : ProductsFit r (addBlock hibit h m)
  carries : CarriesFit (products r (addBlock hibit h m))
  reduce : ReduceFits (carried (products r (addBlock hibit h m)))

theorem poly1305Block_spec {hibit : BitVec 32} (hr : r.Below (2 ^ 26)) (hh : Settled h)
    (hb : hibit = 0 ∨ hibit = 1#32 <<< 24) (hm : m.length = 16) :
    BlockFits r hibit h m ∧ Settled (poly1305Block r hibit h m) ∧
      (poly1305Block r hibit h m).value ≡ (h.value + value m + 2 ^ 104 * hibit.toNat) *
      r.value [MOD p] := by
  obtain ⟨hs, hbelow, hadd⟩ := addBlock_spec hb hh hm
  obtain ⟨hp, hsmall, hmul⟩ := products_spec hr hbelow
  obtain ⟨hc, htop, hchain⟩ := carried_spec hsmall
  obtain ⟨hf, hset, hval⟩ := reduceOnce_spec htop
  refine ⟨⟨hs, hp, hc, hf⟩, hset, ?_⟩
  rw [← hadd]
  refine Nat.ModEq.trans ?_ hmul.symm
  rw [hchain, ← hval]
  exact (add_mul_mod_self_left _ _ _).symm

end Cervus.Poly1305
