import Cervus.Crypto.P256
import Cervus.Crypto.RsaCorrect
import Mathlib.FieldTheory.Finite.Basic

/-! What the arithmetic of `p256.c` computes: numbers below a prime modulus in Montgomery form
stand for the elements of its field. -/

namespace Cervus.P256

open List Limbs
open Limbs (beValue)

theorem F256.value_lt (a : F256) : a.value < 2 ^ 256 := by
  have h := Limbs.value_lt a.1
  rwa [a.2] at h

/-! Bytes and words. -/

theorem toNat_shiftIn (v : Word) (x : Byte) :
    (v <<< 8 ||| x.setWidth 64).toNat = (2 ^ 8 * v.toNat + x.toNat) % 2 ^ 64 := by
  have hand : v <<< 8 &&& x.setWidth 64 = 0#64 := by
    ext i hi
    by_cases h8 : i < 8
    · simp [h8]
    · simp [BitVec.getLsbD_of_ge x i (by omega)]
  rw [← BitVec.add_eq_or_of_and_eq_zero _ _ hand, BitVec.toNat_add, BitVec.toNat_shiftLeft,
    BitVec.toNat_setWidth,
    Nat.shiftLeft_eq]
  omega

theorem beValue_append_list (a b : List Byte) :
    beValue (a ++ b) = 2 ^ (8 * b.length) * beValue a + beValue b := by
  rw [beValue, reverse_append, value_append, length_reverse, add_comm]
  rfl

theorem toNat_beWord (b : List Byte) : (beWord b).toNat = beValue (b.take 8) := by
  have hfold : ∀ l : List Byte, (l.foldl (fun (v : Word) x => v <<< 8 ||| x.setWidth 64) 0).toNat =
      beValue l % 2 ^ 64 := by
    intro l
    induction l using List.reverseRecOn with
    | nil => rfl
    | append_singleton l x ih =>
      rw [foldl_append, foldl_cons, foldl_nil, toNat_shiftIn, ih, beValue_append, Nat.add_mod,
        Nat.mul_mod_mod, ← Nat.add_mod]
  have hlt := beValue_lt (b.take 8)
  have hle : 2 ^ (8 * (b.take 8).length) ≤ 2 ^ 64 :=
    Nat.pow_le_pow_right (by decide) (by simp; omega)
  rw [beWord, hfold, Nat.mod_eq_of_lt (by omega)]

theorem value_beToLimbs {b : List Byte} (hb : b.length = 32) : (beToLimbs b).value = beValue b := by
  have hsplit :
      b = b.take 8 ++ ((b.drop 8).take 8 ++ ((b.drop 16).take 8 ++ (b.drop 24).take 8)) := by
    have h24 : (b.drop 24).take 8 = b.drop 24 := take_of_length_le (by simp [hb])
    have h16 : b.drop 24 = (b.drop 16).drop 8 := by rw [drop_drop]
    have h8 : b.drop 16 = (b.drop 8).drop 8 := by rw [drop_drop]
    rw [h24, h16, take_append_drop, h8, take_append_drop, take_append_drop]
  have hval : (beToLimbs b).value = beValue ((b.drop 24).take 8) + 2 ^ 64 *
    (beValue ((b.drop 16).take 8) +
      2 ^ 64 * (beValue ((b.drop 8).take 8) + 2 ^ 64 * beValue (b.take 8))) := by
    simp [F256.value, beToLimbs, toNat_beWord]
  rw [hval]
  conv_rhs => rw [hsplit, beValue_append_list, beValue_append_list, beValue_append_list]
  simp only [length_append, length_take, length_drop, hb]
  norm_num
  ring

theorem value_limbsToBe (a : F256) : beValue (limbsToBe a) = a.value := by
  have hword : ∀ v : Word, beValue ([56, 48, 40, 32, 24, 16, 8, 0].map fun k =>
      (v >>> k).setWidth 8) = v.toNat := by
    intro v
    have hv := v.isLt
    simp only [beValue, map_cons, map_nil, reverse_cons, reverse_nil, nil_append,
      cons_append, value_cons, value_nil, BitVec.toNat_setWidth, BitVec.toNat_ushiftRight,
      Nat.shiftRight_eq_div_pow]
    omega
  have hlist : ∀ l : List Word, beValue (l.reverse.flatMap fun v =>
    [56, 48, 40, 32, 24, 16, 8, 0].map fun k =>
      (v >>> k).setWidth 8) = Limbs.value l := by
    intro l
    induction l with
    | nil => rfl
    | cons v l ih =>
      rw [reverse_cons, flatMap_append, beValue_append_list, ih, flatMap_singleton, hword,
        value_cons, add_comm]
      rfl
  exact hlist a.1

theorem testBit_value (a : F256) (i : Nat) :
    (a.1.getD (i / 64) 0).getLsbD (i % 64) = a.value.testBit i :=
  Limbs.testBit_value (by decide) a.1 i

theorem bitsValue_scalarBits (k : F256) : Ladder.bitsValue (scalarBits k) = k.value := by
  have h : scalarBits k = Ladder.bits 256 k.value := by
    rw [scalarBits, Ladder.bits]
    simp only [testBit_value]
  rw [h, Ladder.bitsValue_bits, Nat.mod_eq_of_lt k.value_lt]

/-! Comparison, sums and differences. -/

theorem u256Cmp_eq (a b : F256) : u256Cmp a b = compare a.value b.value :=
  cmp_eq (a.2.trans b.2.symm)

theorem u256Cmp_lt {a b : F256} : u256Cmp a b = .lt ↔ a.value < b.value := by
  rw [u256Cmp_eq, Nat.compare_eq_lt]

theorem u256Iszero_iff {a : F256} : u256Iszero a = true ↔ a.value = 0 := by
  have hfold : ∀ l : List Word, l.foldr (· ||| ·) 0#64 = 0#64 ↔ ∀ d ∈ l, d = 0#64 := by
    intro l
    induction l with
    | nil => simp
    | cons d l ih => simp [ih, BitVec.or_eq_zero_iff]
  rw [F256.value, value_eq_zero, ← hfold, u256Iszero, beq_iff_eq]
  rfl

theorem u256Sub_cases (a b : F256) :
    (b.value ≤ a.value ∧ (u256Sub a b).1.value = a.value - b.value ∧ (u256Sub a b).2 = false) ∨
      (a.value < b.value ∧ (u256Sub a b).1.value = a.value + 2 ^ 256 - b.value ∧
      (u256Sub a b).2 = true) := by
  have h := Montgomery.value_sub_borrow (by decide) (a.2.trans b.2.symm)
  rw [a.2] at h
  exact h

theorem u256Add_value (a b : F256) :
    (u256Add a b).1.value + 2 ^ 256 * (u256Add a b).2.toNat = a.value + b.value := by
  have h := (value_add (by decide) (c := 0) (a.2.trans b.2.symm) (by decide)).1
  rw [a.2] at h
  exact h

theorem value_subIfOver {m t : F256} {c : BitVec (2 * 64)}
    (h : t.value + 2 ^ 256 * c.toNat < 2 * m.value) :
    (subIfOver m (c != 0) t).value = (t.value + 2 ^ 256 * c.toNat) % m.value := by
  have hl := t.2.trans m.2.symm
  have h' := Montgomery.value_reduce (by decide) hl (c := c.toNat) (by rw [m.2]; exact h)
  rw [m.2, ← Montgomery.bne_zero] at h'
  exact h'

theorem value_subIfOver_false {m t : F256} (h : t.value < 2 * m.value) :
    (subIfOver m false t).value = t.value % m.value :=
  value_subIfOver (c := 0) (by simpa using h)

/-! The field. -/

/-- The constants are those of the modulus `q`. -/
structure Mont.Ok (C : Mont) (q : Nat) : Prop where
  two_lt : 2 < q
  m : C.m.value = q
  n0 : 2 ^ 64 ∣ q * C.n0.toNat + 1
  r2 : C.r2.value = 2 ^ 512 % q

theorem value_doubled {m : F256} (hm : 1 < m.value) (k : Nat) :
    ((fun t => let s := u256Add t t; subIfOver m (s.2 != 0) s.1)^[k] one).value = 2 ^ k %
    m.value := by
  induction k with
  | zero => exact (Nat.mod_eq_of_lt hm).symm
  | succ k ih =>
    rw [Function.iterate_succ_apply']
    generalize (fun t => let s := u256Add t t; subIfOver m (s.2 != 0) s.1)^[k] one = t at ih ⊢
    have hsum := u256Add_value t t
    have hlt : t.value < m.value := by rw [ih]; exact Nat.mod_lt _ (by omega)
    rw [value_subIfOver (by omega), hsum, ih, ← Nat.add_mod, ← two_mul, ← Nat.pow_succ']

theorem montSetup_ok (mBe : List Byte) (hlen : mBe.length = 32) (h2 : 2 < beValue mBe)
    (h0 : 2 ^ 64 ∣ beValue mBe * (montSetup mBe).n0.toNat + 1) :
    (montSetup mBe).Ok (beValue mBe) where
  two_lt := h2
  m := value_beToLimbs hlen
  n0 := h0
  r2 := by
    have h := value_doubled (m := beToLimbs mBe) (by rw [value_beToLimbs hlen]; omega) 512
    rw [value_beToLimbs hlen] at h
    rw [montSetup]
    with_reducible exact h

/-- The number is the Montgomery form of the element `x` of the field. -/
structure Rep {q : Nat} (a : F256) (x : ZMod q) : Prop where
  lt : a.value < q
  eq : (a.value : ZMod q) = x * 2 ^ 256

section

variable {q : Nat} [Fact q.Prime] {C : Mont} (hC : C.Ok q)

include hC

theorem Mont.Ok.two_ne_zero : (2 : ZMod q) ≠ 0 := by
  have h : ¬q ∣ 2 := fun h => absurd (Nat.le_of_dvd (by decide) h) (by have := hC.two_lt; omega)
  rwa [Ne, show (2 : ZMod q) = (2 : Nat) by norm_cast, ZMod.natCast_eq_zero_iff]

variable {a b : F256} {x y : ZMod q}

theorem Mont.Ok.montMul (ha : a.value < q) (b : F256) :
    (montMul C a b).value < q ∧ (2 : ZMod q) ^ 256 * (montMul C a b).value = a.value * b.value := by
  have hpos : 0 < q := by omega
  have h0 : 2 ^ 64 ∣ Limbs.value C.m.1 * C.n0.toNat + 1 := by
    have h := hC.n0
    rwa [← hC.m] at h
  obtain ⟨hlt, hmod⟩ := Montgomery.mul_spec (by decide) C.m.ne_nil (a.2.trans C.m.2.symm) h0
    (ha.le.trans_eq hC.m.symm) (hpos.trans_eq hC.m.symm) (b.2.trans C.m.2.symm)
  rw [show Limbs.value C.m.1 = q from hC.m] at hlt hmod
  refine ⟨hlt, ?_⟩
  have hcast := (ZMod.natCast_eq_natCast_iff _ _ _).mpr hmod
  rw [C.m.2, Nat.cast_mul, Nat.cast_mul, Nat.cast_pow, Nat.cast_ofNat] at hcast
  exact hcast

theorem Rep.mul (ha : Rep a x) (hb : Rep b y) : Rep (montMul C a b) (x * y) := by
  obtain ⟨hlt, heq⟩ := hC.montMul ha.lt b
  refine ⟨hlt, mul_left_cancel₀ (pow_ne_zero 256 hC.two_ne_zero) ?_⟩
  rw [heq, ha.eq, hb.eq]
  ring

theorem rep_montTo (ha : a.value < q) : Rep (montTo C a) (a.value : ZMod q) := by
  obtain ⟨hlt, heq⟩ := hC.montMul ha C.r2
  refine ⟨hlt, mul_left_cancel₀ (pow_ne_zero 256 hC.two_ne_zero) ?_⟩
  rw [montTo, heq, hC.r2, ZMod.natCast_mod, Nat.cast_pow, Nat.cast_ofNat,
    show 512 = 256 + 256 from rfl, pow_add]
  exact mul_left_comm _ _ _

theorem Rep.montFrom (ha : Rep a x) : (montFrom C a).value = x.val := by
  obtain ⟨hlt, heq⟩ := hC.montMul ha.lt one
  have hone : one.value = 1 := rfl
  rw [ha.eq, hone, Nat.cast_one, mul_one, mul_comm x] at heq
  rw [← mul_left_cancel₀ (pow_ne_zero 256 hC.two_ne_zero) heq, ZMod.val_natCast]
  exact (Nat.mod_eq_of_lt hlt).symm

theorem Rep.add (ha : Rep a x) (hb : Rep b y) : Rep (fadd C a b) (x + y) := by
  have hsum := u256Add_value a b
  have hal := ha.lt
  have hbl := hb.lt
  have hval : (fadd C a b).value = (a.value + b.value) % q := by
    rw [fadd, value_subIfOver (by rw [hC.m]; omega), hsum, hC.m]
  refine ⟨by rw [hval]; exact Nat.mod_lt _ (by omega), ?_⟩
  rw [hval, ZMod.natCast_mod, Nat.cast_add, ha.eq, hb.eq]
  ring

theorem Rep.sub (ha : Rep a x) (hb : Rep b y) : Rep (fsub C a b) (x - y) := by
  have hal := ha.lt
  have hbl := hb.lt
  have hm := hC.m
  have hval : (fsub C a b).value < q ∧ ((fsub C a b).value = a.value - b.value ∧ b.value ≤ a.value ∨
      (fsub C a b).value + b.value = a.value + q) := by
    rw [fsub]
    obtain ⟨hle, hv, hc⟩ | ⟨hlt, hv, hc⟩ := u256Sub_cases a b
    · rw [hc, if_neg (by decide), hv]
      exact ⟨by omega, .inl ⟨rfl, hle⟩⟩
    · have hsum := u256Add_value (u256Sub a b).1 C.m
      have hlim := (u256Add (u256Sub a b).1 C.m).1.value_lt
      have hq := C.m.value_lt
      rw [hc, if_pos rfl]
      omega
  refine ⟨hval.1, ?_⟩
  obtain ⟨hv, hle⟩ | hv := hval.2
  · rw [hv, Nat.cast_sub hle, ha.eq, hb.eq]
    ring
  · have hcast := congrArg (Nat.cast : Nat → ZMod q) hv
    push_cast at hcast
    rw [ZMod.natCast_self, add_zero, ha.eq, hb.eq] at hcast
    linear_combination hcast

theorem rep_zero : Rep zero (0 : ZMod q) := by
  have h := hC.two_lt
  have hzero : zero.value = 0 := rfl
  exact ⟨by omega, by rw [hzero, Nat.cast_zero, zero_mul]⟩

theorem Rep.smallMul (ha : Rep a x) (k : Nat) : Rep (smallMul C a k) ((k : ZMod q) * x) := by
  induction k with
  | zero => simpa [P256.smallMul] using rep_zero hC
  | succ k ih =>
    rw [P256.smallMul, Function.iterate_succ_apply', Nat.cast_succ, add_one_mul]
    exact ih.add hC ha

theorem Rep.isZero (ha : Rep a x) : u256Iszero a = true ↔ x = 0 := by
  rw [u256Iszero_iff]
  constructor
  · intro h
    have heq := ha.eq
    rw [h, Nat.cast_zero] at heq
    exact (mul_eq_zero.mp heq.symm).resolve_right (pow_ne_zero 256 hC.two_ne_zero)
  · intro h
    have heq := ha.eq
    rw [h, zero_mul, ZMod.natCast_eq_zero_iff] at heq
    exact Nat.eq_zero_of_dvd_of_lt heq ha.lt

theorem Rep.inv (ha : Rep a x) : Rep (finv C a) x⁻¹ := by
  have h2 := hC.two_lt
  have hone : Rep (montTo C one) (1 : ZMod q) := by
    have h := rep_montTo hC (a := one) (show 1 < q by omega)
    rwa [show one.value = 1 from rfl, Nat.cast_one] at h
  have hexp : Ladder.bitsValue (Rsa.expBits (limbsToBe (u256Sub C.m two).1)) = q - 2 := by
    have htwo : two.value = 2 := rfl
    have hm := hC.m
    rw [Rsa.bitsValue_expBits, value_limbsToBe]
    obtain ⟨-, h, -⟩ | ⟨h, -, -⟩ := u256Sub_cases C.m two
    · rw [h, hm, htwo]
    · omega
  have hpow : Rep (finv C a) (x ^ (q - 2)) := by
    have h : Rep (finv C a) (x ^ Ladder.bitsValue (Rsa.expBits (limbsToBe (u256Sub C.m two).1))) :=
      Ladder.run_spec (Q := fun v r => Rep r (x ^ v)) (by rwa [pow_one])
        (fun v r _ hr => by rw [two_mul, pow_add]; exact hr.mul hC hr)
        (fun v r _ hr => by rw [pow_succ]; exact hr.mul hC ha) (by rwa [pow_zero]) _
    rwa [hexp] at h
  have hfermat : x ^ (q - 2) = x⁻¹ := by
    obtain rfl | hx := eq_or_ne x 0
    · rw [inv_zero, zero_pow (by omega)]
    · refine eq_inv_of_mul_eq_one_left ?_
      rw [← pow_succ, show q - 2 + 1 = q - 1 by omega, ZMod.pow_card_sub_one_eq_one hx]
  rwa [← hfermat]

end

end Cervus.P256
