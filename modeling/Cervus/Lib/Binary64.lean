import Mathlib.Data.Int.Log
import Mathlib.Data.Rat.Floor

/-! Binary floating point numbers of 53 bits, by their values. -/

namespace Cervus

/-- The two zeros are one value. -/
inductive Binary64 where
  | finite (q : ℚ)
  | inf (neg : Bool)
  | nan
  deriving DecidableEq

namespace Binary64

def halfEven (q : ℚ) : ℤ :=
  if Int.fract q < 1 / 2 ∨ Int.fract q = 1 / 2 ∧ ⌊q⌋ % 2 = 0 then ⌊q⌋ else ⌊q⌋ + 1

def ulp (q : ℚ) : ℤ := max (Int.log 2 q - 52) (-1074)

def round (q : ℚ) : Binary64 :=
  let r := halfEven (|q| / 2 ^ ulp |q|) * (2 : ℚ) ^ ulp |q|
  if 2 ^ 1024 ≤ r then .inf (decide (q < 0)) else .finite (if q < 0 then -r else r)

theorem halfEven_intCast (n : ℤ) : halfEven n = n := by
  rw [halfEven, if_pos (.inl (by rw [Int.fract_intCast]; norm_num)), Int.floor_intCast]

theorem ulp_natCast_le {n : ℕ} (h : n < 2 ^ 53) : ulp n ≤ 0 := by
  have hlog : Nat.log 2 n ≤ 52 := by
    rcases Nat.eq_zero_or_pos n with rfl | hn
    · rw [Nat.log_zero_right]
      omega
    · exact Nat.lt_succ_iff.mp ((Nat.log_lt_iff_lt_pow (by omega) hn.ne').mpr h)
  rw [ulp, Int.log_natCast]
  omega

theorem halfEven_scale {n : ℕ} {e : ℤ} (he : e ≤ 0) : halfEven (n / 2 ^ e) * (2 : ℚ) ^ e = n := by
  obtain ⟨k, rfl⟩ := Int.exists_eq_neg_ofNat he
  have hk : (2 : ℚ) ^ k ≠ 0 := by positivity
  have hint : (n : ℚ) / 2 ^ (-(k : ℤ)) = ((n * 2 ^ k : ℤ) : ℚ) := by
    rw [zpow_neg, zpow_natCast, div_inv_eq_mul]
    push_cast
    rfl
  rw [hint, halfEven_intCast, zpow_neg, zpow_natCast]
  push_cast
  rw [mul_assoc, mul_inv_cancel₀ hk, mul_one]

theorem round_intCast {n : ℤ} (h : n.natAbs < 2 ^ 53) : round n = .finite n := by
  have habs : |(n : ℚ)| = (n.natAbs : ℚ) := by rw [← Int.cast_abs, Int.abs_eq_natAbs]; rfl
  have hsmall : (n.natAbs : ℚ) < 2 ^ 1024 := by
    calc (n.natAbs : ℚ) < 2 ^ 53 := by exact_mod_cast h
      _ ≤ 2 ^ 1024 := pow_le_pow_right₀ (by norm_num) (by norm_num)
  rw [round]
  rw [habs, halfEven_scale (ulp_natCast_le h), if_neg (not_le.mpr hsmall)]
  split_ifs with hn
  · rw [← habs, abs_of_neg hn, neg_neg]
  · rw [← habs, abs_of_nonneg (not_lt.mp hn)]

end Binary64

end Cervus
