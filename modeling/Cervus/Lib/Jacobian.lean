import Mathlib.AlgebraicGeometry.EllipticCurve.Affine.Point

/-! Points of the curves `y² = x³ - 3x + b` with a common denominator: the triple `(x, y, z)`
stands for the point with the coordinates `x / z²` and `y / z³`, and for the point at infinity
if `z = 0`. Doubling and addition of triples without division. -/

namespace Cervus.Jacobian

open WeierstrassCurve.Affine

variable {F : Type*} [Field F] [DecidableEq F] {b : F}

def curve (b : F) : WeierstrassCurve.Affine F := ⟨0, 0, 0, -3, b⟩

structure Triple (F : Type*) where
  x : F
  y : F
  z : F

def infinity : Triple F := ⟨0, 0, 0⟩

def double (P : Triple F) : Triple F :=
  if P.z = 0 then infinity
  else
    let δ := P.z * P.z
    let γ := P.y * P.y
    let β := P.x * γ
    let α := 3 * ((P.x - δ) * (P.x + δ))
    let x := α * α - 8 * β
    ⟨x, α * (4 * β - x) - 8 * (γ * γ), (P.y + P.z) * (P.y + P.z) - γ - δ⟩

def add (P Q : Triple F) : Triple F :=
  if P.z = 0 then Q
  else if Q.z = 0 then P
  else
    let u₁ := P.x * (Q.z * Q.z)
    let s₁ := P.y * Q.z * (Q.z * Q.z)
    let h := Q.x * (P.z * P.z) - u₁
    let r := Q.y * P.z * (P.z * P.z) - s₁
    if h = 0 then (if r = 0 then double P else infinity)
    else
      let i := 2 * h * (2 * h)
      let j := h * i
      let v := u₁ * i
      let x := 2 * r * (2 * r) - j - 2 * v
      ⟨x, 2 * r * (v - x) - 2 * (s₁ * j), ((P.z + Q.z) * (P.z + Q.z) - P.z * P.z - Q.z * Q.z) * h⟩

inductive Represents : Triple F → (curve b).Point → Prop
  | zero {P : Triple F} (hz : P.z = 0) : Represents P 0
  | some {P : Triple F} {x y : F} (h : (curve b).Nonsingular x y) (hz : P.z ≠ 0)
    (hx : P.x = x * P.z ^ 2)
    (hy : P.y = y * P.z ^ 3) : Represents P (.some x y h)

omit [DecidableEq F] in
theorem equation_iff_curve {x y : F} : (curve b).Equation x y ↔ y ^ 2 = x ^ 3 - 3 * x + b := by
  rw [equation_iff, curve]
  constructor <;> intro h <;> linear_combination h

omit [DecidableEq F] in
theorem negY_curve (x y : F) : (curve b).negY x y = -y := by
  simp [negY, curve]

omit [DecidableEq F] in
theorem addX_curve (x x' l : F) : (curve b).addX x x' l = l ^ 2 - x - x' := by
  simp [addX, curve]

omit [DecidableEq F] in
theorem addY_curve (x x' y l : F) : (curve b).addY x x' y l = -(l * (l ^ 2 - x - x' - x) + y) := by
  rw [addY, negY_curve, negAddY, addX_curve]

theorem Represents.double {P : Triple F} {A : (curve b).Point} (h : Represents P A) :
    Represents (Jacobian.double P) (A + A) := by
  cases h with
  | zero hz =>
    rw [Jacobian.double, if_pos hz, add_zero]
    exact .zero rfl
  | @some x y h hz hx hy =>
  rw [Jacobian.double, if_neg hz]
  dsimp only
  have hZ : (P.y + P.z) * (P.y + P.z) - P.y * P.y - P.z * P.z = 2 * y * P.z ^ 4 := by rw [hy]; ring
  rw [hZ, hx, hy]
  by_cases h2 : 2 * y = 0
  · -- the tangent is vertical
    have hneg : y = (curve b).negY x y := by rw [negY_curve]; linear_combination h2
    rw [Point.add_self_of_Y_eq hneg]
    exact .zero (by rw [h2, zero_mul])
  have hneg : y ≠ (curve b).negY x y := by
    rw [negY_curve]
    exact fun h => h2 (by linear_combination h)
  have hslope : (curve b).slope x x y y * (2 * y) = 3 * x ^ 2 - 3 := by
    rw [slope_of_Y_ne rfl hneg, negY_curve, curve, sub_neg_eq_add, ← two_mul, div_mul_cancel₀ _ h2]
    ring
  rw [Point.add_self_of_Y_ne hneg]
  refine .some _ (mul_ne_zero h2 (pow_ne_zero 4 hz)) ?_ ?_
  · rw [addX_curve]
    generalize (curve b).slope x x y y = l at hslope ⊢
    linear_combination (-P.z ^ 8 * (l * (2 * y) + (3 * x ^ 2 - 3))) * hslope
  · rw [addY_curve]
    generalize (curve b).slope x x y y = l at hslope ⊢
    linear_combination P.z ^ 12 * ((l * (2 * y)) ^ 2 + l * (2 * y) * (3 * x ^ 2 - 3) +
      (3 * x ^ 2 - 3) ^ 2 -
      12 * x * y ^ 2) * hslope

theorem Represents.add (h2 : (2 : F) ≠ 0) {P Q : Triple F} {A B : (curve b).Point}
    (hP : Represents P A) (hQ : Represents Q B) :
    Represents (Jacobian.add P Q) (A + B) := by
  cases hP with
  | zero hz =>
    rw [Jacobian.add, if_pos hz, zero_add]
    exact hQ
  | @some x y h hz hx hy =>
  cases hQ with
  | zero hz' =>
    rw [Jacobian.add, if_neg hz, if_pos hz', add_zero]
    exact .some h hz hx hy
  | @some x' y' h' hz' hx' hy' =>
  have hZ : P.z * Q.z ≠ 0 := mul_ne_zero hz hz'
  have hh : Q.x * (P.z * P.z) - P.x * (Q.z * Q.z) = (x' - x) * (P.z * Q.z) ^ 2 := by
    rw [hx, hx']; ring
  have hr : Q.y * P.z * (P.z * P.z) - P.y * Q.z * (Q.z * Q.z) = (y' - y) * (P.z * Q.z) ^ 3 := by
    rw [hy, hy']; ring
  rw [Jacobian.add, if_neg hz, if_neg hz']
  dsimp only
  rw [hh, hr]
  by_cases hxx : x = x'
  · subst hxx
    rw [sub_self, zero_mul, if_pos rfl]
    by_cases hyy : y = y'
    · subst hyy
      rw [sub_self, zero_mul, if_pos rfl]
      exact (Represents.some h hz hx hy).double
    · -- on one vertical line, and not the same
      rw [if_neg (mul_ne_zero (sub_ne_zero.mpr (Ne.symm hyy)) (pow_ne_zero 3 hZ)),
        Point.add_of_Y_eq rfl ((Y_eq_of_X_eq h.1 h'.1 rfl).resolve_left hyy)]
      exact .zero rfl
  · have hD : x' - x ≠ 0 := sub_ne_zero.mpr (Ne.symm hxx)
    have hslope : (curve b).slope x x' y y' * (x' - x) = y' - y := by
      rw [slope_of_X_ne hxx, ← neg_sub x' x, ← neg_sub y' y, neg_div_neg_eq, div_mul_cancel₀ _ hD]
    rw [if_neg (mul_ne_zero hD (pow_ne_zero 2 hZ)), Point.add_of_X_ne hxx]
    refine .some _ ?_ ?_ ?_
    · have hzz : (P.z + Q.z) * (P.z + Q.z) - P.z * P.z - Q.z * Q.z = 2 * (P.z * Q.z) := by ring
      rw [hzz]
      exact mul_ne_zero (mul_ne_zero h2 hZ) (mul_ne_zero hD (pow_ne_zero 2 hZ))
    · rw [addX_curve]
      generalize (curve b).slope x x' y y' = l at hslope ⊢
      rw [← hslope, hx]
      ring
    · rw [addY_curve]
      generalize (curve b).slope x x' y y' = l at hslope ⊢
      rw [← hslope, hx, hy]
      ring

end Cervus.Jacobian
