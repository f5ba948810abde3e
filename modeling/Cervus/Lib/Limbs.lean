import Mathlib.Data.Nat.Digits.Lemmas

/-! Numbers as lists of words, least significant first, and the loops over their words that
add, subtract, compare and multiply, with a word of twice the width for the intermediate
results. -/

namespace Cervus.Limbs

open List Nat

variable {w : Nat}

def value (l : List (BitVec w)) : Nat := Nat.ofDigits (2 ^ w) (l.map BitVec.toNat)

@[simp] theorem value_nil : value ([] : List (BitVec w)) = 0 := rfl

@[simp] theorem value_cons (d : BitVec w) (l : List (BitVec w)) :
    value (d :: l) = d.toNat + 2 ^ w * value l :=
  ofDigits_cons

theorem value_append (a b : List (BitVec w)) :
    value (a ++ b) = value a + 2 ^ (w * a.length) * value b := by
  rw [value, map_append, ofDigits_append, length_map, ← pow_mul]
  rfl

@[simp] theorem value_replicate (n : Nat) : value (List.replicate n 0#w) = 0 := by
  induction n with
  | zero => rfl
  | succ n ih => simp [replicate_succ, ih]

theorem value_lt (l : List (BitVec w)) : value l < 2 ^ (w * l.length) := by
  induction l with
  | nil => simp
  | cons d l ih =>
    have hd := d.isLt
    rw [value_cons, length_cons, mul_succ, add_comm (w * _), pow_add]
    nlinarith

variable {a b l r : List (BitVec w)} {c : BitVec (2 * w)}

theorem value_eq_zero : value l = 0 ↔ ∀ d ∈ l, d = 0#w := by
  induction l with
  | nil => simp
  | cons d l ih =>
    have hd : d.toNat = 0 ↔ d = 0#w := by simp [← BitVec.toNat_inj]
    simp [ih, hd]

theorem value_inj (hl : a.length = b.length) (h : value a = value b) : a = b := by
  induction a generalizing b with
  | nil => exact (length_eq_zero_iff.mp hl.symm).symm
  | cons x a ih =>
    obtain _ | ⟨y, b⟩ := b
    · cases hl
    · rw [value_cons, value_cons] at h
      have hx := x.isLt
      have hy := y.isLt
      have hmod := congrArg (· % 2 ^ w) h
      simp only [Nat.add_mul_mod_self_left, Nat.mod_eq_of_lt hx, Nat.mod_eq_of_lt hy] at hmod
      have hdiv : value a = value b := by
        have hw : 0 < 2 ^ w := Nat.two_pow_pos w
        exact Nat.eq_of_mul_eq_mul_left hw (by omega)
      rw [BitVec.toNat_inj.mp hmod, ih (by simpa using hl) hdiv]

theorem value_take_add_drop (k : Nat) (l : List (BitVec w)) (hk : k ≤ l.length) :
    value (l.take k) + 2 ^ (w * k) * value (l.drop k) = value l := by
  conv_rhs => rw [← take_append_drop k l, value_append, length_take_of_le hk]

theorem value_take {k : Nat} (hk : k ≤ l.length) : value (l.take k) = value l % 2 ^ (w * k) := by
  have hlt := value_lt (l.take k)
  rw [length_take_of_le hk] at hlt
  rw [← value_take_add_drop k l hk, add_mul_mod_self_left, mod_eq_of_lt hlt]

theorem testBit_value (hw : 0 < w) (l : List (BitVec w)) (i : Nat) :
    (l.getD (i / w) 0).getLsbD (i % w) = (value l).testBit i := by
  induction l generalizing i with
  | nil => simp
  | cons d l ih =>
    rw [value_cons, add_comm, testBit_two_pow_mul_add _ d.isLt]
    split_ifs with hi
    · rw [div_eq_of_lt hi, mod_eq_of_lt hi]
      rfl
    · rw [← ih, div_eq_sub_div hw (by omega), mod_eq_sub_mod (by omega)]
      rfl

/-- The number written by words, most significant first. -/
def beValue (b : List (BitVec w)) : Nat := value b.reverse

theorem beValue_append (b : List (BitVec w)) (x : BitVec w) :
    beValue (b ++ [x]) = 2 ^ w * beValue b + x.toNat := by
  simp [beValue, add_comm]

theorem beValue_lt (b : List (BitVec w)) : beValue b < 2 ^ (w * b.length) := by
  have h := value_lt b.reverse
  rwa [length_reverse] at h

/-! Comparison, from the most significant word on. -/

def cmp : List (BitVec w) → List (BitVec w) → Ordering
  | a :: as, b :: bs =>
    match cmp as bs with
    | .eq => compare a.toNat b.toNat
    | o => o
  | _, _ => .eq

theorem cmp_eq (hl : a.length = b.length) : cmp a b = compare (value a) (value b) := by
  induction a generalizing b with
  | nil =>
    obtain rfl := length_eq_zero_iff.mp hl.symm
    rfl
  | cons x a ih =>
    obtain _ | ⟨y, b⟩ := b
    · cases hl
    have hx := x.isLt
    have hy := y.isLt
    rw [cmp, ih (by simpa using hl), value_cons, value_cons]
    rcases lt_trichotomy (value a) (value b) with h | h | h
    · have : x.toNat + 2 ^ w * value a < y.toNat + 2 ^ w * value b := by nlinarith
      rw [Nat.compare_eq_lt.mpr h, Nat.compare_eq_lt.mpr this]
    · rw [h, Nat.compare_eq_eq.mpr rfl]
      rcases lt_trichotomy x.toNat y.toNat with h' | h' | h'
      · rw [Nat.compare_eq_lt.mpr h', Nat.compare_eq_lt.mpr (by omega)]
      · rw [h']
        simp
      · rw [Nat.compare_eq_gt.mpr h', Nat.compare_eq_gt.mpr (by omega)]
    · have : y.toNat + 2 ^ w * value b < x.toNat + 2 ^ w * value a := by nlinarith
      rw [Nat.compare_eq_gt.mpr h, Nat.compare_eq_gt.mpr this]

/-! Subtraction with a borrow. -/

def sub : Bool → List (BitVec w) → List (BitVec w) → List (BitVec w) × Bool
  | c, a :: as, b :: bs =>
    let t : BitVec (2 * w) := a.setWidth _ - b.setWidth _ - (BitVec.ofBool c).setWidth _
    let q := sub t.msb as bs
    (t.setWidth w :: q.1, q.2)
  | c, _, _ => ([], c)

theorem toNat_sub_wide {n : Nat} (x y : BitVec n) :
    (x - y).toNat = if y.toNat ≤ x.toNat then x.toNat - y.toNat else 2 ^ n + x.toNat - y.toNat := by
  split_ifs with h
  · exact BitVec.toNat_sub_of_le (BitVec.le_def.mpr h)
  · rw [BitVec.toNat_sub, mod_eq_of_lt (by omega)]
    omega

theorem two_words (hw : 0 < w) : 2 ^ w + 2 ^ w ≤ 2 ^ (2 * w) := by
  have hB : 2 ≤ 2 ^ w := by simpa using Nat.pow_le_pow_right (show 0 < 2 by omega) hw
  rw [two_mul w, pow_add]
  nlinarith

theorem sub_word (hw : 0 < w) (a b : BitVec w) (c : Bool) :
    ((a.setWidth (2 * w) - b.setWidth _ - (BitVec.ofBool c).setWidth _).setWidth w).toNat +
    b.toNat + c.toNat =
      a.toNat + 2 ^ w *
        (a.setWidth (2 * w) - b.setWidth _ - (BitVec.ofBool c).setWidth _).msb.toNat := by
  have hc : c.toNat ≤ 1 := Bool.toNat_le c
  have hB : 2 ≤ 2 ^ w := by simpa using Nat.pow_le_pow_right (show 0 < 2 by omega) hw
  have hsq : 2 ^ (2 * w) = 2 ^ w * 2 ^ w := by rw [two_mul, pow_add]
  have hhalf : 2 * 2 ^ (2 * w - 1) = 2 ^ (2 * w) := by rw [← Nat.pow_succ']; congr 1; omega
  have hge := two_words hw
  have hcn : ((BitVec.ofBool c).setWidth (2 * w)).toNat = c.toNat := by
    rw [BitVec.toNat_setWidth, BitVec.toNat_ofBool, Nat.mod_eq_of_lt (by omega)]
  have han : (a.setWidth (2 * w)).toNat = a.toNat := by
    rw [BitVec.toNat_setWidth, Nat.mod_eq_of_lt (by omega)]
  have hbn : (b.setWidth (2 * w)).toNat = b.toNat := by
    rw [BitVec.toNat_setWidth, Nat.mod_eq_of_lt (by omega)]
  generalize ht : a.setWidth (2 * w) - b.setWidth (2 * w) - (BitVec.ofBool c).setWidth (2 * w) = t
  have htn := congrArg BitVec.toNat ht
  rw [toNat_sub_wide, toNat_sub_wide, han, hbn, hcn] at htn
  rw [BitVec.toNat_setWidth, BitVec.msb_eq_decide]
  by_cases hle : b.toNat + c.toNat ≤ a.toNat
  · have h1 : t.toNat = a.toNat - b.toNat - c.toNat := by
      rw [← htn, if_pos (show b.toNat ≤ a.toNat by omega), if_pos (by omega)]
    rw [h1, Nat.mod_eq_of_lt (by omega), decide_eq_false (by omega)]
    simp
    omega
  · have h1 : t.toNat = 2 ^ w * (2 ^ w - 1) + (2 ^ w + a.toNat - b.toNat - c.toNat) := by
      rw [← htn, Nat.mul_sub, ← hsq]
      split_ifs <;> omega
    rw [decide_eq_true (by rw [h1, Nat.mul_sub, ← hsq]; omega), h1, Nat.mul_add_mod,
      Nat.mod_eq_of_lt (by omega)]
    simp
    omega

@[simp] theorem length_sub (c : Bool) (hl : a.length = b.length) :
    (sub c a b).1.length = a.length := by
  induction a generalizing b c with
  | nil =>
    obtain rfl := length_eq_zero_iff.mp hl.symm
    rfl
  | cons x a ih =>
    obtain _ | ⟨y, b⟩ := b
    · cases hl
    · simp [sub, ih _ (by simpa using hl)]

theorem value_sub (hw : 0 < w) (c : Bool) (hl : a.length = b.length) :
    value (sub c a b).1 + value b + c.toNat = value a + 2 ^ (w * a.length) *
      (sub c a b).2.toNat := by
  induction a generalizing b c with
  | nil =>
    obtain rfl := length_eq_zero_iff.mp hl.symm
    simp [sub]
  | cons x a ih =>
    obtain _ | ⟨y, b⟩ := b
    · cases hl
    · have hword := sub_word hw x y c
      simp only [sub, value_cons, length_cons, mul_succ, add_comm (w * _) w, pow_add]
      generalize x.setWidth (2 * w) - y.setWidth (2 * w) - (BitVec.ofBool c).setWidth (2 * w) = t
        at hword ⊢
      have htail := congrArg (2 ^ w * ·) (ih t.msb (by simpa using hl))
      linarith

/-! Addition and multiplication by a word, with a carry. -/

def add : BitVec (2 * w) → List (BitVec w) → List (BitVec w) → List (BitVec w) × BitVec (2 * w)
  | c, a :: as, b :: bs =>
    let t := a.setWidth _ + b.setWidth _ + c
    let q := add (t >>> w) as bs
    (t.setWidth w :: q.1, q.2)
  | c, _, _ => ([], c)

/-- Adds `x` times the second number to the third. -/
def mulAdd (x : BitVec w) :
    BitVec (2 * w) → List (BitVec w) → List (BitVec w) → List (BitVec w) × BitVec (2 * w)
  | c, b :: bs, r :: rs =>
    let t := x.setWidth _ * b.setWidth _ + r.setWidth _ + c
    let q := mulAdd x (t >>> w) bs rs
    (t.setWidth w :: q.1, q.2)
  | c, _, _ => ([], c)

theorem low_add_high (t : BitVec (2 * w)) :
    (t.setWidth w).toNat + 2 ^ w * (t >>> w).toNat = t.toNat := by
  rw [BitVec.toNat_setWidth, BitVec.toNat_ushiftRight, shiftRight_eq_div_pow]
  exact mod_add_div _ _

theorem high_lt (t : BitVec (2 * w)) : (t >>> w).toNat < 2 ^ w := by
  rw [BitVec.toNat_ushiftRight, Nat.shiftRight_eq_div_pow]
  refine Nat.div_lt_of_lt_mul ?_
  rw [← pow_add, ← two_mul]
  exact t.isLt

theorem toNat_wide (a : BitVec w) : (a.setWidth (2 * w)).toNat = a.toNat := by
  rw [BitVec.toNat_setWidth, Nat.mod_eq_of_lt
    (a.isLt.trans_le (Nat.pow_le_pow_right (by omega) (by omega)))]

theorem mulAdd_word (x b r : BitVec w) (hc : c.toNat < 2 ^ w) :
    (x.setWidth (2 * w) * b.setWidth _ + r.setWidth _ + c).toNat = x.toNat * b.toNat + r.toNat +
    c.toNat := by
  have hx := x.isLt
  have hb := b.isLt
  have hlt : x.toNat * b.toNat + r.toNat + c.toNat < 2 ^ (2 * w) := by
    have h := mul_le_mul (le_sub_one_of_lt hx) (le_sub_one_of_lt hb)
    have hsq : 2 ^ (2 * w) = (2 ^ w - 1) * (2 ^ w - 1) + (2 ^ w - 1) + (2 ^ w - 1) + 1 := by
      obtain ⟨B, hB⟩ : ∃ B, 2 ^ w = B + 1 := ⟨2 ^ w - 1, by omega⟩
      rw [two_mul, pow_add, hB, Nat.add_sub_cancel]
      ring
    omega
  have hmul : x.toNat * b.toNat < 2 ^ (2 * w) := by omega
  rw [BitVec.toNat_add, BitVec.toNat_add, BitVec.toNat_mul, toNat_wide, toNat_wide, toNat_wide,
    mod_eq_of_lt hmul, mod_add_mod, mod_eq_of_lt hlt]

theorem length_mulAdd (x : BitVec w) (c : BitVec (2 * w)) (hl : b.length = r.length) :
    (mulAdd x c b r).1.length = b.length := by
  induction b generalizing r c with
  | nil => rfl
  | cons y b ih =>
    obtain _ | ⟨z, r⟩ := r
    · cases hl
    · simp [mulAdd, ih _ (show b.length = r.length by simpa using hl)]

theorem value_mulAdd (x : BitVec w) (hl : b.length = r.length) (hc : c.toNat < 2 ^ w) :
    value (mulAdd x c b r).1 + 2 ^ (w * b.length) * (mulAdd x c b r).2.toNat = x.toNat * value b +
      value r + c.toNat ∧
      (mulAdd x c b r).2.toNat < 2 ^ w := by
  induction b generalizing r c with
  | nil =>
    obtain rfl := length_eq_zero_iff.mp hl.symm
    simp [mulAdd, hc]
  | cons y b ih =>
    obtain _ | ⟨z, r⟩ := r
    · cases hl
    · have hword := mulAdd_word x y z hc
      have hsplit := low_add_high (x.setWidth (2 * w) * y.setWidth _ + z.setWidth _ + c)
      obtain ⟨htail, hlt⟩ := ih (show b.length = r.length by simpa using hl)
        (high_lt (x.setWidth (2 * w) * y.setWidth _ + z.setWidth _ + c))
      refine ⟨?_, hlt⟩
      simp only [mulAdd, value_cons, length_cons, mul_succ, add_comm (w * _) w, pow_add]
      have htail := congrArg (2 ^ w * ·) htail
      linarith

theorem length_add (c : BitVec (2 * w)) (hl : a.length = b.length) :
    (add c a b).1.length = a.length := by
  induction a generalizing b c with
  | nil => rfl
  | cons x a ih =>
    obtain _ | ⟨y, b⟩ := b
    · cases hl
    · simp [add, ih _ (show a.length = b.length by simpa using hl)]

theorem add_word (hw : 0 < w) (x y : BitVec w) (hc : c.toNat ≤ 1) :
    (x.setWidth (2 * w) + y.setWidth _ + c).toNat = x.toNat + y.toNat + c.toNat := by
  have hge := two_words hw
  rw [BitVec.toNat_add, BitVec.toNat_add, toNat_wide, toNat_wide,
    mod_eq_of_lt (a := x.toNat + y.toNat) (by omega),
    mod_eq_of_lt (by omega)]

theorem value_add (hw : 0 < w) (hl : a.length = b.length) (hc : c.toNat ≤ 1) :
    value (add c a b).1 + 2 ^ (w * a.length) * (add c a b).2.toNat = value a + value b + c.toNat ∧
      (add c a b).2.toNat ≤ 1 := by
  induction a generalizing b c with
  | nil =>
    obtain rfl := length_eq_zero_iff.mp hl.symm
    simp [add, hc]
  | cons x a ih =>
    obtain _ | ⟨y, b⟩ := b
    · cases hl
    have hsplit := low_add_high (x.setWidth (2 * w) + y.setWidth _ + c)
    rw [add_word hw x y hc] at hsplit
    have hcarry : ((x.setWidth (2 * w) + y.setWidth _ + c) >>> w).toNat ≤ 1 := by
      have hx := x.isLt
      have hy := y.isLt
      by_contra hgt
      nlinarith
    obtain ⟨htail, hle⟩ := ih (show a.length = b.length by simpa using hl) hcarry
    refine ⟨?_, hle⟩
    simp only [add, value_cons, length_cons, mul_succ, add_comm (w * _) w, pow_add]
    have htail := congrArg (2 ^ w * ·) htail
    linarith

/-! Doubling. -/

def shl1 : Bool → List (BitVec w) → List (BitVec w)
  | _, [] => []
  | c, a :: as => (a <<< 1 ||| (BitVec.ofBool c).setWidth w) :: shl1 a.msb as

@[simp] theorem length_shl1 (c : Bool) (l : List (BitVec w)) : (shl1 c l).length = l.length := by
  induction l generalizing c with
  | nil => rfl
  | cons a l ih => simp [shl1, ih]

theorem shl1_word (hw : 0 < w) (a : BitVec w) (c : Bool) :
    (a <<< 1 ||| (BitVec.ofBool c).setWidth w).toNat + 2 ^ w * a.msb.toNat = 2 * a.toNat +
    c.toNat := by
  have heq : a <<< 1 ||| (BitVec.ofBool c).setWidth w = a.shiftConcat c := by
    ext i hi
    rw [BitVec.getElem_or, BitVec.getElem_shiftConcat, BitVec.getElem_shiftLeft,
      BitVec.getElem_setWidth]
    by_cases h0 : i = 0 <;> simp [h0]
  have hc : c.toNat ≤ 1 := Bool.toNat_le c
  have hhalf : 2 * 2 ^ (w - 1) = 2 ^ w := by rw [← pow_succ']; congr 1; omega
  rw [heq, BitVec.toNat_shiftConcat, shiftLeft_eq, pow_one, BitVec.msb_eq_decide]
  by_cases hm : 2 ^ (w - 1) ≤ a.toNat
  · rw [decide_eq_true hm, mod_eq_sub_mod (by omega), mod_eq_of_lt (by omega)]
    simp
    omega
  · rw [decide_eq_false hm, mod_eq_of_lt (by omega)]
    simp
    omega

theorem value_shl1_carry (hw : 0 < w) (c : Bool) (l : List (BitVec w)) :
    ∃ k, value (shl1 c l) + 2 ^ (w * l.length) * k = 2 * value l + c.toNat := by
  induction l generalizing c with
  | nil => exact ⟨c.toNat, by simp [shl1]⟩
  | cons a l ih =>
    obtain ⟨k, hk⟩ := ih a.msb
    have hword := shl1_word hw a c
    refine ⟨k, ?_⟩
    simp only [shl1, value_cons, length_cons, mul_succ, add_comm (w * _) w, pow_add]
    have htail := congrArg (2 ^ w * ·) hk
    linarith

theorem value_shl1 (hw : 0 < w) (c : Bool) (l : List (BitVec w)) :
    value (shl1 c l) = (2 * value l + c.toNat) % 2 ^ (w * l.length) := by
  obtain ⟨k, hk⟩ := value_shl1_carry hw c l
  have hlt := value_lt (shl1 c l)
  rw [length_shl1] at hlt
  rw [← hk, add_mul_mod_self_left, mod_eq_of_lt hlt]

end Cervus.Limbs
