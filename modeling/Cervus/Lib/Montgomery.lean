import Cervus.Lib.Limbs

/-! Arithmetic modulo a number of words: one subtraction brings a sum back below the modulus,
and Montgomery's product divides by one word with every word of the second factor. -/

namespace Cervus.Montgomery

open List Limbs Nat
open Limbs (value)

variable {w : Nat}

/-! Reduction of a number with a word above its words. -/

def reduce (m : List (BitVec w)) (carry : Bool) (t : List (BitVec w)) : List (BitVec w) :=
  if carry = true ∨ Limbs.cmp t m ≠ .lt then (sub false t m).1 else t

variable {a m t : List (BitVec w)}

theorem length_reduce (hl : t.length = m.length) (carry : Bool) :
    (reduce m carry t).length = m.length := by
  rw [reduce]
  split_ifs
  · rw [length_sub _ hl, hl]
  · exact hl

theorem value_sub_borrow (hw : 0 < w) {b : List (BitVec w)} (hl : a.length = b.length) :
    (value b ≤ value a ∧ value (sub false a b).1 = value a - value b ∧ (sub false a b).2 = false) ∨
      (value a < value b ∧ value (sub false a b).1 = value a + 2 ^ (w * a.length) - value b ∧
        (sub false a b).2 = true) := by
  have hs := value_sub hw false hl
  have hlt := Limbs.value_lt (sub false a b).1
  have hb := Limbs.value_lt b
  rw [length_sub _ hl] at hlt
  cases hc : (sub false a b).2 with
  | false =>
    rw [hc] at hs
    simp only [Bool.toNat_false, mul_zero, add_zero] at hs
    exact .inl ⟨by omega, by omega, rfl⟩
  | true =>
    rw [hc] at hs
    simp only [Bool.toNat_false, Bool.toNat_true, mul_one, add_zero] at hs
    exact .inr ⟨by omega, by omega, rfl⟩

theorem value_reduce (hw : 0 < w) (hl : t.length = m.length) {c : Nat}
    (h : value t + 2 ^ (w * m.length) * c < 2 * value m) :
    value (reduce m (decide (c ≠ 0)) t) = (value t + 2 ^ (w * m.length) * c) % value m := by
  have hm := Limbs.value_lt m
  have ht := Limbs.value_lt t
  have hsub := value_sub_borrow hw hl
  rw [hl] at ht hsub
  have hcmp : Limbs.cmp t m = .lt ↔ value t < value m := by rw [cmp_eq hl, Nat.compare_eq_lt]
  rw [reduce]
  obtain _ | _ | c := c
  · simp only [ne_eq, not_true_eq_false, decide_false, Bool.false_eq_true, false_or, mul_zero,
      add_zero,
      hcmp] at h ⊢
    split_ifs with hlt
    · rw [mod_eq_of_lt hlt]
    · rw [mod_eq_sub_mod (by omega), mod_eq_of_lt (by omega)]
      omega
  · simp only [zero_add, ne_eq, one_ne_zero, not_false_eq_true, decide_true, true_or, if_true,
      mul_one] at h ⊢
    rw [mod_eq_sub_mod (by omega), mod_eq_of_lt (by omega)]
    omega
  · simp only [mul_add, mul_one] at h
    omega

/-! One word of the second factor. -/

abbrev Acc (w : Nat) := List (BitVec w) × BitVec w

def total (t : Acc w) : Nat := value t.1 + 2 ^ (w * t.1.length) * t.2.toNat

/-- Adds `b` times `a`, then the multiple of `m` that clears the lowest word, and drops that
word. -/
def round (m : List (BitVec w)) (n0 : BitVec w) (a : List (BitVec w)) (t : Acc w) (b : BitVec w) :
    Acc w :=
  let q := mulAdd b 0 a t.1
  let s := t.2.setWidth _ + q.2
  let p := mulAdd (q.1.headD 0 * n0) 0 m q.1
  let s' := (s.setWidth w).setWidth _ + p.2
  (p.1.tail ++ [s'.setWidth w], (s >>> w).setWidth w + (s' >>> w).setWidth w)

def mul (m : List (BitVec w)) (n0 : BitVec w) (a b : List (BitVec w)) : List (BitVec w) :=
  let t := b.foldl (round m n0 a) (replicate m.length 0, 0)
  reduce m (t.2 != 0) t.1

theorem length_round (hm : m ≠ []) (ha : a.length = m.length) (n0 : BitVec w) {t : Acc w}
    (ht : t.1.length = m.length) (b : BitVec w) : (round m n0 a t b).1.length = m.length := by
  have hq := length_mulAdd b 0 (ha.trans ht.symm)
  have hp := length_mulAdd ((mulAdd b 0 a t.1).1.headD 0 * n0) 0 (ha.symm.trans hq.symm)
  have hpos := length_pos_iff.mpr hm
  rw [round, length_append, length_tail, hp, length_singleton]
  omega

theorem length_mul (hm : m ≠ []) (ha : a.length = m.length) (n0 : BitVec w)
    (b : List (BitVec w)) : (mul m n0 a b).length = m.length := by
  refine length_reduce ?_ _
  generalize hinit : (replicate m.length 0#w, 0#w) = t
  have ht : t.1.length = m.length := by rw [← hinit, length_replicate]
  clear hinit
  induction b generalizing t with
  | nil => exact ht
  | cons x b ih => exact ih _ (length_round hm ha n0 ht x)

theorem bne_zero (x : BitVec w) : (x != 0#w) = decide (x.toNat ≠ 0) := by
  rw [Bool.eq_iff_iff, bne_iff_ne, decide_eq_true_iff, Ne, Ne, ← BitVec.toNat_inj,
    BitVec.toNat_ofNat, zero_mod]

theorem wide_add (hw : 0 < w) {x : BitVec w} {c : BitVec (2 * w)} (hc : c.toNat < 2 ^ w) :
    (x.setWidth (2 * w) + c).toNat = x.toNat + c.toNat := by
  have hge := two_words hw
  rw [BitVec.toNat_add, toNat_wide, mod_eq_of_lt (by omega)]

theorem toNat_high (t : BitVec (2 * w)) : ((t >>> w).setWidth w).toNat = (t >>> w).toNat := by
  rw [BitVec.toNat_setWidth, mod_eq_of_lt (high_lt t)]

theorem clears {n0 : BitVec w} (h0 : 2 ^ w ∣ value m * n0.toNat + 1) (d : BitVec w) :
    2 ^ w ∣ (d * n0).toNat * value m + d.toNat := by
  have hdvd : 2 ^ w ∣ d.toNat * n0.toNat * value m + d.toNat := by
    obtain ⟨k, hk⟩ := h0
    refine ⟨d.toNat * k, ?_⟩
    calc d.toNat * n0.toNat * value m + d.toNat = d.toNat * (value m * n0.toNat + 1) := by ring
      _ = 2 ^ w * (d.toNat * k) := by rw [hk]; ring
  have hmod : d.toNat * n0.toNat ≡ (d * n0).toNat [MOD 2 ^ w] := by
    exact (mod_modEq _ _).symm
  exact ((hmod.mul_right _).add_right _).dvd_iff dvd_rfl |>.mp hdvd

section

variable {m a : List (BitVec w)} {n0 : BitVec w} (hw : 0 < w) (hm : m ≠ [])
    (ha : a.length = m.length)
  (h0 : 2 ^ w ∣ value m * n0.toNat + 1)

include hw hm ha h0

theorem round_spec {t : Acc w} (ht : t.1.length = m.length) (hlt : total t < value a + value m)
    (b : BitVec w) :
    total (round m n0 a t b) < value a + value m ∧
      ∃ k, 2 ^ w * total (round m n0 a t b) = total t + b.toNat * value a + k * value m := by
  have hB : 2 ≤ 2 ^ w := by simpa using Nat.pow_le_pow_right (show 0 < 2 by omega) hw
  obtain ⟨hq, hqc⟩ := value_mulAdd b (c := 0) (ha.trans ht.symm) (by simp)
  have hql := length_mulAdd b 0 (ha.trans ht.symm)
  unfold round
  dsimp only
  generalize mulAdd b 0 a t.1 = q at hq hqc hql ⊢
  rw [ha] at hql hq
  have hs := wide_add hw (x := t.2) hqc
  have hs1 := low_add_high (t.2.setWidth (2 * w) + q.2)
  have hs2 := toNat_high (t.2.setWidth (2 * w) + q.2)
  generalize t.2.setWidth (2 * w) + q.2 = s at hs hs1 hs2 ⊢
  obtain ⟨hp, hpc⟩ := value_mulAdd (q.1.headD 0 * n0) (c := 0) hql.symm (by simp)
  have hpl := length_mulAdd (q.1.headD 0 * n0) 0 hql.symm
  generalize mulAdd (q.1.headD 0 * n0) 0 m q.1 = p at hp hpc hpl ⊢
  have hs' := wide_add hw (x := s.setWidth w) hpc
  have hs1' := low_add_high ((s.setWidth w).setWidth (2 * w) + p.2)
  have hs2' := toNat_high ((s.setWidth w).setWidth (2 * w) + p.2)
  generalize (s.setWidth w).setWidth (2 * w) + p.2 = s' at hs' hs1' hs2' ⊢
  obtain ⟨n, hn⟩ : ∃ n, m.length = n + 1 := Nat.exists_eq_succ_of_ne_zero (by simpa using hm)
  obtain ⟨q, c⟩ := q
  obtain ⟨p, c'⟩ := p
  obtain _ | ⟨d, x⟩ := q
  · simp [hn] at hql
  obtain _ | ⟨d', rest⟩ := p
  · simp [hn] at hpl
  have hM := Limbs.value_lt m
  have hA := Limbs.value_lt a
  have hrest : rest.length = n := by simpa [hn] using hpl
  have hpow : 2 ^ (w * (n + 1)) = 2 ^ w * 2 ^ (w * n) := by rw [Nat.mul_succ, add_comm, pow_add]
  have hmm := (d * n0).isLt
  have hb := b.isLt
  have hclear := clears h0 d
  simp only [total, ht, ha, hn, hpow, value_cons, headD_cons, tail_cons, BitVec.ofNat_eq_ofNat,
    BitVec.toNat_ofNat, Nat.zero_mod, add_zero, length_append, length_singleton, value_append,
    value_nil, hrest] at *
  generalize (d * n0).toNat = mm at *
  generalize 2 ^ (w * n) = N at *
  have hd' : d'.toNat = 0 := by
    have hdvd : 2 ^ w ∣ d'.toNat + 2 ^ w * (value rest + N * c'.toNat) := by
      rw [mul_add, ← mul_assoc, ← add_assoc, hp, ← add_assoc]
      exact dvd_add hclear (dvd_mul_right _ _)
    exact Nat.eq_zero_of_dvd_of_lt ((Nat.dvd_add_left (dvd_mul_right _ _)).mp hdvd) d'.isLt
  have hsum : 2 ^ w * (value rest + N * (s'.setWidth w).toNat + 2 ^ w * N *
    ((s >>> w).toNat + (s' >>> w).toNat)) =
      value t.1 + 2 ^ w * N * t.2.toNat + b.toNat * value a + mm * value m := by
    have e1 := congrArg (2 ^ w * N * ·) (hs1.trans hs)
    have e2 := congrArg (2 ^ w * N * ·) (hs1'.trans hs')
    linarith
  have hbound : value rest + N * (s'.setWidth w).toNat + 2 ^ w * N *
    ((s >>> w).toNat + (s' >>> w).toNat) <
      value a + value m := by
    have hba := Nat.mul_le_mul_right (value a) (Nat.le_sub_one_of_lt hb)
    have hmm' := Nat.mul_le_mul_right (value m) (Nat.le_sub_one_of_lt hmm)
    obtain ⟨B, hB'⟩ : ∃ B, 2 ^ w = B + 1 := ⟨2 ^ w - 1, by omega⟩
    rw [hB', Nat.add_sub_cancel] at hba hmm'
    have hright : 2 ^ w * (value a + value m) = B * value a + B * value m +
      (value a + value m) := by rw [hB']; ring
    refine Nat.lt_of_mul_lt_mul_left (a := 2 ^ w) ?_
    omega
  have hword : ((s >>> w).setWidth w + (s' >>> w).setWidth w).toNat = (s >>> w).toNat +
      (s' >>> w).toNat := by
    have htwo : (s >>> w).toNat + (s' >>> w).toNat < 2 := by
      by_contra hge
      have := Nat.mul_le_mul_left (2 ^ w * N) (Nat.le_of_not_lt hge)
      omega
    rw [BitVec.toNat_add, hs2, hs2', Nat.mod_eq_of_lt (by omega)]
  rw [hword, mul_zero, add_zero]
  exact ⟨hbound, mm, hsum⟩

theorem foldl_round {t : Acc w} (ht : t.1.length = m.length) (hlt : total t < value a + value m)
    (b : List (BitVec w)) :
    (b.foldl (round m n0 a) t).1.length = m.length ∧ total
    (b.foldl (round m n0 a) t) < value a + value m ∧
      ∃ k, 2 ^ (w * b.length) * total (b.foldl (round m n0 a) t) = total t + value b * value a + k *
      value m := by
  induction b generalizing t with
  | nil => exact ⟨ht, hlt, 0, by simp⟩
  | cons x b ih =>
    obtain ⟨h2, k, hk⟩ := round_spec hw hm ha h0 ht hlt x
    obtain ⟨h3, h4, j, hj⟩ := ih (length_round hm ha n0 ht x) h2
    refine ⟨h3, h4, k + 2 ^ w * j, ?_⟩
    have hj' := congrArg (2 ^ w * ·) hj
    rw [foldl_cons, length_cons, mul_succ, add_comm (w * _), pow_add, value_cons]
    linarith

theorem mul_spec (hle : value a ≤ value m) (hpos : 0 < value m) {b : List (BitVec w)}
    (hb : b.length = m.length) :
    value (mul m n0 a b) < value m ∧
      2 ^ (w * m.length) * value (mul m n0 a b) ≡ value a * value b [MOD value m] := by
  have hinit : total (replicate m.length 0#w, 0#w) = 0 := by simp [total]
  obtain ⟨h1, h2, k, hk⟩ := foldl_round hw hm ha h0 (t := (replicate m.length 0#w, 0#w))
    length_replicate (by omega) b
  rw [hinit, zero_add, hb] at hk
  rw [mul, BitVec.ofNat_eq_ofNat]
  generalize b.foldl (round m n0 a) (replicate m.length 0#w, 0#w) = t at h1 h2 hk ⊢
  have hval : value (reduce m (t.2 != 0#w) t.1) = total t % value m := by
    rw [bne_zero, value_reduce hw h1 (by rw [total, h1] at h2; omega), total, h1]
  refine ⟨by rw [hval]; exact mod_lt _ hpos, ?_⟩
  rw [hval]
  refine ((mod_modEq _ _).mul_left _).trans ?_
  rw [hk, mul_comm (value a)]
  exact add_mul_mod_self_right _ _ _

end

end Cervus.Montgomery
