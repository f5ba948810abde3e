import Mathlib.Data.Nat.Cast.Order.Ring

/-! Bitmaps kept in an array of 64-bit words. -/

namespace Cervus.Lib

open List

def testBit (m : Nat → BitVec 64) (i : Nat) : Bool := (m (i >>> 6)).getLsbD (i &&& 63)

def setBit (m : Nat → BitVec 64) (i : Nat) : Nat → BitVec 64 :=
  fun w => if w = i >>> 6 then m w ||| 1#64 <<< (i &&& 63) else m w

def clearBit (m : Nat → BitVec 64) (i : Nat) : Nat → BitVec 64 :=
  fun w => if w = i >>> 6 then m w &&& ~~~(1#64 <<< (i &&& 63)) else m w

theorem and_63 (i : Nat) : i &&& 63 = i % 64 := Nat.and_two_pow_sub_one_eq_mod i 6

theorem shift_6 (i : Nat) : i >>> 6 = i / 64 := Nat.shiftRight_eq_div_pow i 6

theorem getLsbD_one_shiftLeft {k j : Nat} (hj : j < 64) :
    (1#64 <<< k).getLsbD j = decide (k = j) := by
  by_cases h : k = j
  · subst h
    simp [hj]
  · have : ¬ (¬ j < k ∧ j - k = 0) := by omega
    by_cases hk : j < k
    · simp [hk, h]
    · have h0 : j - k ≠ 0 := fun e => this ⟨hk, e⟩
      simp [h, h0]

theorem testBit_setBit (m : Nat → BitVec 64) (i j : Nat) :
    testBit (setBit m i) j = (decide (i = j) || testBit m j) := by
  simp only [testBit, setBit, and_63, shift_6]
  by_cases h : j / 64 = i / 64
  · rw [if_pos h, BitVec.getLsbD_or, getLsbD_one_shiftLeft (by omega), Bool.or_comm]
    have : i % 64 = j % 64 ↔ i = j := by omega
    simp [this]
  · have : i ≠ j := fun e => h (by rw [e])
    simp [h, this]

theorem testBit_clearBit (m : Nat → BitVec 64) (i j : Nat) :
    testBit (clearBit m i) j = (!decide (i = j) && testBit m j) := by
  simp only [testBit, clearBit, and_63, shift_6]
  by_cases h : j / 64 = i / 64
  · rw [if_pos h, BitVec.getLsbD_and, BitVec.getLsbD_not,
      getLsbD_one_shiftLeft (by omega), Bool.and_comm]
    have : i % 64 = j % 64 ↔ i = j := by omega
    simp [this, show j % 64 < 64 by omega]
  · have : i ≠ j := fun e => h (by rw [e])
    simp [h, this]

theorem testBit_foldl_setBit (l : List Nat) (m : Nat → BitVec 64) (j : Nat) :
    testBit (l.foldl setBit m) j = (decide (j ∈ l) || testBit m j) := by
  induction l generalizing m with
  | nil => simp
  | cons i l ih =>
    rw [foldl_cons, ih, testBit_setBit]
    by_cases h : i = j
    · simp [h]
    · simp [h, Ne.symm h]

theorem testBit_foldl_clearBit (l : List Nat) (m : Nat → BitVec 64) (j : Nat) :
    testBit (l.foldl clearBit m) j = (!decide (j ∈ l) && testBit m j) := by
  induction l generalizing m with
  | nil => simp
  | cons i l ih =>
    rw [foldl_cons, ih, testBit_clearBit]
    by_cases h : i = j
    · simp [h]
    · simp [h, Ne.symm h]

theorem eq_of_testBit {m m' : Nat → BitVec 64} (h : ∀ i, testBit m i = testBit m' i) : m = m' := by
  funext w
  refine BitVec.eq_of_getLsbD_eq fun j hj => ?_
  have := h (64 * w + j)
  simp only [testBit, and_63, shift_6] at this
  rwa [show (64 * w + j) / 64 = w by omega, show (64 * w + j) % 64 = j by omega] at this

def popcount (n : Nat) (m : Nat → BitVec 64) : Nat := ((range n).filter (testBit m)).length

theorem popcount_eq {n : Nat} {m : Nat → BitVec 64} {l : List Nat} (hn : l.Nodup)
    (hl : ∀ i, i ∈ l ↔ i < n ∧ testBit m i = true) : popcount n m = l.length := by
  have hp : ((range n).filter (testBit m)).Perm l := by
    refine (perm_ext_iff_of_nodup (nodup_range.filter _) hn).mpr fun i => ?_
    rw [hl i, mem_filter, mem_range]
  exact hp.length_eq

end Cervus.Lib
