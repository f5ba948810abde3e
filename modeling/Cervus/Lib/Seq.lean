import Mathlib.Data.BitVec

/-! Sequence numbers of 32 bits, which wrap: numbers less than half a turn apart
compare as the places of the stream they stand for do. -/

namespace Cervus

open BitVec

abbrev Seq := BitVec 32

namespace Seq

def diff (a b : Seq) : Int := (a - b).toInt

section
variable {a c : Seq} {i : Int} {n : Nat}

theorem diff_eq (h1 : -2 ^ 31 ≤ i) (h2 : i < 2 ^ 31) (h : a = c + BitVec.ofInt 32 i) :
    diff a c = i := by
  rw [diff, h, add_comm, add_sub_cancel, toInt_ofInt, Int.bmod_eq_of_le (by omega) (by omega)]

theorem eq_add_diff (a c : Seq) : a = c + BitVec.ofInt 32 (diff a c) := by
  rw [diff, ofInt_toInt, add_comm, sub_add_cancel]

theorem diff_bounds (a c : Seq) : -2 ^ 31 ≤ diff a c ∧ diff a c < 2 ^ 31 := by
  have h1 := le_toInt (a - c)
  have h2 := toInt_lt (x := a - c)
  exact ⟨by simpa [diff] using h1, by simpa [diff] using h2⟩

theorem diff_add_left (h1 : -2 ^ 31 ≤ diff a c + n) (h2 : diff a c + n < 2 ^ 31) :
    diff (a + BitVec.ofNat 32 n) c = diff a c + n := by
  refine diff_eq h1 h2 ?_
  conv_lhs => rw [eq_add_diff a c]
  rw [add_assoc, ofInt_add, ofInt_natCast]

theorem diff_comm (h : -2 ^ 31 < diff a c) : diff c a = -diff a c := by
  have hb := diff_bounds a c
  have ha := eq_add_diff a c
  refine diff_eq (by omega) (by omega) ?_
  generalize diff a c = d at ha
  rw [ha, add_assoc, ← ofInt_add]
  simp

theorem diff_add_right (h1 : -2 ^ 31 ≤ diff a c - n) (h2 : diff a c - n < 2 ^ 31) :
    diff a (c + BitVec.ofNat 32 n) = diff a c - n := by
  refine diff_eq h1 h2 ?_
  conv_lhs => rw [eq_add_diff a c]
  rw [add_assoc, ← ofInt_natCast, ← ofInt_add]
  congr 2
  omega

theorem toNat_sub_of_diff (h : 0 ≤ diff a c) : ((a - c).toNat : Int) = diff a c := by
  rw [diff, toInt_eq_toNat_cond] at h ⊢
  split at h
  · rename_i hn
    rw [if_pos hn]
  · omega

end

theorem diff_self (a : Seq) : diff a a = 0 := by simp [diff]

end Seq
end Cervus
