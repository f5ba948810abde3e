import Mathlib.Algebra.Group.Nat.Defs
import Mathlib.Tactic.Common

/-! Sums of 16-bit words with end-around carry. -/

namespace Cervus.Lib

/-- `while (sum >> 16) sum = (sum & 0xffff) + (sum >> 16)`, at most `n` times. -/
def foldCarry : Nat → Nat → Nat
  | 0, s => s
  | n + 1, s => if s / 65536 ≠ 0 then foldCarry n (s % 65536 + s / 65536) else s

theorem foldCarry_mod (n s : Nat) : foldCarry n s % 65535 = s % 65535 := by
  induction n generalizing s with
  | zero => rfl
  | succ n ih =>
    rw [foldCarry]
    split_ifs with h
    · rw [ih]
      omega
    · rfl

theorem foldCarry_pos {n s : Nat} (h : 0 < s) : 0 < foldCarry n s := by
  induction n generalizing s with
  | zero => exact h
  | succ n ih =>
    rw [foldCarry]
    split_ifs with hs
    · exact ih (by omega)
    · exact h

theorem foldCarry_lt {s : Nat} (h : s < 2 ^ 32) : foldCarry 4 s < 65536 := by
  have stop : ∀ {n t : Nat}, t < 65536 → foldCarry n t < 65536 := by
    intro n t ht
    cases n with
    | zero => exact ht
    | succ n => rwa [foldCarry, if_neg (by omega)]
  rw [foldCarry]
  split_ifs with h1
  · rw [foldCarry]
    split_ifs with h2
    · exact stop (by omega)
    · omega
  · omega

theorem foldCarry_add_compl {s : Nat} (h : s < 2 ^ 31) :
    foldCarry 4 (s + (65535 - foldCarry 4 s)) = 65535 := by
  have hs := foldCarry_lt (show s < 2 ^ 32 by omega)
  have hmod := foldCarry_mod 4 s
  have hmod' := foldCarry_mod 4 (s + (65535 - foldCarry 4 s))
  have hlt := foldCarry_lt (show s + (65535 - foldCarry 4 s) < 2 ^ 32 by omega)
  have hpos : 0 < s + (65535 - foldCarry 4 s) := by
    rcases Nat.eq_zero_or_pos s with rfl | hp
    · decide
    · omega
  have := foldCarry_pos (n := 4) hpos
  omega

end Cervus.Lib
