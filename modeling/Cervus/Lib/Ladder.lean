import Mathlib.Data.List.Induction
import Mathlib.Tactic.Ring

/-! Numbers as bits, highest first, and the loop that doubles for every bit and adds for every
bit set, which starts at the first bit set. -/

namespace Cervus.Ladder

open List

def bitsValue (l : List Bool) : Nat := l.foldl (fun v b => 2 * v + b.toNat) 0

theorem bitsValue_append (l : List Bool) (b : Bool) :
    bitsValue (l ++ [b]) = 2 * bitsValue l + b.toNat := by
  simp [bitsValue]

theorem bitsValue_append_list (l l' : List Bool) :
    bitsValue (l ++ l') = 2 ^ l'.length * bitsValue l + bitsValue l' := by
  induction l' using reverseRecOn with
  | nil => simp [bitsValue]
  | append_singleton l' b ih =>
    rw [← append_assoc, bitsValue_append, ih, bitsValue_append, length_append, pow_add]
    simp
    ring

def bits (n v : Nat) : List Bool := ((range n).map v.testBit).reverse

theorem bitsValue_bits (n v : Nat) : bitsValue (bits n v) = v % 2 ^ n := by
  induction n with
  | zero => simp [bits, bitsValue, Nat.mod_one]
  | succ n ih =>
    have hsplit : bits (n + 1) v = [v.testBit n] ++ bits n v := by
      simp [bits, range_succ]
    have hlen : (bits n v).length = n := by simp [bits]
    have hone : bitsValue [v.testBit n] = (v.testBit n).toNat := by simp [bitsValue]
    rw [hsplit, bitsValue_append_list, ih, hlen, hone, Nat.toNat_testBit, Nat.mod_pow_succ,
      add_comm]

section

variable {α : Type*} (first : α) (twice more : α → α)

def step (p : α × Bool) (bit : Bool) : α × Bool :=
  let r := if p.2 then twice p.1 else p.1
  if bit then (if p.2 then more r else first, true) else (r, p.2)

def run (init : α) (l : List Bool) : α := (l.foldl (step first twice more) (init, false)).1

variable {first twice more} {Q : Nat → α → Prop}

section
variable (h1 : Q 1 first) (h2 : ∀ v a, v ≠ 0 → Q v a → Q (2 * v) (twice a))
    (h3 : ∀ v a, v ≠ 0 → Q v a → Q (v + 1) (more a))
include h1 h2 h3

theorem foldl_step (init : α) (l : List Bool) :
    (l.foldl (step first twice more) (init, false) = (init, false) ∧ bitsValue l = 0) ∨
      (∃ a, l.foldl (step first twice more) (init, false) = (a, true) ∧ Q (bitsValue l) a ∧
      bitsValue l ≠ 0) := by
  induction l using reverseRecOn with
  | nil => exact .inl ⟨rfl, rfl⟩
  | append_singleton l b ih =>
    rw [foldl_append, foldl_cons, foldl_nil, bitsValue_append]
    obtain ⟨hf, h0⟩ | ⟨a, hf, hq, h0⟩ := ih
    · rw [hf, h0]
      cases b with
      | false => exact .inl ⟨rfl, rfl⟩
      | true => exact .inr ⟨first, rfl, h1, by simp⟩
    · rw [hf]
      have hd := h2 _ _ h0 hq
      cases b with
      | false => exact .inr ⟨twice a, rfl, hd, by simpa using h0⟩
      | true => exact .inr ⟨more (twice a), rfl, h3 _ _ (by omega) hd, by simp⟩

theorem run_spec
    {init : α} (h0 : Q 0 init) (l : List Bool) : Q (bitsValue l) (run first twice more init l) := by
  obtain ⟨hf, hv⟩ | ⟨a, hf, hq, -⟩ := foldl_step h1 h2 h3 init l
  · rw [run, hf, hv]
    exact h0
  · rw [run, hf]
    exact hq

end

end

end Cervus.Ladder
