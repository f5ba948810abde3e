import Mathlib.Tactic.Common

/-! Binary search for the end of a run of indices, and the cut of a list it finds. -/

namespace Cervus.Lib

/-- The first index of `[lo, hi)` at which `q` fails, if `q` holds before it and nowhere
after; `fuel` bounds the rounds. -/
def searchUpper (q : Nat → Bool) : Nat → Nat → Nat → Nat
  | 0, lo, _ => lo
  | fuel + 1, lo, hi =>
    if lo < hi then
      let mid := (lo + hi) / 2
      if q mid then searchUpper q fuel (mid + 1) hi else searchUpper q fuel lo mid
    else lo

theorem searchUpper_eq {q : Nat → Bool} {k n : Nat} (hq : ∀ i < n, q i = true ↔ i < k)
    {fuel lo hi : Nat} (hlo : lo ≤ k) (hhi : k ≤ hi) (hn : hi ≤ n) (hf : hi - lo ≤ fuel) :
    searchUpper q fuel lo hi = k := by
  induction fuel generalizing lo hi with
  | zero =>
    show lo = k
    omega
  | succ fuel ih =>
    by_cases hlt : lo < hi
    · have hm := hq ((lo + hi) / 2) (by omega)
      rw [searchUpper, if_pos hlt]
      by_cases hqm : q ((lo + hi) / 2) = true
      · have := hm.mp hqm
        rw [if_pos hqm]
        exact ih (by omega) hhi hn (by omega)
      · have : ¬ (lo + hi) / 2 < k := fun h => hqm (hm.mpr h)
        rw [if_neg hqm]
        exact ih hlo (by omega) (by omega) (by omega)
    · rw [searchUpper, if_neg hlt]
      omega

theorem exists_cut {α : Type} {p : α → Prop} {l : List α} (h : l.Pairwise fun a b => p b → p a) :
    ∃ l₁ l₂, l = l₁ ++ l₂ ∧ (∀ a ∈ l₁, p a) ∧ ∀ a ∈ l₂, ¬ p a := by
  induction l with
  | nil => exact ⟨[], [], rfl, by simp, by simp⟩
  | cons a l ih =>
    obtain ⟨ha, hl⟩ := List.pairwise_cons.mp h
    by_cases hp : p a
    · obtain ⟨l₁, l₂, rfl, h1, h2⟩ := ih hl
      refine ⟨a :: l₁, l₂, rfl, fun b hb => ?_, h2⟩
      exact (List.mem_cons.mp hb).elim (fun e => e ▸ hp) (h1 b)
    · refine ⟨[], a :: l, rfl, by simp, fun b hb => ?_⟩
      exact (List.mem_cons.mp hb).elim (fun e => e ▸ hp) (fun hb hpb => hp (ha b hb hpb))

end Cervus.Lib
