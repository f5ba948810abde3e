import Mathlib.Tactic.Common

/-! A circular search for `n` consecutive free places among `size`, which starts anywhere and
counts the free places it has just passed. A run may not go over the end. -/

namespace Cervus.Lib

/-- Looks at `fuel` places from `i` on, after `run` free ones; the last place of the first run
found. -/
def scan (used : Nat → Bool) (size n : Nat) : Nat → Nat → Nat → Option Nat
  | 0, _, _ => none
  | fuel + 1, i, run =>
    let run := if i = size then 0 else run
    let i := if i = size then 0 else i
    if used i then scan used size n fuel (i + 1) 0
    else if run + 1 < n then scan used size n fuel (i + 1) (run + 1)
    else some i

def FreeFrom (used : Nat → Bool) (size n a : Nat) : Prop :=
  a + n ≤ size ∧ ∀ j, a ≤ j → j < a + n → used j = false

variable {used : Nat → Bool} {size n : Nat}

theorem scan_wrap (hs : 0 < size) (fuel run : Nat) :
    scan used size n fuel size run = scan used size n fuel 0 0 := by
  cases fuel with
  | zero => rfl
  | succ fuel => simp only [scan, if_pos, if_neg (show ¬0 = size by omega)]

variable {a fuel i run : Nat}

theorem scan_sound (hs : 0 < size) {last : Nat} (hi : i ≤ size) (hr : run ≤ i) (hn : run < n)
    (hfree : ∀ j, i - run ≤ j → j < i → used j = false)
    (h : scan used size n fuel i run = some last) :
    n ≤ last + 1 ∧ FreeFrom used size n (last + 1 - n) := by
  induction fuel generalizing i run with
  | zero => cases h
  | succ fuel ih =>
    have hstep : ∀ i run, i < size → run ≤ i → run < n →
      (∀ j, i - run ≤ j → j < i → used j = false) →
        scan used size n (fuel + 1) i run = some last → n ≤ last + 1 ∧
        FreeFrom used size n (last + 1 - n) := by
      intro i run hi hr hn hfree h
      have hne : ¬i = size := by omega
      rw [scan, if_neg hne, if_neg hne] at h
      split_ifs at h with hu hlt
      · exact ih (by omega) (Nat.zero_le _) (by omega) (fun j h1 h2 => by omega) h
      · refine ih (by omega) (by omega) hlt (fun j h1 h2 => ?_) h
        rcases Nat.eq_or_lt_of_le (Nat.le_of_lt_succ h2) with rfl | hj
        · exact Bool.eq_false_iff.mpr hu
        · exact hfree j (by omega) hj
      · obtain rfl := Option.some.inj h
        refine ⟨by omega, by omega, fun j h1 h2 => ?_⟩
        rcases Nat.eq_or_lt_of_le (show j ≤ i by omega) with rfl | hj
        · exact Bool.eq_false_iff.mpr hu
        · exact hfree j (by omega) hj
    by_cases hw : i = size
    · rw [hw, scan_wrap hs] at h
      exact hstep 0 0 hs (Nat.le_refl 0) (by omega) (fun j h1 h2 => by omega) h
    · exact hstep i run (by omega) hr hn hfree h

theorem scan_ahead (hn : 1 ≤ n) (ha : FreeFrom used size n a) (hi : i < a + n)
    (hr : i ≤ a ∨ i - run ≤ a) (hf : a + n ≤ i + fuel) : scan used size n fuel i run ≠ none := by
  induction fuel generalizing i run with
  | zero => omega
  | succ fuel ih =>
    have hsize := ha.1
    rw [scan, if_neg (show ¬i = size by omega), if_neg (show ¬i = size by omega)]
    split_ifs with hu hlt
    · have hia : i < a := by
        by_contra hge
        rw [ha.2 i (by omega) hi] at hu
        cases hu
      exact ih (by omega) (by omega) (by omega)
    · exact ih (by omega) (by omega) (by omega)
    · exact Option.some_ne_none _

theorem scan_around (hn : 1 ≤ n) (ha : FreeFrom used size n a) (hi : i ≤ size)
    (hf : size - i + (a + n) ≤ fuel) : scan used size n fuel i run ≠ none := by
  have hsize := ha.1
  induction fuel generalizing i run with
  | zero => omega
  | succ fuel ih =>
    by_cases hw : i = size
    · rw [hw, scan_wrap (by omega)]
      exact scan_ahead hn ha (by omega) (.inl (Nat.zero_le _)) (by omega)
    · rw [scan, if_neg hw, if_neg hw]
      split_ifs
      · exact ih (by omega) (by omega)
      · exact ih (by omega) (by omega)
      · exact Option.some_ne_none _

theorem scan_ne_none_iff {cursor : Nat} (hn : 1 ≤ n) (hc : cursor < size)
    (hf : n ≤ size → size + n ≤ fuel) :
    scan used size n fuel cursor 0 ≠ none ↔ ∃ a, FreeFrom used size n a := by
  constructor
  · intro h
    obtain ⟨last, hl⟩ := Option.ne_none_iff_exists'.mp h
    exact ⟨_, (scan_sound (by omega) (by omega) (Nat.zero_le _) hn (fun j h1 h2 => by omega) hl).2⟩
  · rintro ⟨a, ha⟩
    have hsize := ha.1
    rcases Nat.lt_or_ge a cursor with h | h
    · exact scan_around hn ha (by omega) (by omega)
    · exact scan_ahead hn ha (by omega) (.inl h) (by omega)

end Cervus.Lib
