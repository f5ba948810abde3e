import Mathlib.Tactic.Ring

/-! A message that arrives in pieces and is worked off in blocks of `n` items, with a buffer
for the items that do not fill a block. How the message was cut into pieces does not matter. -/

namespace Cervus.Absorb

open List

variable {α σ : Type*} (n : Nat) (step : σ → List α → σ)

def blocks : Nat → σ → List α → σ
  | 0, s, _ => s
  | k + 1, s, m => blocks k (step s (m.take n)) (m.drop n)

def whole (s : σ) (m : List α) : σ × List α :=
  (blocks n step (m.length / n) s m, m.drop (m.length / n * n))

def update (x : σ × List α) (m : List α) : σ × List α :=
  if x.2 = [] then whole n step x.1 m
  else
    let want := min (n - x.2.length) m.length
    let buffer := x.2 ++ m.take want
    if buffer.length < n then (x.1, buffer) else whole n step (step x.1 buffer) (m.drop want)

variable {n step}

theorem whole_of_lt {s : σ} {m : List α} (h : m.length < n) : whole n step s m = (s, m) := by
  simp [whole, Nat.div_eq_of_lt h, blocks]

theorem whole_cons {s : σ} {b m : List α} (hn : 0 < n) (hb : b.length = n) :
    whole n step s (b ++ m) = whole n step (step s b) m := by
  have hlen : (b ++ m).length / n = m.length / n + 1 := by
    rw [length_append, hb, add_comm, Nat.add_div_right _ hn]
  have hdrop : (b ++ m).drop ((m.length / n + 1) * n) = m.drop (m.length / n * n) := by
    rw [add_mul, one_mul, add_comm, ← drop_drop, drop_left' hb]
  rw [whole, hlen, hdrop, blocks, take_left' hb, drop_left' hb, whole]

theorem induction_blocks {P : List α → Prop} (hn : 0 < n) (hrest : ∀ m, m.length < n → P m)
    (hblock : ∀ b m, b.length = n → P m → P (b ++ m)) (m : List α) : P m := by
  induction hk : m.length using Nat.strong_induction_on generalizing m with
  | _ k ih =>
    by_cases hlt : m.length < n
    · exact hrest m hlt
    · have hb : (m.take n).length = n := by rw [length_take]; omega
      rw [← take_append_drop n m]
      exact hblock _ _ hb (ih (m.drop n).length (by rw [length_drop]; omega) _ rfl)

theorem length_whole_lt (hn : 0 < n) (s : σ) (m : List α) : (whole n step s m).2.length < n := by
  rw [whole, length_drop]
  have := Nat.div_add_mod' m.length n
  have := Nat.mod_lt m.length hn
  omega

theorem update_eq_whole (hn : 0 < n) {x : σ × List α} (hx : x.2.length < n) (m : List α) :
    update n step x m = whole n step x.1 (x.2 ++ m) := by
  obtain ⟨s, buffer⟩ := x
  dsimp only at hx
  rw [update]
  dsimp only
  split_ifs with he hlt
  · rw [he, nil_append]
  · have hall : m.take (min (n - buffer.length) m.length) = m := by
      refine take_of_length_le ?_
      rw [length_append, length_take] at hlt
      omega
    rw [hall] at hlt ⊢
    rw [whole_of_lt hlt]
  · have hfull : (buffer ++ m.take (min (n - buffer.length) m.length)).length = n := by
      rw [length_append, length_take] at hlt ⊢
      omega
    rw [← whole_cons hn hfull, append_assoc, take_append_drop]

theorem update_whole (hn : 0 < n) (s : σ) (m m' : List α) :
    update n step (whole n step s m) m' = whole n step s (m ++ m') := by
  rw [update_eq_whole hn (length_whole_lt hn s m)]
  induction m using induction_blocks hn generalizing s with
  | hrest m hm => rw [whole_of_lt hm]
  | hblock b m hb ih => rw [whole_cons hn hb, ih, append_assoc, whole_cons hn hb]

theorem foldl_update (hn : 0 < n) (s : σ) (pieces : List (List α)) :
    pieces.foldl (update n step) (s, []) = whole n step s pieces.flatten := by
  have h : ∀ m, pieces.foldl (update n step) (whole n step s m) =
      whole n step s (m ++ pieces.flatten) := by
    induction pieces with
    | nil => simp
    | cons p pieces ih =>
      intro m
      rw [foldl_cons, update_whole hn, ih, flatten_cons, append_assoc]
  have hnil : whole n step s [] = (s, []) := whole_of_lt hn
  rw [← hnil, h, nil_append]

end Cervus.Absorb
