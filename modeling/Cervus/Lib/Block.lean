import Mathlib.Algebra.Order.Ring.Nat
import Mathlib.Data.Nat.Bitwise
import Mathlib.Data.Nat.SuccPred
import Mathlib.Order.Interval.Finset.Nat

/-! Runs of `2 ^ k` consecutive numbers, their unions, and the binary buddy of an
aligned run. -/

namespace Cervus.Lib

open List Nat

def block (a k : Nat) : Multiset Nat := Multiset.Ico a (a + 2 ^ k)

@[simp] theorem mem_block {a k p : Nat} : p ∈ block a k ↔ a ≤ p ∧ p < a + 2 ^ k := Multiset.mem_Ico

theorem card_block (a k : Nat) : (block a k).card = 2 ^ k := by
  have h := Nat.card_Ico a (a + 2 ^ k)
  rw [Nat.add_sub_cancel_left] at h
  exact h

theorem nodup_block (a k : Nat) : (block a k).Nodup := Multiset.nodup_Ico

theorem head_mem_block (a k : Nat) : a ∈ block a k := by
  simp

theorem block_succ (a k : Nat) : block a (k + 1) = block a k + block (a + 2 ^ k) k := by
  rw [block, block, block, add_assoc, ← two_mul, ← pow_succ']
  refine (Multiset.Ico_add_Ico_eq_Ico ?_ ?_).symm <;> simp [pow_succ, mul_two]

theorem mem_block_iff_div {a k p : Nat} (h : 2 ^ k ∣ a) :
    p ∈ block a k ↔ p / 2 ^ k = a / 2 ^ k := by
  obtain ⟨q, rfl⟩ := h
  have hpos := Nat.two_pow_pos k
  rw [mem_block, Nat.mul_div_cancel_left _ hpos, ← Nat.mul_succ, Nat.div_eq_iff hpos, Nat.mul_succ,
    mul_comm]
  omega

theorem block_nested {a b j k p : Nat} (ha : 2 ^ j ∣ a) (hb : 2 ^ k ∣ b) (hjk : j ≤ k)
    (hpa : p ∈ block a j) (hpb : p ∈ block b k) {q : Nat} (hq : q ∈ block a j) : q ∈ block b k := by
  rw [mem_block_iff_div ha] at hpa hq
  rw [mem_block_iff_div hb] at hpb ⊢
  have hsplit : ∀ x, x / 2 ^ k = x / 2 ^ j / 2 ^ (k - j) := fun x => by
    rw [Nat.div_div_eq_div_mul, ← pow_add, Nat.add_sub_cancel' hjk]
  rw [hsplit q, hq, ← hpa, ← hsplit p, hpb]

theorem mem_sum_map {α β : Type} {f : α → Multiset β} {l : List α} {x : β} :
    x ∈ (l.map f).sum ↔ ∃ a ∈ l, x ∈ f a := by
  induction l with
  | nil => simp
  | cons a l ih => simp [ih]

theorem nodup_sum_map {α β : Type} {f : α → Multiset β} {l : List α}
    (hd : l.Pairwise fun a b => Disjoint (f a) (f b)) (hn : ∀ a ∈ l, (f a).Nodup) :
    (l.map f).sum.Nodup := by
  induction l with
  | nil => simp
  | cons a l ih =>
    obtain ⟨ha, hd⟩ := pairwise_cons.mp hd
    rw [map_cons, sum_cons, Multiset.nodup_add]
    refine ⟨hn a (by simp), ih hd fun b hb => hn b (by simp [hb]), ?_⟩
    refine Multiset.disjoint_left.mpr fun {x} hx hm => ?_
    obtain ⟨b, hb, hxb⟩ := mem_sum_map.mp hm
    exact Multiset.disjoint_left.mp (ha b hb) hx hxb

theorem sum_map_erase {α β : Type} [BEq α] [LawfulBEq α] {f : α → Multiset β} {l : List α} {a : α}
    (ha : a ∈ l) : (l.map f).sum = f a + ((l.erase a).map f).sum := by
  exact ((perm_cons_erase ha).map f).sum_eq

theorem not_mem_sum_map_erase {α β : Type} [BEq α] [LawfulBEq α] {f : α → Multiset β} {l : List α}
    {a : α} {x : β} (hn : (l.map f).sum.Nodup) (ha : a ∈ l) (hx : x ∈ f a) :
    x ∉ ((l.erase a).map f).sum := by
  rw [sum_map_erase ha] at hn
  exact Multiset.disjoint_left.mp (Multiset.nodup_add.mp hn).2.2 hx

theorem eq_of_mem_sum_map {α β : Type} [BEq α] [LawfulBEq α] {f : α → Multiset β} {l : List α}
    {a b : α} {x : β} (hn : (l.map f).sum.Nodup) (ha : a ∈ l) (hb : b ∈ l) (hxa : x ∈ f a)
    (hxb : x ∈ f b) : a = b := by
  by_contra hne
  apply not_mem_sum_map_erase hn ha hxa
  exact mem_sum_map.mpr ⟨b, (mem_erase_of_ne (Ne.symm hne)).mpr hb, hxb⟩

theorem xor_one_cases (q : Nat) :
    (q % 2 = 0 ∧ q ^^^ 1 = q + 1) ∨ ((q ^^^ 1) % 2 = 0 ∧ (q ^^^ 1) + 1 = q) := by
  rcases even_or_odd q with h | h
  · exact .inl ⟨even_iff.mp h, xor_one_of_even h⟩
  · have hq := xor_one_of_odd h
    have := odd_iff.mp h
    exact .inr ⟨by omega, by omega⟩

theorem xor_two_pow_cases {a k : Nat} (h : 2 ^ k ∣ a) :
    (2 ^ (k + 1) ∣ a ∧ a ^^^ 2 ^ k = a + 2 ^ k) ∨
      (2 ^ (k + 1) ∣ a ^^^ 2 ^ k ∧ (a ^^^ 2 ^ k) + 2 ^ k = a) := by
  obtain ⟨q, rfl⟩ := h
  have hx : 2 ^ k * q ^^^ 2 ^ k = 2 ^ k * (q ^^^ 1) := by
    have hs := (shiftLeft_xor_distrib (i := k) (a := q) (b := 1)).symm
    simpa only [shiftLeft_eq, one_mul, mul_comm (2 ^ k)] using hs
  rw [hx, pow_succ]
  rcases xor_one_cases q with ⟨hq, hx⟩ | ⟨hq, hx⟩
  · exact .inl ⟨mul_dvd_mul_left _ (dvd_of_mod_eq_zero hq), by rw [hx, mul_succ]⟩
  · exact .inr ⟨mul_dvd_mul_left _ (dvd_of_mod_eq_zero hq), by rw [← mul_succ, succ_eq_add_one, hx]⟩

end Cervus.Lib
