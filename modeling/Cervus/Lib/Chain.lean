import Mathlib.Algebra.Order.Ring.Nat
import Mathlib.Data.Nat.SuccPred

/-! Null-terminated chains through memory. -/

namespace Cervus.Lib

open List
open Function (update update_of_ne update_self)

/-- Following `next` from `p` visits the members of `l` in order and ends at `0`. -/
def Chain (next : Nat → Nat) : Nat → List Nat → Prop
  | p, [] => p = 0
  | p, q :: l => p = q ∧ q ≠ 0 ∧ Chain next (next q) l

variable {l : List Nat} {fuel q x : Nat} {next : Nat → Nat} {p : Nat}

theorem Chain.congr {next' : Nat → Nat} (h : Chain next p l) (he : ∀ q ∈ l, next' q = next q) :
    Chain next' p l := by
  induction l generalizing p with
  | nil => exact h
  | cons q l ih =>
    obtain ⟨hp, hq, hc⟩ := h
    refine ⟨hp, hq, ?_⟩
    rw [he q (by simp)]
    exact ih hc fun r hr => he r (by simp [hr])

theorem Chain.push (h : Chain next p l) (hq : q ≠ 0) (hm : q ∉ l) :
    Chain (update next q p) q (q :: l) := by
  refine ⟨rfl, hq, ?_⟩
  rw [update_self]
  apply h.congr
  intro r hr
  have hne : r ≠ q := fun e => hm (e ▸ hr)
  exact update_of_ne hne _ _

theorem Chain.of_links {f : Nat → Nat} {n : Nat} (hf : ∀ i, f i ≠ 0)
    (hl : ∀ i < n, next (f i) = if i + 1 < n then f (i + 1) else 0) (k i : Nat) (hk : i + k = n) :
    Chain next (if i < n then f i else 0) ((List.range' i k).map f) := by
  induction k generalizing i with
  | zero =>
    rw [if_neg (by omega)]
    rfl
  | succ k ih =>
    rw [if_pos (by omega), List.range'_succ, map_cons]
    refine ⟨rfl, hf i, ?_⟩
    rw [hl i (by omega)]
    exact ih (i + 1) (by omega)

def unlinkAfter (next : Nat → Nat) (x : Nat) : Nat → Nat → (Nat → Nat)
  | 0, _ => next
  | fuel + 1, q =>
    if next q = x then update next q (next x)
    else if next q = 0 then next
    else unlinkAfter next x fuel (next q)

def chainDetach (next : Nat → Nat) (fuel p x : Nat) : Nat × (Nat → Nat) :=
  if p = x then (next x, next)
  else if p = 0 then (p, next)
  else (p, unlinkAfter next x fuel p)

theorem Chain.unlinkAfter (h : Chain next (next q) l) (hn : (q :: l).Nodup) (hx : x ∈ l)
    (hf : l.length ≤ fuel) :
    Chain (unlinkAfter next x fuel q) (unlinkAfter next x fuel q q) (l.erase x) ∧
      ∀ y, y ∉ q :: l → unlinkAfter next x fuel q y = next y := by
  induction l generalizing fuel q with
  | nil => simp at hx
  | cons z l ih =>
    obtain ⟨hz, hz0, ht⟩ := h
    obtain ⟨hq, hzl⟩ := nodup_cons.mp hn
    obtain ⟨fuel, rfl⟩ : ∃ m, fuel = m + 1 :=
      Nat.exists_eq_add_one.mpr (lt_of_lt_of_le (by simp) hf)
    unfold Lib.unlinkAfter
    by_cases hzx : z = x
    · rw [if_pos (hz.trans hzx), ← hzx, erase_cons_head, update_self]
      refine ⟨ht.congr fun y hy => update_of_ne ?_ _ _, fun y hy => update_of_ne ?_ _ _⟩
      · exact fun e => hq (e ▸ mem_cons_of_mem _ hy)
      · exact fun e => hy (e ▸ mem_cons_self)
    · have hx' : x ∈ l := (mem_cons.mp hx).resolve_left (Ne.symm hzx)
      obtain ⟨h1, h2⟩ := ih ht hzl hx' (Nat.le_of_succ_le_succ hf)
      rw [hz, if_neg hzx, if_neg hz0, erase_cons_tail (by simpa using hzx), h2 q hq, hz]
      exact ⟨⟨rfl, hz0, h1⟩, fun y hy => h2 y fun hm => hy (mem_cons_of_mem _ hm)⟩

theorem Chain.detach (h : Chain next p l) (hn : l.Nodup) (hx : x ∈ l) (hf : l.length ≤ fuel + 1) :
    Chain (chainDetach next fuel p x).2 (chainDetach next fuel p x).1 (l.erase x) ∧
      ∀ y ∉ l, (chainDetach next fuel p x).2 y = next y := by
  cases l with
  | nil => simp at hx
  | cons z l =>
    obtain ⟨rfl, hz0, ht⟩ := h
    unfold chainDetach
    by_cases hpx : p = x
    · subst hpx
      rw [if_pos rfl, erase_cons_head]
      exact ⟨ht, fun _ _ => rfl⟩
    · have hx' : x ∈ l := (mem_cons.mp hx).resolve_left (Ne.symm hpx)
      obtain ⟨h1, h2⟩ := ht.unlinkAfter hn hx' (Nat.le_of_succ_le_succ hf)
      rw [if_neg hpx, if_neg hz0, erase_cons_tail (by simpa using hpx)]
      exact ⟨⟨rfl, hz0, h1⟩, h2⟩

theorem Chain.next_get (h : Chain next (next p) l) (i : Nat)
    (hi : i ≤ l.length) : next ((p :: l).getD i 0) = l.getD i 0 := by
  induction l generalizing p i with
  | nil =>
    obtain rfl : i = 0 := Nat.le_zero.mp hi
    exact h
  | cons q l ih =>
    obtain ⟨hp, -, hc⟩ := h
    cases i with
    | zero => exact hp
    | succ i => exact ih hc i (Nat.le_of_succ_le_succ hi)

theorem Chain.ne_zero (h : Chain next p l) (hx : x ∈ l) : x ≠ 0 := by
  induction l generalizing p with
  | nil => exact absurd hx not_mem_nil
  | cons q l ih =>
    obtain ⟨-, hq, hc⟩ := h
    rcases mem_cons.mp hx with rfl | hx
    · exact hq
    · exact ih hc hx

theorem Chain.after {m : List Nat} (h : Chain next p (l ++ x :: m)) : Chain next (next x) m := by
  induction l generalizing p with
  | nil => exact h.2.2
  | cons y l ih => exact ih h.2.2

theorem Chain.splice {next' : Nat → Nat} {k m : List Nat} (h : Chain next (next p) (l ++ k))
    (hn : (p :: l).Nodup)
    (he : ∀ y ∈ p :: l, y ≠ (p :: l).getLast (cons_ne_nil _ _) → next' y = next y)
    (hm : Chain next' (next' ((p :: l).getLast (cons_ne_nil _ _))) m) :
    Chain next' (next' p) (l ++ m) := by
  induction l generalizing p with
  | nil => exact hm
  | cons q l ih =>
    obtain ⟨hp, hq, hc⟩ := h
    obtain ⟨hpl, hn'⟩ := nodup_cons.mp hn
    have hlast : (p :: q :: l).getLast (cons_ne_nil _ _) = (q :: l).getLast (cons_ne_nil _ _) :=
      getLast_cons _
    rw [hlast] at he hm
    rw [he p mem_cons_self fun e => hpl (e ▸ getLast_mem _), hp]
    exact ⟨rfl, hq, ih hc hn' (fun y hy => he y (mem_cons_of_mem _ hy)) hm⟩

theorem Chain.snoc (h : Chain next (next p) l) (hn : (p :: l).Nodup) (hx : x ∉ p :: l)
    (hx0 : x ≠ 0) :
    let next' := update (update next x 0) ((p :: l).getLast (cons_ne_nil _ _)) x
    Chain next' (next' p) (l ++ [x]) := by
  have hlast : x ≠ (p :: l).getLast (cons_ne_nil _ _) := fun e => hx (e ▸ getLast_mem _)
  refine Chain.splice (k := []) (by rwa [append_nil]) hn (fun y hy hne => ?_) ?_
  · have hyx : y ≠ x := fun e => hx (e ▸ hy)
    rw [update_of_ne hne, update_of_ne hyx]
  · rw [update_self]
    refine ⟨rfl, hx0, ?_⟩
    rw [update_of_ne hlast, update_self]
    rfl

theorem Chain.unlink {m : List Nat} (h : Chain next (next p) (l ++ x :: m))
    (hn : (p :: (l ++ x :: m)).Nodup) :
    let next' := update next ((p :: l).getLast (cons_ne_nil _ _)) (next x)
    Chain next' (next' p) (l ++ m) := by
  obtain ⟨hpl, -, hdis⟩ := nodup_append.mp (show ((p :: l) ++ x :: m).Nodup from hn)
  refine Chain.splice h hpl (fun y _ hne => update_of_ne hne _ _) ?_
  rw [update_self]
  refine h.after.congr fun y hy => update_of_ne ?_ _ _
  exact fun e => hdis _ (getLast_mem _) y (mem_cons_of_mem _ hy) e.symm

def chainLast (next : Nat → Nat) : Nat → Nat → Nat
  | 0, p => p
  | fuel + 1, p => if p = 0 then p else if next p = 0 then p else chainLast next fuel (next p)

theorem Chain.last (h : Chain next p l) (hf : l.length ≤ fuel) :
    chainLast next fuel p = l.getLastD 0 := by
  induction fuel generalizing p l with
  | zero =>
    obtain rfl : l = [] := length_eq_zero_iff.mp (Nat.le_zero.mp hf)
    exact h
  | succ fuel ih =>
    cases l with
    | nil =>
      obtain rfl : p = 0 := h
      rfl
    | cons q l =>
      obtain ⟨rfl, hp, hc⟩ := h
      rw [chainLast, if_neg hp]
      cases l with
      | nil => rw [if_pos (show next p = 0 from hc)]; rfl
      | cons r l =>
        have hr : next p ≠ 0 := hc.1 ▸ hc.2.1
        rw [if_neg hr, ih hc (Nat.le_of_succ_le_succ hf)]
        rfl

def chainFind (next : Nat → Nat) (p : Nat → Bool) : Nat → Nat → Nat
  | 0, _ => 0
  | fuel + 1, q => if q = 0 then 0 else if p q then q else chainFind next p fuel (next q)

theorem Chain.find (h : Chain next q l) (p : Nat → Bool)
    (hf : l.length ≤ fuel) : chainFind next p fuel q = (l.find? p).getD 0 := by
  induction l generalizing fuel q with
  | nil =>
    obtain rfl : q = 0 := h
    cases fuel <;> rfl
  | cons x l ih =>
    obtain ⟨rfl, h0, ht⟩ := h
    obtain ⟨fuel, rfl⟩ : ∃ m, fuel = m + 1 :=
      Nat.exists_eq_add_one.mpr (lt_of_lt_of_le (by simp) hf)
    rw [chainFind, if_neg h0, List.find?_cons]
    by_cases hp : p q = true
    · simp [hp]
    · simp [hp, ih ht (Nat.le_of_succ_le_succ hf)]

theorem Chain.head_eq (h : Chain next p l) : p = l.headD 0 := by
  cases l with
  | nil => exact h
  | cons x l => exact h.1

theorem Chain.next_eq {r : List Nat} (h : Chain next p (l ++ x :: r)) : next x = r.headD 0 :=
  h.after.head_eq

/-! Families of lists without common members, one of which is replaced. -/

section Family

variable {ι : Type} [DecidableEq ι] {l : ι → List Nat} {k : ι} {m : List Nat}

theorem update_family {P : Nat → List Nat → Prop} {head : ι → Nat} {p : Nat} (hk : P p m)
    (hne : ∀ j ≠ k, P (head j) (l j)) (j : ι) : P (update head k p j) (update l k m j) := by
  by_cases hj : j = k
  · subst hj
    rwa [update_self, update_self]
  · rw [update_of_ne hj, update_of_ne hj]
    exact hne j hj

theorem nodup_family (h : ∀ j, (l j).Nodup) (hm : m.Nodup) : ∀ j, (update l k m j).Nodup :=
  (Function.forall_update_iff l fun _ l => l.Nodup).mpr ⟨hm, fun j _ => h j⟩

theorem apart_family (h : ∀ j j' x, x ∈ l j → x ∈ l j' → j = j') (hm : ∀ x ∈ m, ∀ j ≠ k, x ∉ l j)
    (j j' : ι) (x : Nat) (hx : x ∈ update l k m j) (hx' : x ∈ update l k m j') : j = j' := by
  by_cases hj : j = k <;> by_cases hj' : j' = k
  · exact hj.trans hj'.symm
  · rw [hj, update_self] at hx
    rw [update_of_ne hj'] at hx'
    exact absurd hx' (hm x hx j' hj')
  · rw [update_of_ne hj] at hx
    rw [hj', update_self] at hx'
    exact absurd hx (hm x hx' j hj)
  · rw [update_of_ne hj] at hx
    rw [update_of_ne hj'] at hx'
    exact h j j' x hx hx'

end Family

structure Chains {ι : Type} (next : Nat → Nat) (head : ι → Nat) (l : ι → List Nat) : Prop where
  chain : ∀ k, Chain next (head k) (l k)
  nodup : ∀ k, (l k).Nodup
  apart : ∀ k k' x, x ∈ l k → x ∈ l k' → k = k'

namespace Chains
variable {ι : Type} [DecidableEq ι] {next : Nat → Nat} {head : ι → Nat} {l : ι → List Nat}

theorem push (h : Chains next head l) (k : ι) {x : Nat} (hx : x ≠ 0) (hm : ∀ j, x ∉ l j) :
    Chains (update next x (head k)) (update head k x)
      (update l k (x :: l k)) := by
  have hfr : ∀ j, ∀ y ∈ l j, update next x (head k) y = next y := by
    intro j y hy
    have hyx : y ≠ x := fun e => hm j (e ▸ hy)
    exact update_of_ne hyx _ _
  refine ⟨update_family ((h.chain k).push hx (hm k)) fun j _ => (h.chain j).congr (hfr j),
    nodup_family h.nodup (nodup_cons.mpr ⟨hm k, h.nodup k⟩), apart_family h.apart ?_⟩
  exact forall_mem_cons.mpr ⟨fun j _ => hm j, fun y hy j hj hyj => hj (h.apart j k y hyj hy)⟩

theorem replace (h : Chains next head l) (k : ι) {next' : Nat → Nat} {p : Nat} {m : List Nat}
    (hc : Chain next' p m) (hm : m.Sublist (l k)) (hfr : ∀ y ∉ l k, next' y = next y) :
    Chains next' (update head k p) (update l k m) := by
  have hother : ∀ j ≠ k, ∀ y ∈ l j, y ∉ l k := fun j hj y hy hy' => hj (h.apart j k y hy hy')
  exact ⟨update_family hc fun j hj => (h.chain j).congr fun y hy => hfr y (hother j hj y hy),
    nodup_family h.nodup ((h.nodup k).sublist hm),
    apart_family h.apart fun y hy j hj hyj => hother j hj y hyj (hm.subset hy)⟩

theorem detach (h : Chains next head l) (k : ι) {fuel x : Nat} (hx : x ∈ l k)
    (hf : (l k).length ≤ fuel + 1) :
    Chains (chainDetach next fuel (head k) x).2 (update head k (chainDetach next fuel (head k) x).1)
      (update l k ((l k).erase x)) := by
  obtain ⟨h1, h2⟩ := (h.chain k).detach (h.nodup k) hx hf
  exact h.replace k h1 erase_sublist h2

end Chains

end Cervus.Lib
