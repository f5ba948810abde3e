import Mathlib.Data.List.Induction
import Cervus.Lib.Chain

/-! Doubly linked lists through `next` and `prev` links, with `0` for no node. -/

namespace Cervus.Lib

open List
open Function (update update_apply update_of_ne update_self)

structure Links where
  next : Nat → Nat
  prev : Nat → Nat

namespace Links

def setNext (L : Links) (x v : Nat) : Links := { L with next := update L.next x v }
def setPrev (L : Links) (x v : Nat) : Links := { L with prev := update L.prev x v }

def push (L : Links) (head x : Nat) : Links :=
  let L := (L.setNext x head).setPrev x 0
  if head ≠ 0 then L.setPrev head x else L

def unlink (L : Links) (x : Nat) : Links :=
  let L₁ := if L.prev x ≠ 0 then L.setNext (L.prev x) (L.next x) else L
  let L₂ := if L₁.next x ≠ 0 then L₁.setPrev (L₁.next x) (L₁.prev x) else L₁
  (L₂.setNext x 0).setPrev x 0

def insert (L : Links) (p x q : Nat) : Links :=
  let L := (L.setPrev x p).setNext x q
  let L := if p ≠ 0 then L.setNext p x else L
  if q ≠ 0 then L.setPrev q x else L

def headAfter (L : Links) (head x : Nat) : Nat := if L.prev x ≠ 0 then head else L.next x

theorem push_next (L : Links) (head x y : Nat) :
    (L.push head x).next y = if y = x then head else L.next y := by
  by_cases h : head = 0 <;> simp [push, setNext, setPrev, h, update_apply]

theorem push_prev (L : Links) (head x y : Nat) : (L.push head x).prev y =
      if head ≠ 0 ∧ y = head then x else if y = x then 0 else L.prev y := by
  by_cases h : head = 0 <;> simp [push, setNext, setPrev, h, update_apply]

theorem unlink_next (L : Links) (x y : Nat) : (L.unlink x).next y =
      if y = x then 0 else if L.prev x ≠ 0 ∧ y = L.prev x then L.next x else L.next y := by
  by_cases h : L.prev x = 0 <;> by_cases h' : L.next x = 0 <;>
    simp [unlink, setNext, setPrev, h, h', update_apply]

theorem unlink_prev (L : Links) (x y : Nat) : (L.unlink x).prev y =
      if y = x then 0 else if L.next x ≠ 0 ∧ y = L.next x then L.prev x else L.prev y := by
  by_cases h : L.prev x = 0 <;> by_cases h' : L.next x = 0 <;>
    simp [unlink, setNext, setPrev, h, h', update_apply]

theorem insert_next (L : Links) (p x q y : Nat) :
    (L.insert p x q).next y = if p ≠ 0 ∧ y = p then x else if y = x then q else L.next y := by
  by_cases h : p = 0 <;> by_cases h' : q = 0 <;>
    simp [insert, setNext, setPrev, h, h', update_apply]

theorem insert_prev (L : Links) (p x q y : Nat) :
    (L.insert p x q).prev y = if q ≠ 0 ∧ y = q then x else if y = x then p else L.prev y := by
  by_cases h : p = 0 <;> by_cases h' : q = 0 <;>
    simp [insert, setNext, setPrev, h, h', update_apply]

end Links

/-- From `head`, whose predecessor is `p`, the links visit `l` in order. -/
def DList (L : Links) : Nat → Nat → List Nat → Prop
  | _, head, [] => head = 0
  | p, head, x :: l => head = x ∧ x ≠ 0 ∧ L.prev x = p ∧ DList L x (L.next x) l

namespace DList

variable {L : Links} {l r : List Nat} {x y : Nat} {head p : Nat}

section
variable (h : DList L p head l)
include h

theorem congr {L' : Links} (hn : ∀ x ∈ l, L'.next x = L.next x)
    (hp : ∀ x ∈ l, L'.prev x = L.prev x) :
    DList L' p head l := by
  induction l generalizing p head with
  | nil => exact h
  | cons x l ih =>
    obtain ⟨hh, h0, hx, ht⟩ := h
    refine ⟨hh, h0, (hp x (by simp)).trans hx, ?_⟩
    rw [hn x (by simp)]
    exact ih ht (fun y hy => hn y (by simp [hy])) (fun y hy => hp y (by simp [hy]))

theorem ne_zero (hx : x ∈ l) : x ≠ 0 := by
  induction l generalizing p head with
  | nil => simp at hx
  | cons y l ih =>
    rcases mem_cons.mp hx with rfl | hx
    · exact h.2.1
    · exact ih h.2.2.2 hx

theorem head_eq : head = l.headD 0 := by
  cases l with
  | nil => exact h
  | cons x l => exact h.1

theorem head_eq_zero_iff : head = 0 ↔ l = [] := by
  cases l with
  | nil => simp [show head = 0 from h]
  | cons x l =>
    obtain ⟨rfl, h0, -⟩ := h
    simp [h0]

theorem prev_mem (hx : x ∈ l) (hne : head ≠ x) : L.prev x ∈ l := by
  induction l generalizing p head with
  | nil => simp at hx
  | cons y l ih =>
    obtain ⟨rfl, h0, -, ht⟩ := h
    have hx' : x ∈ l := (mem_cons.mp hx).resolve_left (Ne.symm hne)
    by_cases hn : L.next head = x
    · cases l with
      | nil => simp at hx'
      | cons z l =>
        obtain ⟨hz, -, hp, -⟩ := ht
        rw [show x = z from hn ▸ hz, hp]
        simp
    · exact mem_cons_of_mem _ (ih ht hx' hn)

theorem prev_head (hm : head ∈ l) : L.prev head = p := by
  cases l with
  | nil => simp at hm
  | cons x l => exact h.1 ▸ h.2.2.1

theorem next_mem (hx : x ∈ l) : L.next x = 0 ∨ L.next x ∈ l := by
  induction l generalizing p head with
  | nil => simp at hx
  | cons y l ih =>
    obtain ⟨rfl, h0, -, ht⟩ := h
    rcases mem_cons.mp hx with rfl | hx
    · cases l with
      | nil => exact .inl ht
      | cons z l => exact .inr (by rw [ht.1]; simp)
    · exact (ih ht hx).imp_right (mem_cons_of_mem _)

end

theorem unlink_head (h : DList L p x (x :: l)) (hn : (p :: x :: l).Nodup) :
    DList (L.unlink x) p (L.next x) l := by
  obtain ⟨-, -, hp, ht⟩ := h
  cases l with
  | nil => exact ht
  | cons z l =>
    obtain ⟨hz, hz0, -, ht⟩ := ht
    simp only [nodup_cons, mem_cons, not_or] at hn
    obtain ⟨⟨hpx, hpz, hpl⟩, ⟨hxz, hxl⟩, hzl, -⟩ := hn
    refine ⟨hz, hz0, by rw [Links.unlink_prev, if_neg (Ne.symm hxz), hz, if_pos ⟨hz0, rfl⟩, hp], ?_⟩
    rw [Links.unlink_next, if_neg (Ne.symm hxz), hp, if_neg (fun e => hpz e.2.symm)]
    apply ht.congr
    · intro w hw
      have hwx : w ≠ x := fun e => hxl (e ▸ hw)
      have hwp : w ≠ p := fun e => hpl (e ▸ hw)
      rw [Links.unlink_next, if_neg hwx, hp, if_neg (fun e => hwp e.2)]
    · intro w hw
      have hwx : w ≠ x := fun e => hxl (e ▸ hw)
      have hwz : w ≠ z := fun e => hzl (e ▸ hw)
      rw [Links.unlink_prev, if_neg hwx, hz, if_neg (fun e => hwz e.2)]

theorem unlink (h : DList L p head l) (hn : (p :: l).Nodup) (hx : x ∈ l) :
    DList (L.unlink x) p (if head = x then L.next x else head) (l.erase x) := by
  induction l generalizing p head with
  | nil => simp at hx
  | cons y l ih =>
    obtain rfl := h.1
    by_cases hxy : head = x
    · subst hxy
      rw [if_pos rfl, erase_cons_head]
      exact unlink_head h hn
    obtain ⟨-, h0, hp, ht⟩ := h
    have hxl : x ∈ l := (mem_cons.mp hx).resolve_left (Ne.symm hxy)
    obtain ⟨-, hnl⟩ := nodup_cons.mp hn
    have hhl : head ∉ l := (nodup_cons.mp hnl).1
    rw [if_neg hxy, erase_cons_tail (by simpa using hxy)]
    refine ⟨rfl, h0, ?_, ?_⟩
    · rw [Links.unlink_prev, if_neg hxy, if_neg, hp]
      rintro ⟨hn0, he⟩
      rcases ht.next_mem hxl with hz | hz
      · exact hn0 hz
      · exact hhl (he ▸ hz)
    · -- the node before `x` is `head` exactly when `x` comes right after it
      have hiff : (L.prev x ≠ 0 ∧ head = L.prev x) ↔ L.next head = x := by
        constructor
        · rintro ⟨-, he⟩
          by_contra hne
          exact hhl (he ▸ ht.prev_mem hxl hne)
        · intro he
          have := ht.prev_head (he ▸ hxl)
          rw [he] at this
          exact ⟨this ▸ h0, this.symm⟩
      rw [Links.unlink_next, if_neg hxy]
      simp only [hiff]
      exact ih ht hnl hxl

theorem insert_front (h : DList L p head l) (hn : (p :: l).Nodup) (hx : x ≠ 0) (hm : x ∉ p :: l) :
    DList (L.insert p x head) p x (x :: l) := by
  simp only [mem_cons, not_or] at hm
  obtain ⟨hpl, hnl⟩ := nodup_cons.mp hn
  have hnext : ∀ y ∈ l, (L.insert p x head).next y = L.next y := by
    intro y hy
    have hyp : y ≠ p := fun e => hpl (e ▸ hy)
    have hyx : y ≠ x := fun e => hm.2 (e ▸ hy)
    rw [Links.insert_next, if_neg (fun e => hyp e.2), if_neg hyx]
  have hxh : head ≠ 0 → head ∈ l := by
    intro h0
    cases l with
    | nil => exact absurd h h0
    | cons y l => simp [h.1]
  refine ⟨rfl, hx, ?_, ?_⟩
  · have hxe : ¬ (head ≠ 0 ∧ x = head) := fun e => hm.2 (e.2 ▸ hxh e.1)
    rw [Links.insert_prev, if_neg hxe, if_pos rfl]
  rw [Links.insert_next, if_neg (fun e => hm.1 e.2), if_pos rfl]
  cases l with
  | nil => exact h
  | cons y l =>
    obtain ⟨rfl, h0, hp, ht⟩ := h
    obtain ⟨hyl, -⟩ := nodup_cons.mp hnl
    refine ⟨rfl, h0, by rw [Links.insert_prev, if_pos ⟨h0, rfl⟩], ?_⟩
    rw [hnext head (by simp)]
    apply ht.congr
    · exact fun z hz => hnext z (by simp [hz])
    · intro z hz
      have hzh : z ≠ head := fun e => hyl (e ▸ hz)
      have hzx : z ≠ x := fun e => hm.2 (by simp [← e, hz])
      rw [Links.insert_prev, if_neg (fun e => hzh e.2), if_neg hzx]

section
variable (h : DList L 0 head l)
include h

theorem zero_nodup (hn : l.Nodup) : (0 :: l).Nodup :=
  nodup_cons.mpr ⟨fun hm => h.ne_zero hm rfl, hn⟩

theorem push (hn : l.Nodup) (hx : x ≠ 0) (hm : x ∉ l) : DList (L.push head x) 0 x (x :: l) :=
  -- a push is an insertion behind no node
  h.insert_front (h.zero_nodup hn) hx (by simp [hx, hm])

theorem remove (hn : l.Nodup) (hx : x ∈ l) :
    DList (L.unlink x) 0 (L.headAfter head x) (l.erase x) := by
  have hu := h.unlink (h.zero_nodup hn) hx
  by_cases hh : head = x
  · have hp := h.prev_head (hh ▸ hx)
    rw [if_pos hh] at hu
    rwa [Links.headAfter, ← hh, hp, if_neg (not_not.mpr rfl), hh]
  · have hp := h.ne_zero (h.prev_mem hx hh)
    rw [if_neg hh] at hu
    rwa [Links.headAfter, if_pos hp]

theorem unlink_frame (hx : x ∈ l) (hy : y ∉ l) :
    (L.unlink x).next y = L.next y ∧ (L.unlink x).prev y = L.prev y := by
  have hyx : y ≠ x := fun e => hy (e ▸ hx)
  constructor
  · rw [Links.unlink_next, if_neg hyx, if_neg]
    rintro ⟨hp0, he⟩
    by_cases hh : head = x
    · exact hp0 (hh ▸ h.prev_head (hh ▸ hx))
    · exact hy (he ▸ h.prev_mem hx hh)
  · rw [Links.unlink_prev, if_neg hyx, if_neg]
    rintro ⟨hn0, he⟩
    rcases h.next_mem hx with hz | hz
    · exact hn0 hz
    · exact hy (he ▸ hz)

theorem push_frame (hyx : y ≠ x) (hy : y ∉ l) :
    (L.push head x).next y = L.next y ∧ (L.push head x).prev y = L.prev y := by
  refine ⟨by rw [Links.push_next, if_neg hyx], ?_⟩
  rw [Links.push_prev, if_neg, if_neg hyx]
  rintro ⟨h0, rfl⟩
  cases l with
  | nil => exact h0 h
  | cons z l => exact hy (by simp [h.1])

end

theorem getLastD_mem (hl : l ≠ []) : l.getLastD p ∈ l := by
  rw [getLastD_eq_getLast?, List.getLast?_eq_some_getLast hl]
  exact getLast_mem hl

theorem insert (h : DList L p head (l ++ r)) (hn : (p :: (l ++ r)).Nodup) (hx : x ≠ 0)
    (hm : x ∉ p :: (l ++ r)) :
    DList (L.insert (l.getLastD p) x (r.headD 0)) p (if l = [] then x else head) (l ++ x :: r) := by
  induction l generalizing p head with
  | nil =>
    have hh : head = r.headD 0 := h.head_eq
    rw [← hh]
    exact h.insert_front hn hx hm
  | cons y l ih =>
    obtain ⟨rfl, h0, hp, ht⟩ := h
    obtain ⟨hpl, hnl⟩ := nodup_cons.mp hn
    have hm' : x ∉ head :: (l ++ r) := fun hc => hm (mem_cons_of_mem _ hc)
    have hi := ih ht hnl hm'
    have hhx : head ≠ x := fun e => hm' (by simp [e])
    have hhl := (nodup_cons.mp hnl).1
    rw [getLastD_cons, if_neg (cons_ne_nil _ _)]
    refine ⟨rfl, h0, ?_, ?_⟩
    · rw [Links.insert_prev, if_neg, if_neg hhx, hp]
      rintro ⟨hr, rfl⟩
      cases r with
      | nil => exact hr rfl
      | cons z r => exact hhl (by simp)
    · rw [Links.insert_next, if_neg hhx]
      cases l with
      | nil => simpa [h0] using hi
      | cons z l =>
        rw [if_neg]
        · simpa using hi
        · rintro ⟨-, he⟩
          exact hhl (mem_append_left _ (he ▸ getLastD_mem (cons_ne_nil z l)))

theorem prev_eq (h : DList L p head (l ++ x :: r)) : L.prev x = l.getLastD p := by
  induction l generalizing p head with
  | nil => exact h.2.2.1
  | cons y l ih =>
    rw [getLastD_cons]
    exact ih h.2.2.2

theorem next_eq (h : DList L p head (l ++ x :: r)) : L.next x = r.headD 0 := by
  induction l generalizing p head with
  | nil => exact h.2.2.2.head_eq
  | cons y l ih => exact ih h.2.2.2

end DList

/-- From `head` to `tail` the links visit `l`. -/
structure Deque (L : Links) (head tail : Nat) (l : List Nat) : Prop where
  list : DList L 0 head l
  nodup : l.Nodup
  tail : tail = l.getLastD 0

namespace Deque
variable {L : Links} {head tail i : Nat} {l r : List Nat}

theorem chain_prev (h : DList L 0 head (l ++ r)) : Chain L.prev (l.getLastD 0) l.reverse := by
  induction l using List.reverseRecOn generalizing r with
  | nil => rfl
  | append_singleton l x ih =>
    rw [append_assoc, singleton_append] at h
    rw [reverse_append, reverse_singleton, singleton_append, getLastD_concat]
    refine ⟨rfl, h.ne_zero (by simp), ?_⟩
    rw [h.prev_eq]
    exact ih h

variable (h : Deque L head tail l)
include h

theorem tail_eq_zero_iff : tail = 0 ↔ l = [] := by
  rw [h.tail]
  constructor
  · intro h0
    by_contra hl
    exact h.list.ne_zero (DList.getLastD_mem hl) h0
  · rintro rfl
    rfl

theorem tail_iff_head : tail = 0 ↔ head = 0 :=
  h.tail_eq_zero_iff.trans h.list.head_eq_zero_iff.symm

theorem unlink (hi : i ∈ l) :
    Deque (L.unlink i) (L.headAfter head i) (if L.next i ≠ 0 then tail else L.prev i)
      (l.erase i) := by
  refine ⟨h.list.remove h.nodup hi, h.nodup.erase i, ?_⟩
  obtain ⟨l1, r, rfl⟩ := append_of_mem hi
  have hl1 : i ∉ l1 := fun hm => (nodup_append.mp h.nodup).2.2 i hm i mem_cons_self rfl
  rw [erase_append_right _ hl1, erase_cons_head]
  simp only [h.list.next_eq, h.list.prev_eq, h.tail]
  cases r with
  | nil => simp
  | cons x r =>
    have hx : x ≠ 0 := h.list.ne_zero (by simp)
    simp [hx, getLastD_eq_getLast?, List.getLast?_append, List.getLast?_cons]

theorem front (hi : i ∉ l) (h0 : i ≠ 0) :
    Deque (L.push head i) i (if tail = 0 then i else tail) (i :: l) := by
  refine ⟨h.list.push h.nodup h0 hi, nodup_cons.mpr ⟨hi, h.nodup⟩, ?_⟩
  rw [getLastD_cons]
  split_ifs with ht
  · rw [h.tail_eq_zero_iff.mp ht]
    rfl
  · have hl : l ≠ [] := fun e => ht (h.tail_eq_zero_iff.mpr e)
    rw [h.tail, getLastD_eq_getLast?, getLastD_eq_getLast?, List.getLast?_eq_some_getLast hl]
    rfl

theorem reverse : Chain L.prev tail l.reverse := by
  rw [h.tail]
  exact chain_prev (r := []) (by rw [append_nil]; exact h.list)

end Deque

theorem mem_update_cons {ι : Type} [DecidableEq ι] {l : ι → List Nat} {k j : ι} {x y : Nat} :
    y ∈ update l k (x :: l k) j ↔ (j = k ∧ y = x) ∨ y ∈ l j := by
  by_cases hj : j = k
  · subst hj
    simp
  · simp [hj]

structure DLists {ι : Type} (L : Links) (head : ι → Nat) (l : ι → List Nat) : Prop where
  list : ∀ k, DList L 0 (head k) (l k)
  nodup : ∀ k, (l k).Nodup
  apart : ∀ k k' x, x ∈ l k → x ∈ l k' → k = k'

namespace DLists
variable {ι : Type} {L : Links} {head : ι → Nat} {l : ι → List Nat}

theorem congr {L' : Links} (h : DLists L head l)
    (hn : ∀ k, ∀ x ∈ l k, L'.next x = L.next x) (hp : ∀ k, ∀ x ∈ l k, L'.prev x = L.prev x) :
    DLists L' head l :=
  ⟨fun k => (h.list k).congr (hn k) (hp k), h.nodup, h.apart⟩

variable [DecidableEq ι]

theorem push (h : DLists L head l) (k : ι) {x : Nat} (hx : x ≠ 0) (hm : ∀ j, x ∉ l j) :
    DLists (L.push (head k) x) (update head k x) (update l k (x :: l k)) := by
  have hother : ∀ j ≠ k, ∀ y ∈ l j, y ∉ l k := fun j hj y hy hy' => hj (h.apart j k y hy hy')
  refine ⟨update_family ((h.list k).push (h.nodup k) hx (hm k)) fun j hj => ?_,
    nodup_family h.nodup (nodup_cons.mpr ⟨hm k, h.nodup k⟩), apart_family h.apart ?_⟩
  · have hfr : ∀ y ∈ l j, _ := fun y hy =>
      (h.list k).push_frame (x := x) (fun e => hm j (e ▸ hy)) (hother j hj y hy)
    exact (h.list j).congr (fun y hy => (hfr y hy).1) (fun y hy => (hfr y hy).2)
  · exact forall_mem_cons.mpr ⟨fun j _ => hm j, fun y hy j hj hyj => hother j hj y hyj hy⟩

theorem remove (h : DLists L head l) (k : ι) {x : Nat} (hx : x ∈ l k) :
    DLists (L.unlink x) (update head k (L.headAfter (head k) x))
      (update l k ((l k).erase x)) := by
  have hother : ∀ j ≠ k, ∀ y ∈ l j, y ∉ l k := fun j hj y hy hy' => hj (h.apart j k y hy hy')
  refine ⟨update_family ((h.list k).remove (h.nodup k) hx) fun j hj =>
    ?_, nodup_family h.nodup ((h.nodup k).erase x),
    apart_family h.apart fun y hy j hj hyj => hother j hj y hyj (mem_of_mem_erase hy)⟩
  have hfr : ∀ y ∈ l j, _ := fun y hy => (h.list k).unlink_frame hx (hother j hj y hy)
  exact (h.list j).congr (fun y hy => (hfr y hy).1) (fun y hy => (hfr y hy).2)

end DLists
end Cervus.Lib
