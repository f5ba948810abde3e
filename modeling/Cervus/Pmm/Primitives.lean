import Mathlib.Algebra.BigOperators.Group.Finset.Basic
import Mathlib.Algebra.Ring.Divisibility.Basic
import Mathlib.Tactic.Abel
import Cervus.Lib.Block
import Cervus.Pmm.Model

/-! The representation invariant of the buddy allocator. The pages on the free
lists and the pages held elsewhere (`rest`) make up a fixed pool, each page once.
Disjointness, conservation and the meaning of `g_fstate` all follow from this. -/

namespace Cervus.Pmm

open Cervus.Lib Nat

section
open Finset

def pagesOf (phys order : Nat) : Multiset Nat := block (phys / pageSize) order

def listPages (order : Nat) (blocks : List Nat) : Multiset Nat :=
  (blocks.map (pagesOf · order)).sum

def freePagesOf (s : Buddy) : Multiset Nat :=
  ∑ o ∈ range (maxOrder + 1), listPages o (s.orders o).blocks

structure Inv (pool : Finset Nat) (s : Buddy) (rest : Multiset Nat) : Prop where
  partition : freePagesOf s + rest = pool.val
  inRange : ∀ p ∈ pool, freeMinPhys ≤ p * pageSize ∧ p * pageSize < s.memEnd
  memStart : s.memStart = 0
  aligned : ∀ o ≤ maxOrder, ∀ b ∈ (s.orders o).blocks, blockBytes o ∣ b
  header : ∀ o ≤ maxOrder, ∀ b ∈ (s.orders o).blocks, s.blockOrder b = o
  count : ∀ o ≤ maxOrder, (s.orders o).count = (s.orders o).blocks.length
  fstate : ∃ f, s.fstate = some f ∧ (∀ p, f p ≤ maxOrder + 1) ∧
    ∀ p, ∀ o ≤ maxOrder, f p = o + 1 ↔ p * pageSize ∈ (s.orders o).blocks

theorem blockBytes_eq (o : Nat) : blockBytes o = pageSize * 2 ^ o := shiftLeft_eq _ _

theorem pageSize_pos : 0 < pageSize := by decide

variable {b o : Nat} {l : List Nat}

theorem div_mul_of_aligned (h : blockBytes o ∣ b) : b / pageSize * pageSize = b := by
  rw [blockBytes_eq] at h
  exact Nat.div_mul_cancel (dvd_of_mul_right_dvd h)

theorem shift_eq_div (phys : Nat) : phys >>> pageShift = phys / pageSize :=
  shiftRight_eq_div_pow phys 12

theorem head_mem_pagesOf (b o : Nat) : b / pageSize ∈ pagesOf b o := head_mem_block _ _

theorem pagesOf_succ (b o : Nat) :
    pagesOf b (o + 1) = pagesOf b o + pagesOf (b + blockBytes o) o := by
  rw [pagesOf, pagesOf, pagesOf, blockBytes_eq, add_mul_div_left _ _ pageSize_pos, block_succ]

theorem listPages_cons (o b : Nat) (l : List Nat) :
    listPages o (b :: l) = pagesOf b o + listPages o l := by
  simp [listPages]

theorem listPages_erase (h : b ∈ l) : listPages o l = pagesOf b o + listPages o (l.erase b) := by
  exact ((List.perm_cons_erase h).map _).sum_eq

theorem mem_listPages {p : Nat} : p ∈ listPages o l ↔ ∃ b ∈ l, p ∈ pagesOf b o := mem_sum_map

theorem mem_freePagesOf {s : Buddy} {p : Nat} :
    p ∈ freePagesOf s ↔ ∃ o ≤ maxOrder, ∃ b ∈ (s.orders o).blocks, p ∈ pagesOf b o := by
  simp only [freePagesOf, Multiset.mem_sum, Finset.mem_range, Nat.lt_succ_iff, mem_listPages]

theorem freePagesOf_replace (s s' : Buddy) {fl : FreeList} (ho : o ≤ maxOrder)
    (h : s'.orders = Function.update s.orders o fl) :
    freePagesOf s' + listPages o (s.orders o).blocks = freePagesOf s + listPages o fl.blocks := by
  have hm : o ∈ range (maxOrder + 1) := Finset.mem_range.mpr (lt_succ_of_le ho)
  have hc : ∑ x ∈ (range (maxOrder + 1)).erase o, listPages x (s'.orders x).blocks =
      ∑ x ∈ (range (maxOrder + 1)).erase o, listPages x (s.orders x).blocks := by
    refine Finset.sum_congr rfl fun x hx => ?_
    rw [h, Function.update_of_ne (Finset.ne_of_mem_erase hx)]
  rw [freePagesOf, freePagesOf, ← Finset.add_sum_erase _ _ hm, ← Finset.add_sum_erase _ _ hm, hc, h,
    Function.update_self]
  abel

theorem freePagesOf_flPush (s : Buddy) (ho : o ≤ maxOrder) (b : Nat) :
    freePagesOf (flPush s o b) = pagesOf b o + freePagesOf s := by
  have h := freePagesOf_replace s (flPush s o b) ho rfl
  rw [listPages_cons, ← add_assoc] at h
  exact (add_right_cancel h).trans (add_comm _ _)

theorem freePagesOf_flDel {s : Buddy} (ho : o ≤ maxOrder) (hb : b ∈ (s.orders o).blocks) :
    freePagesOf s = pagesOf b o + freePagesOf (flDel s o b) := by
  have h := freePagesOf_replace s (flDel s o b) ho rfl
  rw [listPages_erase hb, ← add_assoc] at h
  exact ((add_right_cancel h).symm.trans (add_comm _ _))

namespace Inv

variable {pool : Finset Nat} {s : Buddy} {rest : Multiset Nat} {b o : Nat} (h : Inv pool s rest)

include h

theorem nodup : (freePagesOf s + rest).Nodup := h.partition ▸ pool.nodup

theorem mem_pool_of_rest {p : Nat} (hp : p ∈ rest) : p ∈ pool := by
  have hm : p ∈ freePagesOf s + rest := Multiset.mem_add.mpr (.inr hp)
  rwa [h.partition] at hm

variable (ho : o ≤ maxOrder) (hb : b ∈ (s.orders o).blocks)
include ho hb

theorem mem_pool_of_free {p : Nat} (hp : p ∈ pagesOf b o) : p ∈ pool := by
  have hm : p ∈ freePagesOf s + rest :=
    Multiset.mem_add.mpr (.inl (mem_freePagesOf.mpr ⟨o, ho, b, hb, hp⟩))
  rwa [h.partition] at hm

theorem not_free_of_rest {p : Nat} (hp : p ∈ pagesOf b o) : p ∉ rest := by
  intro hr
  have hd := (Multiset.nodup_add.mp h.nodup).2.2
  exact Multiset.disjoint_left.mp hd (mem_freePagesOf.mpr ⟨o, ho, b, hb, hp⟩) hr

theorem flDel_apart {p : Nat} (hp : p ∈ pagesOf b o) : p ∉ freePagesOf (flDel s o b) := by
  intro hm
  have hn := (Multiset.nodup_add.mp h.nodup).1
  rw [freePagesOf_flDel ho hb] at hn
  exact Multiset.disjoint_left.mp (Multiset.nodup_add.mp hn).2.2 hp hm

theorem blocks_disjoint {o' b' p : Nat} (ho' : o' ≤ maxOrder) (hb' : b' ∈ (s.orders o').blocks)
    (hp : p ∈ pagesOf b o) (hp' : p ∈ pagesOf b' o') : o = o' ∧ b = b' := by
  by_contra hne
  refine h.flDel_apart ho hb hp (mem_freePagesOf.mpr ⟨o', ho', b', ?_, hp'⟩)
  by_cases he : o' = o
  · subst he
    have hbb : b' ≠ b := fun e => hne ⟨rfl, e.symm⟩
    simpa [flDel] using (List.mem_erase_of_ne hbb).mpr hb'
  · simpa [flDel, he] using hb'

theorem not_mem_erase : b ∉ (s.orders o).blocks.erase b := fun hm =>
  h.flDel_apart ho hb (head_mem_pagesOf b o)
    (mem_freePagesOf.mpr ⟨o, ho, b, by simpa [flDel] using hm, head_mem_pagesOf b o⟩)

end Inv

end

/-! What the list primitives, splitting and coalescing do to the invariant. A
block taken off a list moves to `rest`; a block pushed leaves it. -/

open List Function

namespace Inv

variable {pool : Finset Nat} {s : Buddy} {rest : Multiset Nat}

theorem setFreePages (h : Inv pool s rest) (n : Nat) : Inv pool { s with freePages := n } rest :=
  ⟨h.partition, h.inRange, h.memStart, h.aligned, h.header, h.count, h.fstate⟩

theorem flPush {o b : Nat}
    (h : Inv pool s (pagesOf b o + rest)) (ho : o ≤ maxOrder) (hal : blockBytes o ∣ b) :
    Inv pool (flPush s o b) rest := by
  obtain ⟨f, hf, hle, hiff⟩ := h.fstate
  have hbp := div_mul_of_aligned hal
  have hnot : ∀ o' ≤ maxOrder, b ∉ (s.orders o').blocks := fun o' ho' hm =>
    h.not_free_of_rest ho' hm (head_mem_pagesOf b o')
      (Multiset.mem_add.mpr (.inl (head_mem_pagesOf b o)))
  have hord : ∀ o' c, c ∈ ((Pmm.flPush s o b).orders o').blocks ↔
      (o' = o ∧ c = b) ∨ c ∈ (s.orders o').blocks := by
    intro o' c
    by_cases he : o' = o
    · subst he; simp [Pmm.flPush]
    · simp [Pmm.flPush, he]
  refine ⟨?_, h.inRange, h.memStart, ?_, ?_, ?_, ?_⟩
  · rw [freePagesOf_flPush s ho, ← h.partition]
    abel
  · intro o' ho' c hc
    rcases (hord o' c).mp hc with ⟨rfl, rfl⟩ | hc
    · exact hal
    · exact h.aligned o' ho' c hc
  · intro o' ho' c hc
    rcases (hord o' c).mp hc with ⟨rfl, rfl⟩ | hc
    · simp [Pmm.flPush]
    · have hne : c ≠ b := fun e => hnot o' ho' (e ▸ hc)
      simpa [Pmm.flPush, hne] using h.header o' ho' c hc
  · intro o' ho'
    by_cases he : o' = o
    · subst he; simpa [Pmm.flPush] using h.count o' ho'
    · simpa [Pmm.flPush, he] using h.count o' ho'
  · refine ⟨update f (b / pageSize) (o + 1), ?_, ?_, ?_⟩
    · simp [Pmm.flPush, setFstate, hf, shift_eq_div]
    · intro p
      by_cases he : p = b / pageSize
      · subst he; simpa using ho
      · simpa [he] using hle p
    intro p o' ho'
    rw [hord]
    by_cases he : p = b / pageSize
    · subst he
      rw [Function.update_self, hbp]
      have := hnot o' ho'
      constructor
      · intro e; exact .inl ⟨by omega, rfl⟩
      · rintro (⟨rfl, -⟩ | hm)
        · rfl
        · exact absurd hm this
    · have hne : p * pageSize ≠ b := fun e =>
        he (by rw [← e, Nat.mul_div_cancel _ pageSize_pos])
      rw [Function.update_of_ne he, hiff p o' ho']
      simp [hne]

theorem flDel {o b : Nat} (h : Inv pool s rest) (ho : o ≤ maxOrder) (hb : b ∈ (s.orders o).blocks) :
    Inv pool (flDel s o b) (pagesOf b o + rest) := by
  obtain ⟨f, hf, hle, hiff⟩ := h.fstate
  have hbp := div_mul_of_aligned (h.aligned o ho b hb)
  have hnot : ∀ o' ≤ maxOrder, b ∉ ((Pmm.flDel s o b).orders o').blocks := fun o' ho' hm =>
    h.flDel_apart ho hb (head_mem_pagesOf b o)
      (mem_freePagesOf.mpr ⟨o', ho', b, hm, head_mem_pagesOf b o'⟩)
  have hsub : ∀ o' c, c ∈ ((Pmm.flDel s o b).orders o').blocks → c ∈ (s.orders o').blocks := by
    intro o' c hc
    by_cases he : o' = o
    · subst he
      have hc' : c ∈ (s.orders o').blocks.erase b := by simpa [Pmm.flDel] using hc
      exact mem_of_mem_erase hc'
    · simpa [Pmm.flDel, he] using hc
  refine ⟨?_, h.inRange, h.memStart, ?_, ?_, ?_, ?_⟩
  · rw [← h.partition, freePagesOf_flDel ho hb]
    abel
  · exact fun o' ho' c hc => h.aligned o' ho' c (hsub o' c hc)
  · intro o' ho' c hc
    have hne : c ≠ b := fun e => hnot o' ho' (e ▸ hc)
    simpa [Pmm.flDel, hne] using h.header o' ho' c (hsub o' c hc)
  · intro o' ho'
    by_cases he : o' = o
    · subst he
      simp [Pmm.flDel, h.count o' ho', length_erase_of_mem hb]
    · simpa [Pmm.flDel, he] using h.count o' ho'
  · refine ⟨update f (b / pageSize) 0, ?_, ?_, ?_⟩
    · simp [Pmm.flDel, setFstate, hf, shift_eq_div]
    · intro p
      by_cases he : p = b / pageSize
      · subst he; simp
      · simpa [he] using hle p
    · intro p o' ho'
      by_cases he : p = b / pageSize
      · subst he
        rw [Function.update_self, hbp]
        exact iff_of_false (by omega) (hnot o' ho')
      · have hne : p * pageSize ≠ b := fun e =>
          he (by rw [← e, Nat.mul_div_cancel _ pageSize_pos])
        rw [Function.update_of_ne he, hiff p o' ho']
        by_cases heo : o' = o
        · subst heo; simp [Pmm.flDel, mem_erase_of_ne hne]
        · simp [Pmm.flDel, heo]

end Inv

theorem blockBytes_two_pow (o : Nat) : blockBytes o = 2 ^ (pageShift + o) := by
  rw [blockBytes_eq, pow_add]
  rfl

variable {pool : Finset Nat} {b o order phys : Nat} {s : Buddy} {rest : Multiset Nat}

theorem blockBytes_pos (o : Nat) : 0 < blockBytes o := by
  rw [blockBytes_two_pow]
  exact Nat.two_pow_pos _

theorem blockBytes_dvd {o o' : Nat} (h : o ≤ o') : blockBytes o ∣ blockBytes o' := by
  rw [blockBytes_two_pow, blockBytes_two_pow]
  exact pow_dvd_pow 2 (by omega)

theorem xor_of_next_aligned {o b : Nat} (h : blockBytes (o + 1) ∣ b) :
    b ^^^ blockBytes o = b + blockBytes o := by
  rw [blockBytes_two_pow] at h ⊢
  rcases xor_two_pow_cases ((pow_dvd_pow 2 (le_succ _)).trans h) with ⟨-, hx⟩ | ⟨hd, hx⟩
  · exact hx
  · rw [← hx] at h
    have hle := Nat.le_of_dvd (Nat.two_pow_pos _) ((Nat.dvd_add_right hd).mp h)
    exact absurd hle (Nat.not_le_of_lt (Nat.pow_lt_pow_right (by decide) (Nat.lt_succ_self _)))

theorem buddy_cases (h : blockBytes o ∣ phys) :
    blockBytes (o + 1) ∣ min phys (phys ^^^ blockBytes o) ∧
      pagesOf (min phys (phys ^^^ blockBytes o)) (o + 1) =
        pagesOf phys o + pagesOf (phys ^^^ blockBytes o) o := by
  rw [blockBytes_two_pow] at h
  have hpos : 0 < blockBytes o := by rw [blockBytes_two_pow]; exact Nat.two_pow_pos _
  rcases xor_two_pow_cases h with ⟨hd, hx⟩ | ⟨hd, hx⟩ <;>
    rw [← blockBytes_two_pow] at hx
  · rw [hx, min_eq_left (by omega)]
    exact ⟨by rw [blockBytes_two_pow]; exact hd, pagesOf_succ phys o⟩
  · rw [min_eq_right (by omega)]
    refine ⟨by rw [blockBytes_two_pow o, blockBytes_two_pow]; exact hd, ?_⟩
    rw [pagesOf_succ, hx, add_comm]

theorem pageSize_dvd_buddy (hal : blockBytes order ∣ phys) :
    pageSize ∣ phys ^^^ blockBytes order := by
  have h12 : pageSize = 2 ^ pageShift := rfl
  have hp : pageSize ∣ phys := (Dvd.intro _ (blockBytes_eq order).symm).trans hal
  have hb : pageSize ∣ blockBytes order := Dvd.intro _ (blockBytes_eq order).symm
  rw [h12] at hp hb ⊢
  exact dvd_of_mod_eq_zero (by
    rw [xor_mod_two_pow, mod_eq_zero_of_dvd hp, mod_eq_zero_of_dvd hb]; rfl)

theorem phys_ge_of_rest (h : Inv pool s (pagesOf phys order + rest))
    (hal : blockBytes order ∣ phys) :
    freeMinPhys ≤ phys ∧ phys < s.memEnd := by
  have hm := h.mem_pool_of_rest (Multiset.mem_add.mpr (.inl (head_mem_pagesOf phys order)))
  have hr := h.inRange _ hm
  rwa [div_mul_of_aligned hal] at hr

theorem findOrder_eq_some {k found : Nat} (h : findOrder s k o = some found) :
    o ≤ found ∧ found < o + k ∧ (s.orders found).blocks ≠ [] := by
  induction k generalizing o with
  | zero => simp [findOrder] at h
  | succ k ih =>
    simp only [findOrder] at h
    split_ifs at h with hs
    · cases h
      refine ⟨le_rfl, by omega, ?_⟩
      intro he
      simp [flFirst, he] at hs
    · have := ih h
      exact ⟨by omega, by omega, this.2.2⟩

theorem blockPtrValid_of_inv (h : Inv pool s rest) (ho : o ≤ maxOrder)
    (hb : b ∈ (s.orders o).blocks) :
    blockPtrValid s (some b) = true := by
  have hal := h.aligned o ho b hb
  have hr := h.inRange _ (h.mem_pool_of_free ho hb (head_mem_pagesOf b o))
  rw [div_mul_of_aligned hal] at hr
  have hpg : b % pageSize = 0 :=
    mod_eq_zero_of_dvd ((Dvd.intro _ (blockBytes_eq o).symm).trans hal)
  simp [blockPtrValid, h.memStart, hpg, hr.2]

/-! What a search of the free lists relies on. -/

structure Usable (s : Buddy) : Prop where
  valid : ∀ o ≤ maxOrder, ∀ b ∈ (s.orders o).blocks, blockPtrValid s (some b) = true
  aligned : ∀ o ≤ maxOrder, ∀ b ∈ (s.orders o).blocks, blockBytes o ∣ b
  high : ∀ o ≤ maxOrder, ∀ b ∈ (s.orders o).blocks, freeMinPhys ≤ b

theorem Inv.usable (h : Inv pool s rest) : Usable s where
  valid _ ho _ hb := blockPtrValid_of_inv h ho hb
  aligned := h.aligned
  high o ho b hb := by
    have hr := (h.inRange _ (h.mem_pool_of_free ho hb (head_mem_pagesOf b o))).1
    rwa [div_mul_of_aligned (h.aligned o ho b hb)] at hr

/-- The invariant holds once `g_fstate` is added to the state, if it is missing. -/
def Tracked (pool : Finset Nat) (s : Buddy) (rest : Multiset Nat) : Prop :=
  ∃ f, Inv pool { s with fstate := some f } rest ∧ ∀ g, s.fstate = some g → g = f

theorem Inv.tracked (h : Inv pool s rest) : Tracked pool s rest := by
  obtain ⟨f, hf, -⟩ := h.fstate
  exact ⟨f, hf ▸ h, fun g hg => Option.some.inj (hg.symm.trans hf)⟩

theorem flWalk_eq_some {l : List Nat} {limit : Nat} (h : flWalk s phys l limit = some b) :
    b = phys ∧ phys ∈ l := by
  induction l generalizing limit with
  | nil => simp [flWalk] at h
  | cons c l ih =>
    rw [flWalk.eq_def] at h
    dsimp only at h
    split_ifs at h with hv hc hn
    · exact ⟨(Option.some.inj h).symm.trans hc, by simp [hc]⟩
    · cases limit with
      | zero => simp at h
      | succ limit => exact ⟨(ih h).1, mem_cons_of_mem _ (ih h).2⟩

namespace Tracked

theorem flPush (h : Tracked pool s (pagesOf b o + rest)) (ho : o ≤ maxOrder)
    (hal : blockBytes o ∣ b) :
    Tracked pool (flPush s o b) rest := by
  obtain ⟨f, hi, hg⟩ := h
  refine ⟨_, hi.flPush ho hal, fun g hs => ?_⟩
  obtain ⟨g', hs', rfl⟩ := Option.map_eq_some_iff.mp hs
  rw [hg g' hs']

theorem phys_ge (h : Tracked pool s (pagesOf phys order + rest)) (hal : blockBytes order ∣ phys) :
    freeMinPhys ≤ phys := by
  obtain ⟨f, hi, -⟩ := h
  exact (phys_ge_of_rest hi hal).1

variable (h : Tracked pool s rest)
include h

theorem usable : Usable s := by
  obtain ⟨f, hi, -⟩ := h
  exact ⟨hi.usable.valid, hi.usable.aligned, hi.usable.high⟩

theorem setFreePages (n : Nat) : Tracked pool { s with freePages := n } rest := by
  obtain ⟨f, hi, hg⟩ := h
  exact ⟨f, hi.setFreePages n, hg⟩

theorem flDel (ho : o ≤ maxOrder) (hb : b ∈ (s.orders o).blocks) :
    Tracked pool (flDel s o b) (pagesOf b o + rest) := by
  obtain ⟨f, hi, hg⟩ := h
  refine ⟨_, hi.flDel ho hb, fun g hs => ?_⟩
  obtain ⟨g', hs', rfl⟩ := Option.map_eq_some_iff.mp hs
  rw [hg g' hs']

theorem not_mem_of_rest (ho : o ≤ maxOrder) (hr : b / pageSize ∈ rest) :
    b ∉ (s.orders o).blocks := by
  obtain ⟨f, hi, -⟩ := h
  exact fun hb => hi.not_free_of_rest ho hb (head_mem_pagesOf b o) hr

theorem flFind_eq_some (ho : o ≤ maxOrder) (hal : pageSize ∣ phys) (hf : flFind s o phys = some b) :
    b = phys ∧ phys ∈ (s.orders o).blocks := by
  obtain ⟨f, hi, hg⟩ := h
  cases hs : s.fstate with
  | none =>
    simp only [flFind, hs] at hf
    exact flWalk_eq_some hf
  | some g =>
    obtain rfl := hg g hs
    obtain ⟨f', hf', -, hiff⟩ := hi.fstate
    cases hf'
    simp only [flFind, hs] at hf
    split_ifs at hf with h1 h2
    refine ⟨(Option.some.inj hf).symm, ?_⟩
    rw [shift_eq_div, hiff _ o ho, Nat.div_mul_cancel hal] at h2
    exact h2

end Tracked

/-! Splitting and merging, for every invariant that moves blocks to and from the lists. -/

def taken (s : Buddy) (found b order : Nat) : Buddy :=
  dropFreePages (splitDown b order (found - order) (flDel s found b)) order

structure Moves (pool : Finset Nat) (J : Buddy → Multiset Nat → Prop) : Prop where
  tracked : ∀ {s rest}, J s rest → Tracked pool s rest
  counter : ∀ {s rest} n, J s rest → J { s with freePages := n } rest
  del : ∀ {s rest o b}, J s rest → o ≤ maxOrder → b ∈ (s.orders o).blocks →
    J (flDel s o b) (pagesOf b o + rest)
  push : ∀ {s rest o b}, J s (pagesOf b o + rest) → o ≤ maxOrder → blockBytes o ∣ b →
    (o < maxOrder → b ^^^ blockBytes o ∉ (s.orders o).blocks) → J (flPush s o b) rest

namespace Moves

variable {J : Buddy → Multiset Nat → Prop} (M : Moves pool J)
include M

theorem splitDown (k : Nat) (h : J s (pagesOf phys (order + k) + rest)) (hk : order + k ≤ maxOrder)
    (hal : blockBytes (order + k) ∣ phys) :
    J (splitDown phys order k s) (pagesOf phys order + rest) := by
  induction k generalizing s with
  | zero => exact h
  | succ k ih =>
    have hd : blockBytes (order + k) ∣ phys := (blockBytes_dvd (by omega)).trans hal
    -- the lower half, the buddy of what is pushed, is not free
    have hlow : phys ∉ (s.orders (order + k)).blocks :=
      (M.tracked h).not_mem_of_rest (by omega) (Multiset.mem_add.mpr (.inl (head_mem_pagesOf _ _)))
    have hbuddy : (phys + blockBytes (order + k)) ^^^ blockBytes (order + k) = phys := by
      rw [← xor_of_next_aligned (o := order + k) hal, xor_xor_cancel_right]
    refine ih (M.push ?_ (by omega) (dvd_add hd dvd_rfl) fun _ => by rwa [hbuddy]) (by omega) hd
    rw [← add_assoc, pagesOf_succ] at h
    rwa [← add_assoc, add_comm (pagesOf (phys + _) _)]

theorem take {found : Nat} (h : J s rest) (ho : found ≤ maxOrder) (hle : order ≤ found)
    (hb : b ∈ (s.orders found).blocks) : J (taken s found b order) (pagesOf b order + rest) := by
  have hsum : order + (found - order) = found := by omega
  refine M.counter _ (M.splitDown _ ?_ (by omega) ?_)
  · rw [hsum]
    exact M.del h ho hb
  · rw [hsum]
    exact (M.tracked h).usable.aligned found ho b hb

/-- Merging with free buddies keeps the pages. -/
theorem coalesce (fuel : Nat) (hfuel : fuel + order = maxOrder)
    (h : J s (pagesOf phys order + rest)) (hal : blockBytes order ∣ phys) :
    J (coalesce fuel s phys order).1
        (pagesOf (coalesce fuel s phys order).2.1 (coalesce fuel s phys order).2.2 + rest) ∧
      (Pmm.coalesce fuel s phys order).2.2 ≤ maxOrder ∧
      blockBytes (Pmm.coalesce fuel s phys order).2.2 ∣ (Pmm.coalesce fuel s phys order).2.1 := by
  induction fuel generalizing s phys order with
  | zero => exact ⟨h, by simp only [Pmm.coalesce]; omega, hal⟩
  | succ fuel ih =>
    have hstop : J s (pagesOf phys order + rest) ∧ order ≤ maxOrder ∧ blockBytes order ∣ phys :=
      ⟨h, by omega, hal⟩
    have hmin : (if phys ^^^ blockBytes order < phys then phys ^^^ blockBytes order else phys) =
        min phys (phys ^^^ blockBytes order) := by
      split_ifs <;> omega
    simp only [Pmm.coalesce, hmin]
    split_ifs
    · exact hstop
    · exact hstop
    cases hf : flFind s order (phys ^^^ blockBytes order) with
    | none => exact hstop
    | some b =>
      obtain ⟨rfl, hm⟩ := (M.tracked h).flFind_eq_some (by omega) (pageSize_dvd_buddy hal) hf
      obtain ⟨hd, hp⟩ := buddy_cases hal
      dsimp only
      split_ifs
      · exact hstop
      · refine ih (by omega) ?_ hd
        have := M.del h (by omega) hm
        rwa [hp, add_comm (pagesOf phys order), add_assoc]

theorem buddyFreeOrder (h : J s (pagesOf phys order + rest)) (ho : order ≤ maxOrder)
    (hal : blockBytes order ∣ phys)
    (hpush : let c := Pmm.coalesce (maxOrder - order) s phys order
    J c.1 (pagesOf c.2.1 c.2.2 + rest) → c.2.2 ≤ maxOrder → blockBytes c.2.2 ∣ c.2.1 →
    J (flPush c.1 c.2.2 c.2.1) rest) :
    J (buddyFreeOrder s phys order) rest := by
  have hge := (M.tracked h).phys_ge hal
  obtain ⟨hj, hle, hd⟩ := M.coalesce (maxOrder - order) (by omega) h hal
  rw [Pmm.buddyFreeOrder, if_neg (by omega)]
  exact M.counter _ (hpush hj hle hd)

end Moves

theorem Inv.moves (pool : Finset Nat) : Moves pool (Inv pool) :=
  ⟨Inv.tracked, fun n h => h.setFreePages n, Inv.flDel, fun h ho hal _ => h.flPush ho hal⟩

theorem Tracked.moves (pool : Finset Nat) : Moves pool (Tracked pool) :=
  ⟨id, fun n h => h.setFreePages n, Tracked.flDel, fun h ho hal _ => h.flPush ho hal⟩

theorem buddyFreeOrder_inv (h : Inv pool s (pagesOf phys order + rest)) (ho : order ≤ maxOrder)
    (hal : blockBytes order ∣ phys) : Inv pool (buddyFreeOrder s phys order) rest :=
  (Inv.moves pool).buddyFreeOrder h ho hal Inv.flPush

theorem buddyAllocOrder_cases (h : Usable s) (hord : order ≤ maxOrder) :
    buddyAllocOrder s order = (s, none) ∨ ∃ found b, order ≤ found ∧ found ≤ maxOrder ∧
      b ∈ (s.orders found).blocks ∧
      buddyAllocOrder s order = (taken s found b order, some b) := by
  cases hf : findOrder s (maxOrder + 1 - order) order with
  | none => exact .inl (by simp [buddyAllocOrder, hf])
  | some found =>
    obtain ⟨hle, hlt, hne⟩ := findOrder_eq_some hf
    obtain ⟨b, tail, hl⟩ := exists_cons_of_ne_nil hne
    have hv : blockPtrValid s tail.head? = true := by
      cases ht : tail.head? with
      | none => rfl
      | some c =>
        refine h.valid found (by omega) c ?_
        rw [hl]
        exact mem_cons_of_mem _ (mem_of_mem_head? ht)
    refine .inr ⟨found, b, hle, by omega, by simp [hl], ?_⟩
    simp [buddyAllocOrder, hf, hl, hv, taken]

end Cervus.Pmm
