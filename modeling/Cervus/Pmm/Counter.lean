import Mathlib.Tactic.NormNum
import Cervus.Pmm.Safety

/-! The running counter of free pages. It agrees with the free lists as long as no freed block
merges with its buddy; a merge adds the pages of the merged block, not of the freed one. -/

namespace Cervus.Pmm

open Cervus.Lib List Option

variable {s : Buddy} {rest : Multiset Nat} {out : Finset Nat} {mmap : List BootMmapEntry}

theorem Tracked.partition {pool : Finset Nat} (h : Tracked pool s rest) :
    freePagesOf s + rest = pool.val := by
  obtain ⟨f, hi, -⟩ := h
  exact hi.partition

theorem Tracked.getFreePages {pool : Finset Nat} (h : Tracked pool s rest) :
    pmmGetFreePages s + rest.card = pool.card := by
  have hp := h.partition
  obtain ⟨f, hi, -⟩ := h
  have hc := card_freePagesOf hi
  change (freePagesOf s).card = pmmGetFreePages s at hc
  rw [← hc, ← Multiset.card_add, hp]
  rfl

/-! The counter. -/

def Merges (s : Buddy) (op : Op) : Prop :=
  ∃ phys pages order, op = .free (some phys) pages ∧ op.freed = some (phys, order) ∧
    order < maxOrder ∧
    phys ^^^ blockBytes order ∈ (s.orders order).blocks

structure Counted (pool : Finset Nat) (s : Buddy) (rest : Multiset Nat) : Prop where
  tracked : Tracked pool s rest
  counter : s.freePages + rest.card = pool.card
  usable : pool.card ≤ s.usablePages
  small : pool.card < 2 ^ 64

theorem splitDown_frame (phys order k : Nat) (s : Buddy) :
    (splitDown phys order k s).freePages = s.freePages ∧
    (splitDown phys order k s).usablePages = s.usablePages := by
  induction k generalizing s with
  | zero => exact ⟨rfl, rfl⟩
  | succ k ih => exact ih _

theorem card_pagesOf (b o : Nat) : (pagesOf b o).card = 2 ^ o := card_block _ _

namespace Counted

variable {pool : Finset Nat} {s : Buddy} {rest : Multiset Nat}

theorem exact_counter (h : Counted pool s rest) : s.freePages = pmmGetFreePages s := by
  have h1 := h.counter
  have h2 := h.tracked.getFreePages
  omega

theorem take {found b order : Nat} (h : Counted pool s rest) (ho : found ≤ maxOrder)
    (hle : order ≤ found) (hb : b ∈ (s.orders found).blocks) :
    Counted pool (taken s found b order) (pagesOf b order + rest) := by
  have ht := (Tracked.moves pool).take h.tracked ho hle hb
  obtain ⟨hf, hu⟩ := splitDown_frame b order (found - order) (flDel s found b)
  have hcard := ht.getFreePages
  have h1 := h.counter
  have h2 := h.small
  rw [Multiset.card_add, card_pagesOf] at hcard
  have hroom : (taken s found b order).usablePages = s.usablePages := by
    rw [taken, dropFreePages, hu, flDel]
  refine ⟨ht, ?_, by rw [hroom]; exact h.usable, h2⟩
  have hnew : (taken s found b order).freePages = (s.freePages + 2 ^ 64 - 2 ^ order) % 2 ^ 64 := by
    have hsame : (flDel s found b).freePages = s.freePages := rfl
    rw [taken, dropFreePages, hf, hsame, Nat.shiftLeft_eq, one_mul]
  have hle' : 2 ^ order ≤ s.freePages := by omega
  have hlt : s.freePages - 2 ^ order < 2 ^ 64 := (Nat.sub_le _ _).trans_lt (by omega)
  rw [hnew, Nat.sub_add_comm hle', Nat.add_mod_right, Nat.mod_eq_of_lt hlt, Multiset.card_add,
    card_pagesOf,
    ← add_assoc, Nat.sub_add_cancel hle']
  exact h1

theorem put {b o : Nat} (h : Counted pool s (pagesOf b o + rest)) (ho : o ≤ maxOrder)
    (hal : blockBytes o ∣ b) :
    Counted pool (addFreePages (flPush s o b) o) rest := by
  have h1 := h.counter
  have h2 := h.usable
  rw [Multiset.card_add, card_pagesOf] at h1
  refine ⟨(h.tracked.flPush ho hal).setFreePages _, ?_, h2, h.small⟩
  have hnew : (addFreePages (flPush s o b) o).freePages =
      min (s.freePages + 2 ^ o) s.usablePages := by
    have hsame : (flPush s o b).freePages = s.freePages := rfl
    have hsame' : (flPush s o b).usablePages = s.usablePages := rfl
    rw [addFreePages, hsame, hsame', Nat.shiftLeft_eq, one_mul]
  omega

theorem buddyFreeOrder {phys order : Nat} (h : Counted pool s (pagesOf phys order + rest))
    (ho : order ≤ maxOrder) (hal : blockBytes order ∣ phys)
    (hm : order < maxOrder → phys ^^^ blockBytes order ∉ (s.orders order).blocks) :
    Counted pool (buddyFreeOrder s phys order) rest := by
  have hge := h.tracked.phys_ge hal
  have hstop : coalesce (maxOrder - order) s phys order = (s, phys, order) := by
    cases hk : maxOrder - order with
    | zero => rfl
    | succ k =>
      have hnone : flFind s order (phys ^^^ blockBytes order) = none := by
        rw [eq_none_iff_forall_ne_some]
        intro b hb
        exact hm (by omega) (h.tracked.flFind_eq_some ho (pageSize_dvd_buddy hal) hb).2
      simp [coalesce, hnone]
  rw [Pmm.buddyFreeOrder, if_neg (by omega), hstop]
  exact h.put ho hal

theorem buddyFreeNocoalesce {phys : Nat} (h : Counted pool s (pagesOf phys 0 + rest))
    (hal : blockBytes 0 ∣ phys) :
    Counted pool (buddyFreeNocoalesce s phys) rest := h.put (Nat.zero_le _) hal

theorem absorbs (pool : Finset Nat) : Absorbs (Counted pool) := by
  intro s rest o b ho hal h
  have h1 := h.counter
  rw [Multiset.card_add, card_pagesOf, ← add_assoc] at h1
  refine ⟨(h.tracked.flPush ho hal).setFreePages _, ?_, h.usable, h.small⟩
  rw [Nat.shiftLeft_eq, one_mul]
  exact h1

theorem step {out : Finset Nat} {s' : Buddy} {op : Op} {r : Option Nat} (h : Counted pool s out.val)
    (hv : ValidFree out op) (hm : ¬ Merges s op) (he : exec s op = .ret s' r) :
    Counted pool s' (out \ op.freedPages ∪ op.handedOut r).val := by
  refine step_rule h h.tracked h.take ?_ ?_ hv he
  · intro phys pages order rest hop hf ho hal hq
    exact hq.buddyFreeOrder ho hal fun hlt hb => hm ⟨phys, pages, order, hop, hf, hlt, hb⟩
  · intro phys rest hop hal hq
    exact hq.buddyFreeNocoalesce hal

end Counted

/-! The pool is counted at boot. -/

theorem card_entryPages_le (fphys : Option Nat) (mmap : List BootMmapEntry) (e : BootMmapEntry) :
    (entryPages fphys (fstateBytes mmap) e).card ≤ e.length / pageSize := by
  have hs : alignUp e.base pageSize ≤ entryStart fphys (fstateBytes mmap) e :=
    (le_max_left _ _).trans (entryBase_le_start fphys (fstateBytes mmap) e)
  have hd := Nat.div_le_div_right (c := pageSize) hs
  have hu : alignUp e.base pageSize / pageSize = (e.base + pageSize - 1) / pageSize :=
    Nat.mul_div_cancel _ pageSize_pos
  have he : entryEnd e / pageSize = (e.base + e.length) / pageSize :=
    Nat.mul_div_cancel _ pageSize_pos
  rw [entryPages, show (Multiset.Ico _ _).card = _ from Nat.card_Ico _ _, he]
  rw [hu] at hd
  simp only [pageSize] at hd ⊢
  omega

theorem card_poolPages_le (mmap : List BootMmapEntry) :
    (poolPages mmap).card ≤ ((usable mmap).map fun e => e.length / pageSize).sum := by
  have h : ∀ l : List BootMmapEntry,
    (l.map (entryPages (fstatePhys mmap) (fstateBytes mmap))).sum.card ≤
      (l.map fun e => e.length / pageSize).sum := by
    intro l
    induction l with
    | nil => simp
    | cons e l ih =>
      rw [map_cons, sum_cons, Multiset.card_add, map_cons, sum_cons]
      exact Nat.add_le_add (card_entryPages_le _ mmap e) ih
  exact h _

theorem card_pool_lt (hd : UsableDisjoint mmap) : (pool hd).card < 2 ^ 64 := by
  have hsub : pool hd ⊆ Finset.range (2 ^ 52) := by
    intro p hp
    obtain ⟨e, he, hpe⟩ := mem_poolPages.mp hp
    have hb := (entryPages_bounds hpe).2.1
    have := e.fits
    simp only [pageSize] at hb this
    exact Finset.mem_range.mpr (by omega)
  have := Finset.card_le_card hsub
  exact this.trans_lt (by norm_num)

theorem pmmInit_counted (hd : UsableDisjoint mmap) : Counted (pool hd) (pmmInit mmap) 0 := by
  refine initEntries_absorbs (Counted.absorbs _) ?_
  rw [add_zero]
  refine ⟨⟨fun _ => 0, inv_of_empty hd rfl rfl rfl rfl, fun g hg => ?_⟩, zero_add _,
    card_poolPages_le mmap,
    card_pool_lt hd⟩
  obtain ⟨_, -, rfl⟩ := map_eq_some_iff.mp hg
  rfl

/-- The states that allocations, and frees that merge nothing, reach from `pmm_init`. -/
inductive QuietReach (mmap : List BootMmapEntry) : Buddy → Finset Nat → Prop
  | init : QuietReach mmap (pmmInit mmap) ∅
  | step {s s' : Buddy} {out : Finset Nat} {op : Op} {r : Option Nat} (h : QuietReach mmap s out)
      (hv : ValidFree out op) (hm : ¬ Merges s op) (he : exec s op = .ret s' r) :
      QuietReach mmap s' (out \ op.freedPages ∪ op.handedOut r)

theorem QuietReach.counted (hd : UsableDisjoint mmap) (h : QuietReach mmap s out) :
    Counted (pool hd) s out.val := by
  induction h with
  | init => exact pmmInit_counted hd
  | step _ hv hm he ih => exact ih.step hv hm he

/-- As long as no freed block has a buddy to merge with, the running counter is what
`pmm_get_free_pages` recomputes from the lists. -/
theorem free_pages_counter {mmap : List BootMmapEntry} (hd : UsableDisjoint mmap)
    {s : Buddy} {out : Finset Nat} (h : QuietReach mmap s out) : s.freePages = pmmGetFreePages s :=
  (h.counted hd).exact_counter

theorem alloc_quiet (s : Buddy) (pages : Nat) : ¬ Merges s (.alloc pages) := by
  rintro ⟨_, _, _, h, -⟩
  cases h

/-- `adjacentMap` after one page has been allocated. -/
theorem free_pages_counter_adjacent :
    (after (pmmInit adjacentMap) (.alloc 1)).freePages = pmmGetFreePages
    (after (pmmInit adjacentMap) (.alloc 1)) := by
  have hret : exec (pmmInit adjacentMap) (.alloc 1) =
    .ret (after (pmmInit adjacentMap) (.alloc 1)) (some 0x103000) := rfl
  have hv : ValidFree ∅ (.alloc 1) := fun phys order h => by simp [Op.freed] at h
  exact free_pages_counter adjacentMap_disjoint (QuietReach.init.step hv (alloc_quiet _ 1) hret)

/-- Freeing that page merges it with the page before it, and the counter goes up by two pages. -/
theorem counter_drifts : UsableDisjoint adjacentMap ∧
    ∃ s out, Reach adjacentMap s out ∧ s.freePages = 4 ∧ pmmGetFreePages s = 3 :=
  ⟨adjacentMap_disjoint, _, _, adjacentMap_reach, by decide +kernel, by decide +kernel⟩

end Cervus.Pmm
