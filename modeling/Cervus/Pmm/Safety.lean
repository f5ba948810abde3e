import Cervus.Pmm.Run

/-! The safety of the page allocator over whole runs. Free blocks are aligned,
disjoint, described exactly by `g_fstate`, and made of usable pages; a page is
never handed out twice and never lost. A free block may however reach across two
adjacent usable entries, because coalescing only looks at `g_fstate`. -/

namespace Cervus.Pmm

open Cervus.Lib List

theorem card_listPages (o : Nat) (l : List Nat) : (listPages o l).card = l.length * 2 ^ o := by
  induction l with
  | nil => simp [listPages]
  | cons b l ih =>
    rw [listPages_cons, Multiset.card_add, ih, pagesOf, card_block, length_cons, Nat.succ_mul,
      add_comm]

variable {s : Buddy} {rest : Multiset Nat} {out pool : Finset Nat} {mmap : List BootMmapEntry}

theorem card_freePagesOf (h : Inv pool s rest) : (freePagesOf s).card = pmmGetFreePages s := by
  rw [freePagesOf, Multiset.card_sum, pmmGetFreePages]
  refine Finset.sum_congr rfl fun o ho => ?_
  rw [card_listPages, Nat.shiftLeft_eq, h.count o (Nat.lt_succ_iff.mp (Finset.mem_range.mp ho))]

theorem freePages_add_card (h : Inv pool s out.val) : pmmGetFreePages s + out.card = pool.card := by
  rw [← card_freePagesOf h]
  exact (Multiset.card_add _ _).symm.trans (congrArg Multiset.card h.partition)

/-- The page `p` lies in a usable entry and off the array at `g_fstate`. -/
def AllocatablePage (mmap : List BootMmapEntry) (p : Nat) : Prop :=
  (∃ e ∈ usable mmap, e.base ≤ p * pageSize ∧ (p + 1) * pageSize ≤ e.base + e.length) ∧
    ∀ fp, fstatePhys mmap = some fp →
      (p + 1) * pageSize ≤ fp ∨ fp + fstateBytes mmap ≤ p * pageSize

structure BuddyOk (mmap : List BootMmapEntry) (s : Buddy) (out : Finset Nat) : Prop where
  block : ∀ o ≤ maxOrder, ∀ b ∈ (s.orders o).blocks, blockBytes o ∣ b ∧ freeMinPhys ≤ b ∧
    ∀ p ∈ pagesOf b o, AllocatablePage mmap p
  disjoint : ∀ o ≤ maxOrder, ∀ b ∈ (s.orders o).blocks, ∀ o' ≤ maxOrder,
    ∀ b' ∈ (s.orders o').blocks,
    ∀ p ∈ pagesOf b o, p ∈ pagesOf b' o' → o = o' ∧ b = b'
  nodup : ∀ o ≤ maxOrder, (s.orders o).blocks.Nodup
  notOut : ∀ o ≤ maxOrder, ∀ b ∈ (s.orders o).blocks, ∀ p ∈ pagesOf b o, p ∉ out
  fstate : ∃ f, s.fstate = some f ∧
    (∀ p, ∀ o ≤ maxOrder, f p = o + 1 ↔ p * pageSize ∈ (s.orders o).blocks) ∧
    ∀ p, (∀ o ≤ maxOrder, p * pageSize ∉ (s.orders o).blocks) → f p = 0
  count : ∀ o ≤ maxOrder, (s.orders o).count = (s.orders o).blocks.length
  conserved : pmmGetFreePages s + out.card = pmmGetFreePages (pmmInit mmap)
  fresh : ∀ op s' phys, exec s op = .ret s' (some phys) →
    op.handedOut (some phys) ≠ ∅ ∧ Disjoint (op.handedOut (some phys)) out

theorem Inv.blocks_nodup (h : Inv pool s rest) {o : Nat} (ho : o ≤ maxOrder) :
    (s.orders o).blocks.Nodup := by
  refine nodup_iff_count_le_one.mpr fun b => ?_
  by_contra hlt
  have hb : b ∈ (s.orders o).blocks := count_pos_iff.mp (by omega)
  have hc := count_erase_self (a := b) (l := (s.orders o).blocks)
  exact h.not_mem_erase ho hb (count_pos_iff.mp (by omega))

theorem allocatable_of_pool (hd : UsableDisjoint mmap) {p : Nat} (hp : p ∈ Pmm.pool hd) :
    AllocatablePage mmap p := by
  refine ⟨?_, fun fp hf => poolPages_not_fstate hd hf hp⟩
  obtain ⟨e, he, hpe⟩ := mem_poolPages.mp hp
  have hb := entryPages_bounds hpe
  exact ⟨e, he, hb.1, hb.2.1⟩

theorem exec_fresh {s' : Buddy} {op : Op} {phys : Nat}
    (h : Inv pool s out.val) (he : exec s op = .ret s' (some phys)) :
    op.handedOut (some phys) ≠ ∅ ∧ Disjoint (op.handedOut (some phys)) out := by
  obtain ⟨-, order, ho, hi⟩ := exec_alloc_inv h he
  have hm : phys / pageSize ∈ op.handedOut (some phys) := by
    simpa only [Op.handedOut, ho, Multiset.mem_toFinset] using head_mem_pagesOf phys order
  refine ⟨Finset.ne_empty_of_mem hm, ?_⟩
  simpa only [Op.handedOut, ho] using hi.take.2

/-- After `pmm_init` and any calls with valid frees, the free lists, `g_fstate`
and the pages handed out agree, and every page is accounted for. -/
theorem buddy_representation {mmap : List BootMmapEntry} (hd : UsableDisjoint mmap)
    (hf : (fstatePhys mmap).isSome) {s : Buddy} {out : Finset Nat} (h : Reach mmap s out) :
    BuddyOk mmap s out := by
  have hi := h.inv hd hf
  obtain ⟨f, hfs, hle, hiff⟩ := hi.fstate
  refine ⟨?_, ?_, fun o ho => hi.blocks_nodup ho, ?_, ⟨f, hfs, hiff, ?_⟩, hi.count, ?_, ?_⟩
  · intro o ho b hb
    have hpool := fun p hp => hi.mem_pool_of_free ho hb (p := p) hp
    have hal := hi.aligned o ho b hb
    have hr := hi.inRange _ (hpool _ (head_mem_pagesOf b o))
    rw [div_mul_of_aligned hal] at hr
    exact ⟨hal, hr.1, fun p hp => allocatable_of_pool hd (hpool p hp)⟩
  · exact fun o ho b hb o' ho' b' hb' p hp hp' => hi.blocks_disjoint ho hb ho' hb' hp hp'
  · exact fun o ho b hb p hp => hi.not_free_of_rest ho hb hp
  · intro p hno
    by_contra hne
    have hp := hle p
    exact hno (f p - 1) (by omega) ((hiff p (f p - 1) (by omega)).mp (by omega))
  · have h0 : pmmGetFreePages (pmmInit mmap) + (∅ : Finset Nat).card = (Pmm.pool hd).card :=
      freePages_add_card (pmmInit_inv hd hf)
    rw [Finset.card_empty, add_zero] at h0
    rw [freePages_add_card hi, h0]
  · exact fun op s' phys he => exec_fresh hi he

def after (s : Buddy) (op : Op) : Buddy :=
  match exec s op with
  | .ret s' _ => s'
  | _ => s

def result (s : Buddy) (op : Op) : Option Nat :=
  match exec s op with
  | .ret _ r => r
  | _ => none

theorem Reach.next (h : Reach mmap s out) {op : Op} (hv : ValidFree out op)
    (hr : (exec s op).returns = true) :
    Reach mmap (after s op) (out \ op.freedPages ∪ op.handedOut (result s op)) := by
  cases he : exec s op with
  | ret s' r =>
    have hs : after s op = s' := by simp [after, he]
    have hv' : result s op = r := by simp [result, he]
    rw [hs, hv']
    exact h.step hv he
  | panic | hang => simp [he, Outcome.returns] at hr

def adjacentMap : List BootMmapEntry :=
  [⟨0x100000, 0x3000, .usable, by decide⟩, ⟨0x103000, 0x1000, .usable, by decide⟩]

theorem adjacentMap_disjoint : UsableDisjoint adjacentMap := by
  simp only [UsableDisjoint, adjacentMap, usable, filter_cons, decide_true, if_true,
    filter_nil, pairwise_cons, mem_singleton, forall_eq, not_mem_nil,
    false_implies, implies_true, List.Pairwise.nil, and_true, BootMmapEntry.range]
  rw [Set.disjoint_left]
  intro a ha hb
  simp only [Set.mem_Ico] at ha hb
  omega

theorem adjacentMap_placed : (fstatePhys adjacentMap).isSome := by decide +kernel

def eightPages : List BootMmapEntry := [⟨0x100000, 0x8000, .usable, by decide⟩]

theorem eightPages_disjoint : UsableDisjoint eightPages := by
  simp [UsableDisjoint, eightPages, usable]

theorem adjacentMap_reach : Reach adjacentMap
    (after (after (pmmInit adjacentMap) (.alloc 1)) (.free (some 0x103000) 1))
    ((∅ \ (Op.alloc 1).freedPages ∪ (Op.alloc 1).handedOut
    (result (pmmInit adjacentMap) (.alloc 1))) \
      (Op.free (some 0x103000) 1).freedPages ∪
      (Op.free (some 0x103000) 1).handedOut
        (result (after (pmmInit adjacentMap) (.alloc 1)) (.free (some 0x103000) 1))) := by
  refine (Reach.init.next ?_ (by decide +kernel)).next ?_ (by decide +kernel)
  · intro phys order h
    simp [Op.freed] at h
  · intro phys order h
    have hfr : (Op.free (some 0x103000) 1).freed = some (0x103000, 0) := by decide +kernel
    rw [hfr] at h
    obtain ⟨rfl, rfl⟩ : 0x103000 = phys ∧ 0 = order := by simpa using h
    decide +kernel

theorem buddy_representation_adjacent :
    ∃ s out, Reach adjacentMap s out ∧ BuddyOk adjacentMap s out :=
  ⟨_, _, adjacentMap_reach,
    buddy_representation adjacentMap_disjoint adjacentMap_placed adjacentMap_reach⟩

/-- Freeing the page merges it with its buddy in the other entry: the block of
order 1 at `0x102000` lies in no single usable entry. -/
theorem free_block_spans_entries : UsableDisjoint adjacentMap ∧ (fstatePhys adjacentMap).isSome ∧
    ∃ s out, Reach adjacentMap s out ∧ ∃ b ∈ (s.orders 1).blocks,
      ¬ ∃ e ∈ usable adjacentMap, e.base ≤ b ∧ b + blockBytes 1 ≤ e.base + e.length := by
  refine ⟨adjacentMap_disjoint, adjacentMap_placed, _, _, adjacentMap_reach, 0x102000, ?_, ?_⟩
  · decide +kernel
  · decide +kernel

end Cervus.Pmm
