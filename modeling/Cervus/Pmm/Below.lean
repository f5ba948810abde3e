import Mathlib.Algebra.Order.BigOperators.Group.Finset
import Mathlib.Data.List.Find
import Cervus.Pmm.Counter

/-! Searching the free lists. `pmm_alloc_below` finds an aligned free run whenever one lies in a
single free block. Buddies that are both free hide such a run from it; `pmm_free` merges them,
but `pmm_free_single` does not, nor does `pmm_init` across two usable entries that touch. -/

namespace Cervus.Pmm

open Cervus.Lib List Prod Nat

/-- The naturally aligned run of `2 ^ order` pages from `a` on is free. -/
def FreeRun (s : Buddy) (order a : Nat) : Prop :=
  blockBytes order ∣ a ∧ ∀ p ∈ pagesOf a order, p ∈ freePagesOf s

/-- No two buddies of one order are both on the lists, but for the largest order. -/
def Coalesced (s : Buddy) : Prop :=
  ∀ o < maxOrder, ∀ b ∈ (s.orders o).blocks, b ^^^ blockBytes o ∉ (s.orders o).blocks

/-! Runs and blocks. -/

theorem pages_dvd {o b : Nat} (h : blockBytes o ∣ b) : 2 ^ o ∣ b / pageSize := by
  rw [blockBytes_eq] at h
  exact dvd_div_of_mul_dvd h

section

variable {pool : Finset Nat} {s : Buddy} {rest : Multiset Nat} {a b k o order phys : Nat}

theorem freeRun_of_block (h : Usable s) (ho : o ≤ maxOrder) (hle : order ≤ o)
    (hb : b ∈ (s.orders o).blocks) : FreeRun s order b := by
  refine ⟨(blockBytes_dvd hle).trans (h.aligned o ho b hb), fun p hp => ?_⟩
  have hpow := Nat.pow_le_pow_right (show 0 < 2 by decide) hle
  have := mem_block.mp hp
  exact mem_freePagesOf.mpr ⟨o, ho, b, hb, mem_block.mpr (by omega)⟩

theorem FreeRun.halves (h : FreeRun s (order + 1) a) :
    FreeRun s order a ∧ FreeRun s order (a + blockBytes order) := by
  have hd := (blockBytes_dvd (le_succ order)).trans h.1
  have hp := h.2
  rw [pagesOf_succ] at hp
  exact ⟨⟨hd, fun p hm => hp p (Multiset.mem_add.mpr (.inl hm))⟩,
    ⟨dvd_add hd dvd_rfl, fun p hm => hp p (Multiset.mem_add.mpr (.inr hm))⟩⟩

theorem le_of_head_mem (hb : blockBytes o ∣ b) (h : a / pageSize ∈ pagesOf b o) : b ≤ a := by
  have h1 := mul_le_mul_right pageSize (mem_block.mp h).1
  rw [div_mul_of_aligned hb] at h1
  exact h1.trans (div_mul_le_self a pageSize)

theorem eq_of_head_mem (ha : blockBytes o ∣ a) (hb : blockBytes o ∣ b)
    (h : a / pageSize ∈ pagesOf b o) : a = b := by
  have h1 := (mem_block_iff_div (pages_dvd hb)).mp h
  have h2 : a / pageSize = b / pageSize := by
    rw [← Nat.div_mul_cancel (pages_dvd ha), h1, Nat.div_mul_cancel (pages_dvd hb)]
  rw [← div_mul_of_aligned ha, h2, div_mul_of_aligned hb]

/-- Where buddies are merged, a free run lies in one block. -/
theorem FreeRun.in_block (hu : Usable s) (hc : Coalesced s) (hord : order ≤ maxOrder)
    (h : FreeRun s order a) :
    ∃ o b, order ≤ o ∧ o ≤ maxOrder ∧ b ∈ (s.orders o).blocks ∧ a / pageSize ∈ pagesOf b o := by
  induction order generalizing a with
  | zero =>
    obtain ⟨o, ho, b, hb, hm⟩ := mem_freePagesOf.mp (h.2 _ (head_mem_pagesOf a 0))
    exact ⟨o, b, zero_le _, ho, hb, hm⟩
  | succ order ih =>
    obtain ⟨hlow, hhigh⟩ := h.halves
    obtain ⟨o, b, hle, ho, hb, hm⟩ := ih (by omega) hlow
    obtain ⟨o', b', hle', ho', hb', hm'⟩ := ih (by omega) hhigh
    have hal := hu.aligned o ho b hb
    have hal' := hu.aligned o' ho' b' hb'
    rcases eq_or_lt_of_le hle with rfl | hlt
    · rcases eq_or_lt_of_le hle' with rfl | hlt'
      · -- both halves are blocks of their own, and buddies
        obtain rfl := eq_of_head_mem hlow.1 hal hm
        obtain rfl := eq_of_head_mem hhigh.1 hal' hm'
        rw [← xor_of_next_aligned h.1] at hb'
        exact absurd hb' (hc order (by omega) a hb)
      · refine ⟨o', b', hlt', ho', hb', ?_⟩
        have hin : (a + blockBytes order) / pageSize ∈ pagesOf a (order + 1) := by
          rw [pagesOf_succ]
          exact Multiset.mem_add.mpr (.inr (head_mem_pagesOf _ _))
        exact block_nested (pages_dvd h.1) (pages_dvd hal') hlt' hin hm' (head_mem_pagesOf a _)
    · exact ⟨o, b, hlt, ho, hb, hm⟩

/-! The search. -/

theorem belowFrom_eq_none {span maxPhys : Nat} (k o : Nat) : belowFrom s span maxPhys k o = none ↔
      ∀ o', o ≤ o' → o' < o + k → ∀ b ∈ (s.orders o').blocks, freeMinPhys ≤ b →
      maxPhys < b + span := by
  induction k generalizing o with
  | zero =>
    refine ⟨fun _ o' h1 h2 => ?_, fun _ => rfl⟩
    omega
  | succ k ih =>
    have hhere : belowBlock s span maxPhys o = none ↔
        ∀ b ∈ (s.orders o).blocks, freeMinPhys ≤ b → maxPhys < b + span := by
      simp only [belowBlock, List.find?_eq_none, decide_eq_true_eq, not_and, not_lt, not_le]
    rw [belowFrom]
    cases hb : belowBlock s span maxPhys o with
    | some b =>
      refine ⟨fun h => by simp at h, fun h => ?_⟩
      have := hhere.mpr (h o le_rfl (by omega))
      rw [hb] at this
      cases this
    | none =>
      refine (ih (o + 1)).trans ⟨fun h o' h1 h2 => ?_, fun h o' h1 h2 => h o' (by omega) (by omega)⟩
      rcases eq_or_lt_of_le h1 with rfl | hlt
      · exact hhere.mp hb
      · exact h o' hlt (by omega)

theorem belowFrom_fits {span maxPhys o' : Nat} (h : belowFrom s span maxPhys k o = some (o', b)) :
    b + span ≤ maxPhys := by
  induction k generalizing o with
  | zero => cases h
  | succ k ih =>
    rw [belowFrom] at h
    split at h
    next c hc =>
      cases h
      have := List.find?_some hc
      simp only [decide_eq_true_eq, not_lt] at this
      exact this.2
    next => exact ih h

theorem findOrder_eq_none (h : findOrder s k o = none) :
    ∀ o', o ≤ o' → o' < o + k → (s.orders o').blocks = [] := by
  induction k generalizing o with
  | zero =>
    intro o' h1 h2
    omega
  | succ k ih =>
    rw [findOrder] at h
    split_ifs at h with hs
    intro o' h1 h2
    rcases eq_or_lt_of_le h1 with rfl | hlt
    · rw [flFirst] at hs
      exact List.head?_eq_none_iff.mp (by simpa using hs)
    · exact ih h o' hlt (by omega)

/-! Merging. -/

theorem flWalk_of_mem {l : List Nat} {limit : Nat} (hv : ∀ b ∈ l, blockPtrValid s (some b) = true)
    (hl : l.length ≤ limit + 1) (h : phys ∈ l) : flWalk s phys l limit = some phys := by
  induction l generalizing limit with
  | nil => cases h
  | cons c l ih =>
    rw [flWalk.eq_def]
    dsimp only
    rw [hv c mem_cons_self]
    by_cases hc : c = phys
    · simp [hc]
    have hmem : phys ∈ l := (mem_cons.mp h).resolve_left (Ne.symm hc)
    have hhead : blockPtrValid s l.head? = true := by
      cases hh : l.head? with
      | none => rfl
      | some d => exact hv d (mem_cons_of_mem _ (mem_of_mem_head? hh))
    obtain ⟨limit, rfl⟩ : ∃ k, limit = k + 1 := by
      have := length_pos_of_mem hmem
      rw [length_cons] at hl
      exact ⟨limit - 1, by omega⟩
    simp only [hc, hhead, Bool.not_true, Bool.false_eq_true, if_false]
    exact ih (fun b hb => hv b (mem_cons_of_mem _ hb)) (by rw [length_cons] at hl; omega) hmem

structure Merged (pool : Finset Nat) (s : Buddy) (rest : Multiset Nat) : Prop where
  tracked : Tracked pool s rest
  coalesced : Coalesced s
  room : pool.card ≤ s.totalPages

theorem Tracked.length_le (h : Tracked pool s rest) (ho : o ≤ maxOrder) :
    (s.orders o).blocks.length ≤ pool.card := by
  have hsum : listPages o (s.orders o).blocks ≤ pool.val := by
    rw [← h.partition]
    refine le_trans ?_ (Multiset.le_add_right _ _)
    exact Finset.single_le_sum (f := fun o => listPages o (s.orders o).blocks)
      (fun _ _ => Multiset.zero_le _)
      (Finset.mem_range.mpr (lt_succ_of_le ho))
  have hc := Multiset.card_le_card hsum
  rw [card_listPages] at hc
  exact (Nat.le_mul_of_pos_right _ (Nat.two_pow_pos o)).trans hc

namespace Merged

variable {b o order phys : Nat}

theorem flFind_of_mem (h : Merged pool s rest) (ho : o ≤ maxOrder)
    (hm : phys ∈ (s.orders o).blocks) :
    flFind s o phys = some phys := by
  have hu := h.tracked.usable
  have hlen := h.tracked.length_le ho
  have hroom := h.room
  obtain ⟨f, hi, hg⟩ := h.tracked
  cases hs : s.fstate with
  | none =>
    simp only [flFind, hs]
    exact flWalk_of_mem (hu.valid o ho) (by omega) hm
  | some g =>
    obtain rfl := hg g hs
    obtain ⟨f', hf', -, hiff⟩ := hi.fstate
    cases hf'
    have hal := hu.aligned o ho phys hm
    have hr := hi.inRange _ (hi.mem_pool_of_free ho hm (head_mem_pagesOf phys o))
    have hst := hi.memStart
    rw [div_mul_of_aligned hal] at hr
    dsimp only at hr hst
    simp only [flFind, hs]
    rw [if_neg (by omega), if_pos]
    rw [shift_eq_div, hiff _ o ho, div_mul_of_aligned hal]
    exact hm

theorem setFreePages (h : Merged pool s rest) (n : Nat) :
    Merged pool { s with freePages := n } rest :=
  ⟨h.tracked.setFreePages n, h.coalesced, h.room⟩

theorem flDel (h : Merged pool s rest) (ho : o ≤ maxOrder) (hb : b ∈ (s.orders o).blocks) :
    Merged pool (flDel s o b) (pagesOf b o + rest) := by
  refine ⟨h.tracked.flDel ho hb, fun o' ho' c hc hc' => ?_, h.room⟩
  have hsub : ∀ d, d ∈ ((Pmm.flDel s o b).orders o').blocks → d ∈ (s.orders o').blocks := by
    intro d hd
    by_cases he : o' = o
    · subst he
      exact mem_of_mem_erase (by simpa [Pmm.flDel] using hd)
    · simpa [Pmm.flDel, he] using hd
  exact h.coalesced o' ho' c (hsub c hc) (hsub _ hc')

theorem flPush (h : Merged pool s (pagesOf b o + rest)) (ho : o ≤ maxOrder) (hal : blockBytes o ∣ b)
    (hb : o < maxOrder → b ^^^ blockBytes o ∉ (s.orders o).blocks) :
    Merged pool (flPush s o b) rest := by
  refine ⟨h.tracked.flPush ho hal, fun o' ho' c hc hc' => ?_, h.room⟩
  by_cases he : o' = o
  · subst he
    simp only [Pmm.flPush, Function.update_self, mem_cons] at hc hc'
    rcases hc with rfl | hc
    · rcases hc' with hc' | hc'
      · have hz : blockBytes o' = 0 := by
          rw [← Nat.xor_xor_cancel_left c (blockBytes o'), hc', Nat.xor_self]
        exact absurd hz (blockBytes_pos o').ne'
      · exact hb ho' hc'
    · rcases hc' with hc' | hc'
      · rw [← hc', xor_xor_cancel_right] at hb
        exact hb ho' hc
      · exact h.coalesced o' ho' c hc hc'
  · simp only [Pmm.flPush, Function.update_of_ne he] at hc hc'
    exact h.coalesced o' ho' c hc hc'

/-- Merging stops at a block whose buddy is not free. -/
theorem coalesce_stops (fuel : Nat) {s : Buddy} (hfuel : fuel + order = maxOrder)
    (h : Merged pool s (pagesOf phys order + rest)) (hal : blockBytes order ∣ phys)
    (hlt : (coalesce fuel s phys order).2.2 < maxOrder) :
    (coalesce fuel s phys order).2.1 ^^^ blockBytes (coalesce fuel s phys order).2.2 ∉
      ((coalesce fuel s phys order).1.orders (coalesce fuel s phys order).2.2).blocks := by
  induction fuel generalizing s phys order with
  | zero =>
    simp only [coalesce] at hlt
    omega
  | succ fuel ih =>
    have hu := h.tracked.usable
    have hmin : (if phys ^^^ blockBytes order < phys then phys ^^^ blockBytes order else phys) =
        min phys (phys ^^^ blockBytes order) := by
      split_ifs <;> omega
    simp only [coalesce, hmin] at hlt ⊢
    split_ifs at hlt ⊢ with hlow hrange
    · intro hm
      have := hu.high order (by omega) (phys ^^^ blockBytes order) hm
      omega
    · intro hm
      have := hu.valid order (by omega) (phys ^^^ blockBytes order) hm
      simp only [blockPtrValid, Bool.and_eq_true, Bool.not_eq_true', Bool.or_eq_false_iff,
        decide_eq_false_iff_not] at this
      omega
    · cases hf : flFind s order (phys ^^^ blockBytes order) with
      | none =>
        intro hm
        rw [h.flFind_of_mem (o := order) (by omega) hm] at hf
        cases hf
      | some b =>
        obtain ⟨rfl, hm⟩ := h.tracked.flFind_eq_some (by omega) (pageSize_dvd_buddy hal) hf
        obtain ⟨hd, hp⟩ := buddy_cases hal
        have hhead : s.blockOrder (phys ^^^ blockBytes order) = order := by
          obtain ⟨f, hi, -⟩ := h.tracked
          exact hi.header order (by omega) _ hm
        simp only [hf, hhead, ne_eq, not_true_eq_false, if_false] at hlt ⊢
        refine ih (by omega) ?_ hd hlt
        have hdel := h.flDel (by omega) hm
        rwa [hp, add_comm (pagesOf phys order), add_assoc]

theorem moves (pool : Finset Nat) : Moves pool (Merged pool) :=
  ⟨Merged.tracked, fun n h => h.setFreePages n, Merged.flDel, Merged.flPush⟩

theorem buddyFreeOrder (h : Merged pool s (pagesOf phys order + rest)) (ho : order ≤ maxOrder)
    (hal : blockBytes order ∣ phys) : Merged pool (buddyFreeOrder s phys order) rest := by
  refine (moves pool).buddyFreeOrder h ho hal fun hj hle hd =>
    hj.flPush hle hd (coalesce_stops _ ?_ h hal)
  omega

end Merged

end

/-! Runs. -/

section

variable {mmap : List BootMmapEntry} {s : Buddy} {out : Finset Nat}

theorem Reach.tracked (hd : UsableDisjoint mmap) (h : Reach mmap s out) :
    Tracked (pool hd) s out.val := by
  induction h with
  | init => exact (pmmInit_counted hd).tracked
  | step _ hv he ih =>
    refine step_rule ih ih ((Tracked.moves _).take ih) ?_ ?_ hv he
    · intro phys pages order rest _ _ ho hal hq
      exact (Tracked.moves _).buddyFreeOrder hq ho hal Tracked.flPush
    · intro phys rest _ hal hq
      exact (hq.flPush (zero_le _) hal).setFreePages _

/-- The states that allocations and `pmm_free` reach from `pmm_init`. -/
inductive MergingReach (mmap : List BootMmapEntry) : Buddy → Finset Nat → Prop
  | init : MergingReach mmap (pmmInit mmap) ∅
  | step {s s' : Buddy} {out : Finset Nat} {op : Op} {r : Option Nat} (h : MergingReach mmap s out)
      (hv : ValidFree out op) (hm : ∀ addr, op ≠ .freeSingle addr) (he : exec s op = .ret s' r) :
      MergingReach mmap s' (out \ op.freedPages ∪ op.handedOut r)

/-- No usable entry ends where another one begins. -/
def Apart (mmap : List BootMmapEntry) : Prop :=
  ∀ e ∈ usable mmap, ∀ e' ∈ usable mmap, entryEnd e ≠
    entryStart (fstatePhys mmap) (fstateBytes mmap) e'

def Cut (mmap : List BootMmapEntry) (s : Buddy) : Prop :=
  ∀ o, ∀ b ∈ (s.orders o).blocks, blockBytes o ∣ b ∧
    ∃ e ∈ usable mmap, entryStart (fstatePhys mmap) (fstateBytes mmap) e ≤ b ∧
    b + blockBytes o ≤ entryEnd e ∧ (o < maxOrder → blockBytes (o + 1) ∣ b →
    entryEnd e < b + blockBytes (o + 1))

theorem pickOrder_max {base rem m : Nat} (hlt : pickOrder base rem m < m)
    (hal : blockBytes (pickOrder base rem m + 1) ∣ base) :
    rem < 2 ^ (pickOrder base rem m + 1) := by
  induction m with
  | zero => omega
  | succ m ih =>
    rw [pickOrder] at hlt hal ⊢
    split_ifs at hlt hal ⊢ with hc
    · omega
    · rcases lt_or_ge (pickOrder base rem m) m with h | h
      · exact ih h hal
      · have he : pickOrder base rem m = m := by omega
        rw [he, blockBytes_eq, mul_comm] at hal
        rw [shiftLeft_eq, one_mul] at hc
        by_contra hge
        rw [he] at hge
        exact hc ⟨mod_eq_zero_of_dvd hal, by omega⟩

theorem pushRange_cut {e : BootMmapEntry} (he : e ∈ usable mmap) (fuel : Nat) {base : Nat}
    (hb : pageSize ∣ base) (hbase : entryStart (fstatePhys mmap) (fstateBytes mmap) e ≤ base)
    (h : Cut mmap s) :
    Cut mmap (pushRange (entryEnd e) fuel base s) := by
  induction fuel generalizing base s with
  | zero => exact h
  | succ fuel ih =>
    rw [pushRange]
    split_ifs with hlt
    · obtain ⟨a, rfl⟩ := hb
      obtain ⟨q, hq⟩ := dvd_entryEnd e
      have haq : a < q := by
        rw [hq] at hlt
        exact lt_of_mul_lt_mul_left hlt (zero_le _)
      have hrem : (entryEnd e - pageSize * a) >>> pageShift = q - a := by rw [hq, pages_left]
      rw [hrem]
      obtain ⟨hle, hd, hsz⟩ := pickOrder_spec maxOrder (Dvd.intro a rfl) (by omega : 1 ≤ q - a)
      have hmax := @pickOrder_max (pageSize * a) (q - a) maxOrder
      generalize pickOrder (pageSize * a) (q - a) maxOrder = order at hle hd hsz hmax ⊢
      refine ih ?_ ?_ ?_
      · exact dvd_add (Dvd.intro a rfl) (Dvd.intro _ (blockBytes_eq order).symm)
      · exact hbase.trans (le_add_right _ _)
      intro o b hm
      by_cases ho : o = order
      · subst ho
        simp only [flPush, Function.update_self, mem_cons] at hm
        rcases hm with rfl | hm
        · refine ⟨hd, e, he, hbase, ?_, fun hlt hal => ?_⟩
          · rw [blockBytes_eq, hq, ← mul_add]
            exact mul_le_mul_left _ (by omega)
          · have := hmax hlt hal
            rw [blockBytes_eq, hq, ← mul_add]
            exact mul_lt_mul_of_pos_left (by omega) pageSize_pos
        · exact h o b hm
      · simp only [flPush, Function.update_of_ne ho] at hm
        exact h o b hm
    · exact h

theorem initEntries_cut {l : List BootMmapEntry} (hl : ∀ e ∈ l, e ∈ usable mmap) (h : Cut mmap s) :
    Cut mmap (l.foldl (initEntry (fstatePhys mmap) (fstateBytes mmap)) s) := by
  induction l generalizing s with
  | nil => exact h
  | cons e l ih =>
    refine ih (fun e' he' => hl e' (mem_cons_of_mem _ he')) ?_
    exact pushRange_cut (hl e mem_cons_self) _ (dvd_entryStart _ mmap e) le_rfl h

variable {o order pages : Nat} {rest : Multiset Nat}

/-- At boot no two free blocks of one entry are buddies. -/
theorem Cut.not_buddies (hd : UsableDisjoint mmap) (ha : Apart mmap) (h : Cut mmap s) {l : Nat}
    (ho : o < maxOrder) (hal : blockBytes (o + 1) ∣ l) (hl : l ∈ (s.orders o).blocks) :
    l + blockBytes o ∉ (s.orders o).blocks := by
  intro hu
  obtain ⟨-, e, he, hs, hend, hmax⟩ := h o l hl
  obtain ⟨-, e', he', hs', hend', -⟩ := h o _ hu
  have htwo : blockBytes (o + 1) = blockBytes o + blockBytes o := by
    rw [blockBytes_eq, blockBytes_eq, pow_succ, mul_two, mul_add]
  have hne : e ≠ e' := by
    rintro rfl
    omega
  have : Std.Symm fun e e' : BootMmapEntry => Disjoint e.range e'.range := ⟨fun _ _ h => h.symm⟩
  have hdis : ∀ p, ¬(entryStart (fstatePhys mmap) (fstateBytes mmap) e ≤ p * pageSize ∧
    (p + 1) * pageSize ≤ entryEnd e ∧
      entryStart (fstatePhys mmap) (fstateBytes mmap) e' ≤ p * pageSize ∧
      (p + 1) * pageSize ≤ entryEnd e') := by
    rintro p ⟨h1, h2, h3, h4⟩
    exact Multiset.disjoint_left.mp (entryPages_disjoint (hd.forall he he' hne))
      (mem_entryPages.mpr ⟨h1, h2⟩)
      (mem_entryPages.mpr ⟨h3, h4⟩)
  obtain ⟨c, hc⟩ : pageSize ∣ l := (Dvd.intro _ (blockBytes_eq (o + 1)).symm).trans hal
  obtain ⟨k, hk⟩ : pageSize ∣ blockBytes o := Dvd.intro _ (blockBytes_eq o).symm
  obtain ⟨q, hq⟩ := dvd_entryEnd e
  obtain ⟨a, hA⟩ := dvd_entryStart (fstatePhys mmap) mmap e'
  have h1 : entryEnd e = l + blockBytes o := by
    by_contra hcon
    apply hdis (c + k)
    simp only [pageSize] at hc hk hq hA ⊢
    omega
  refine ha e he e' he' ?_
  by_contra hcon
  apply hdis (c + k - 1)
  simp only [pageSize] at hc hk hq hA ⊢
  omega

theorem Cut.coalesced (hd : UsableDisjoint mmap) (ha : Apart mmap) (h : Cut mmap s) :
    Coalesced s := by
  intro o ho b hb hx
  have hal := (h o b hb).1
  have hcases := xor_two_pow_cases (blockBytes_two_pow o ▸ hal)
  rw [← blockBytes_two_pow, add_assoc, ← blockBytes_two_pow] at hcases
  rcases hcases with ⟨hd', hxor⟩ | ⟨hd', hxor⟩
  · rw [hxor] at hx
    exact h.not_buddies hd ha ho hd' hb hx
  · rw [← hxor] at hb
    exact h.not_buddies hd ha ho hd' hx hb

theorem card_pool_le (hd : UsableDisjoint mmap) : (pool hd).card ≤ maxPhys mmap >>> pageShift := by
  have hsub : pool hd ⊆ Finset.range (maxPhys mmap >>> pageShift) := by
    intro p hp
    rw [Finset.mem_range, shift_eq_div]
    exact (le_div_iff_mul_le pageSize_pos).mpr (page_le_maxPhys hp)
  have := Finset.card_le_card hsub
  rwa [Finset.card_range] at this

theorem initEntries_totalPages (l : List BootMmapEntry) (s : Buddy) :
    (l.foldl (initEntry (fstatePhys mmap) (fstateBytes mmap)) s).totalPages = s.totalPages := by
  have hpush : ∀ stop fuel base (s : Buddy), (pushRange stop fuel base s).totalPages =
      s.totalPages := by
    intro stop fuel
    induction fuel with
    | zero => exact fun _ _ => rfl
    | succ fuel ih =>
      intro base s
      rw [pushRange]
      split_ifs
      · exact ih _ _
      · rfl
  induction l generalizing s with
  | nil => rfl
  | cons e l ih => exact (ih _).trans (hpush _ _ _ _)

theorem pmmInit_merged (hd : UsableDisjoint mmap) (ha : Apart mmap) :
    Merged (pool hd) (pmmInit mmap) 0 := by
  refine ⟨(pmmInit_counted hd).tracked, Cut.coalesced hd ha (initEntries_cut (fun _ he => he) ?_),
    ?_⟩
  · intro o b hb
    cases hb
  · rw [pmmInit, initEntries_totalPages]
    exact card_pool_le hd

theorem MergingReach.merged (hd : UsableDisjoint mmap) (ha : Apart mmap)
    (h : MergingReach mmap s out) :
    Merged (pool hd) s out.val := by
  induction h with
  | init => exact pmmInit_merged hd ha
  | step _ hv hm he ih =>
    refine step_rule ih ih.tracked ((Merged.moves _).take ih) ?_ ?_ hv he
    · intro phys pages order rest _ _ ho hal hq
      exact hq.buddyFreeOrder ho hal
    · intro phys rest hop
      exact absurd hop (hm _)

/-! The calls. -/

theorem pagesToOrder_eq_none : pagesToOrder pages = none ↔ 2 ^ 63 < pages := by
  have hloop : ∀ k o, o + k = 63 → pages ≤ 2 ^ 63 → orderLoop pages (k + 2) (2 ^ o) o ≠ none := by
    intro k
    induction k with
    | zero =>
      intro o ho hle
      obtain rfl : o = 63 := by omega
      rw [orderLoop, if_neg (by omega)]
      simp
    | succ k ih =>
      intro o ho hle
      rw [orderLoop]
      split_ifs
      · have hpow : 2 ^ (o + 1) < 2 ^ 64 := Nat.pow_lt_pow_right (by decide) (by omega)
        rw [Nat.shiftLeft_eq, pow_one, ← pow_succ, Nat.mod_eq_of_lt hpow]
        exact ih (o + 1) (by omega) hle
      · simp
  rw [pagesToOrder, Option.map_eq_none_iff]
  refine ⟨fun h => ?_, fun h => ?_⟩
  · by_contra hle
    exact hloop 63 0 rfl (by omega) h
  · rw [Option.eq_none_iff_forall_ne_some]
    intro order ho
    have hle := le_of_orderLoop (show 1 = 2 ^ 0 % 2 ^ 64 by decide) ho
    rcases lt_or_ge order 64 with hlt | hge
    · have hpow := Nat.pow_le_pow_right (show 0 < 2 by decide) (show order ≤ 63 by omega)
      have := Nat.mod_le (2 ^ order) (2 ^ 64)
      omega
    · rw [Nat.mod_eq_zero_of_dvd (Nat.pow_dvd_pow 2 hge)] at hle
      omega

/-- `pmm_alloc_below` returns; it fails exactly if no aligned free run lies below the limit, and
takes nothing but the run it returns. -/
def BelowOk (s : Buddy) (pages maxPhys : Nat) : Prop :=
  ∃ s' r, pmmAllocBelow s pages maxPhys = .ret s' r ∧
    (r = none ↔ ¬∃ order a, pagesToOrder pages = some (some order) ∧ FreeRun s order a ∧
    a + blockBytes order ≤ maxPhys) ∧
    ∀ b, r = some b → ∃ order, pagesToOrder pages = some (some order) ∧ FreeRun s order b ∧
    b + blockBytes order ≤ maxPhys ∧
      ∀ p, p ∈ freePagesOf s' ↔ p ∈ freePagesOf s ∧ p ∉ pagesOf b order

/-- An aligned free run lies below the limit, but no block that is large enough begins low
enough. -/
def Hidden (s : Buddy) (pages maxPhys : Nat) : Prop :=
  ∃ order a, pagesToOrder pages = some (some order) ∧ FreeRun s order a ∧
    a + blockBytes order ≤ maxPhys ∧
    ∀ o b, order ≤ o → o ≤ maxOrder → b ∈ (s.orders o).blocks → maxPhys < b + blockBytes order

/-- The branch of `pmm_alloc_aligned` that gives a misaligned block back. -/
def Misaligned (s : Buddy) (pages alignment : Nat) : Prop :=
  ∃ a order s' phys, roundAlignment alignment = some a ∧
    pagesToOrder (if pages > a / pageSize then pages else a / pageSize) = some (some order) ∧
    buddyAllocOrder s order = (s', some phys) ∧ phys &&& (a - 1) ≠ 0

theorem not_hidden_of_coalesced (hu : Usable s) (hc : Coalesced s) (pages maxPhys : Nat) :
    ¬ Hidden s pages maxPhys := by
  rintro ⟨order, a, ho, hrun, hfit, hno⟩
  obtain ⟨o, b, hle, hmax, hb, hm⟩ := hrun.in_block hu hc (pagesToOrder_le ho)
  have hlow := le_of_head_mem (hu.aligned o hmax b hb) hm
  have := hno o b hle hmax hb
  omega

theorem freePagesOf_taken {pool : Finset Nat} (h : Tracked pool s rest) {found b : Nat}
    (ho : found ≤ maxOrder) (hle : order ≤ found) (hb : b ∈ (s.orders found).blocks) (p : Nat) :
    p ∈ freePagesOf (taken s found b order) ↔ p ∈ freePagesOf s ∧ p ∉ pagesOf b order := by
  have hp := ((Tracked.moves pool).take h ho hle hb).partition
  have hn := pool.nodup
  rw [← hp, Multiset.nodup_add] at hn
  rw [← h.partition, ← add_assoc] at hp
  have hmem := Multiset.mem_add (a := p) (s := freePagesOf (taken s found b order)) (t :=
    pagesOf b order)
  rw [add_right_cancel hp] at hmem
  refine ⟨fun h1 => ⟨hmem.mpr (.inl h1), fun h2 => ?_⟩, fun h1 => (hmem.mp h1.1).resolve_right h1.2⟩
  exact Multiset.disjoint_left.mp hn.2.2 h1 (Multiset.mem_add.mpr (.inl h2))

/-- The search is right exactly when no run is hidden. -/
theorem belowOk_iff {pool : Finset Nat} (h : Tracked pool s rest) (hp : 1 ≤ pages)
    (maxPhys : Nat) : BelowOk s pages maxPhys ↔ pages ≤ 2 ^ 63 ∧ ¬ Hidden s pages maxPhys := by
  have hu := h.usable
  rw [BelowOk, pmmAllocBelow, if_neg (by omega)]
  cases ho : pagesToOrder pages with
  | none =>
    have := pagesToOrder_eq_none.mp ho
    refine iff_of_false ?_ (by omega)
    rintro ⟨s', r, hr, -⟩
    cases hr
  | some order =>
    have hle : pages ≤ 2 ^ 63 := by
      by_contra hgt
      rw [pagesToOrder_eq_none.mpr (by omega)] at ho
      cases ho
    cases order with
    | none =>
      refine iff_of_true ⟨s, none, rfl, iff_of_true rfl ?_, fun _ hb => by cases hb⟩ ⟨hle, ?_⟩
      · rintro ⟨order, a, he, -⟩
        cases he
      · rintro ⟨order, a, he, -⟩
        rw [ho] at he
        cases he
    | some order =>
      dsimp only
      cases hf : belowFrom s (blockBytes order) maxPhys (maxOrder + 1 - order) order with
      | none =>
        -- nothing is found, so that every free run there is lies hidden
        have hnone := (belowFrom_eq_none _ _).mp hf
        have hno : ∀ o b, order ≤ o → o ≤ maxOrder → b ∈ (s.orders o).blocks →
          maxPhys < b + blockBytes order :=
          fun o b h1 h2 hb => hnone o h1 (by omega) b hb (hu.high o h2 b hb)
        refine ⟨?_, fun hh => ⟨s, none, rfl, iff_of_true rfl ?_, fun _ hb => by cases hb⟩⟩
        · rintro ⟨s', r, hr, hiff, -⟩
          cases hr
          refine ⟨hle, ?_⟩
          rintro ⟨order', a, he, hrun, hfit, -⟩
          rw [ho] at he
          exact hiff.mp rfl ⟨order', a, he, hrun, hfit⟩
        · rintro ⟨order', a, he, hrun, hfit⟩
          cases he
          exact hh.2 ⟨order, a, ho, hrun, hfit, hno⟩
      | some found =>
        obtain ⟨o, b⟩ := found
        obtain ⟨h1, h2, hb⟩ := belowFrom_eq_some hf
        have hfit := belowFrom_fits hf
        have hrun := freeRun_of_block hu (show o ≤ maxOrder by omega) h1 hb
        refine iff_of_true ⟨_, some b, rfl, iff_of_false (by simp)
          (not_not.mpr ⟨order, b, rfl, hrun, hfit⟩), ?_⟩ ⟨hle, ?_⟩
        · rintro _ ⟨⟩
          exact ⟨order, rfl, hrun, hfit, freePagesOf_taken h (by omega) h1 hb⟩
        · rintro ⟨order', a, he, -, -, hno⟩
          rw [ho] at he
          cases he
          have := hno o b h1 (by omega) hb
          omega

theorem pmmAlloc_fails (hu : Usable s) {s' : Buddy} (hp : 1 ≤ pages)
    (ho : pagesToOrder pages = some (some order)) (hf : pmmAlloc s pages = .ret s' none)
    (hle : order ≤ o) (hmax : o ≤ maxOrder) : (s.orders o).blocks = [] := by
  rw [pmmAlloc, if_neg (by omega), ho] at hf
  dsimp only at hf
  rcases buddyAllocOrder_cases hu (pagesToOrder_le ho) with hb | ⟨found, b, h1, h2, hb, hr⟩
  · cases hn : findOrder s (maxOrder + 1 - order) order with
    | none => exact findOrder_eq_none hn o hle (by omega)
    | some found =>
      obtain ⟨h1, h2, hne⟩ := findOrder_eq_some hn
      obtain ⟨b, tail, hl⟩ := exists_cons_of_ne_nil hne
      simp only [buddyAllocOrder, hn, hl] at hb
      split_ifs at hb with hv
      · have horders := congrArg (fun t => (fst t).orders found) hb
        simp only [Function.update_self] at horders
        rw [← horders] at hl
        cases hl
      · cases congrArg snd hb
  · rw [hr] at hf
    dsimp only at hf
    rw [if_neg (by have := hu.high found h2 b hb; omega)] at hf
    cases hf

theorem not_misaligned (hu : Usable s) (pages alignment : Nat) :
    ¬ Misaligned s pages alignment := by
  rintro ⟨a, order, s', phys, ha, ho, hb, hne⟩
  refine hne (aligned_of_order ha ho ?_)
  rcases buddyAllocOrder_cases hu (pagesToOrder_le ho) with hn | ⟨found, b, h1, h2, hm, hr⟩
  · rw [hn] at hb
    cases congrArg snd hb
  · rw [hr] at hb
    obtain rfl := Option.some.inj (congrArg snd hb)
    exact (blockBytes_dvd h1).trans (hu.aligned found h2 b hm)

/-- `pmm_alloc_below` is right as long as no run is hidden; merging keeps runs from being hidden. -/
theorem alloc_below_complete (hd : UsableDisjoint mmap) (h : Reach mmap s out) {pages : Nat}
    (hp : 1 ≤ pages) (maxPhys : Nat) :
    (BelowOk s pages maxPhys ↔ pages ≤ 2 ^ 63 ∧ ¬ Hidden s pages maxPhys) ∧
      (Coalesced s → ¬ Hidden s pages maxPhys) ∧
      (Apart mmap → MergingReach mmap s out → Coalesced s) ∧
      (∀ s' order, pagesToOrder pages = some (some order) → pmmAlloc s pages = .ret s' none →
        ∀ o, order ≤ o → o ≤ maxOrder → (s.orders o).blocks = []) ∧
      ∀ alignment, ¬ Misaligned s pages alignment := by
  have ht := h.tracked hd
  refine ⟨belowOk_iff ht hp maxPhys, fun hc => not_hidden_of_coalesced ht.usable hc pages maxPhys,
    fun ha hm => (hm.merged hd ha).coalesced, fun s' order ho hf o hle hmax =>
      ?_, not_misaligned ht.usable pages⟩
  exact pmmAlloc_fails ht.usable hp ho hf hle hmax

end

/-- At boot with one entry nothing is hidden, and two pages are found below 4 GiB. -/
theorem alloc_below_complete_single : BelowOk (pmmInit eightPages) 2 (2 ^ 32) ∧
    ∃ s' b, pmmAllocBelow (pmmInit eightPages) 2 (2 ^ 32) = .ret s' (some b) := by
  obtain ⟨hiff, hhid, hco, -⟩ :=
    alloc_below_complete eightPages_disjoint .init (show 1 ≤ 2 by decide) (2 ^ 32)
  have ha : Apart eightPages := by
    intro e he e' he'
    obtain rfl := mem_singleton.mp he
    obtain rfl := mem_singleton.mp he'
    decide +kernel
  exact ⟨hiff.mpr ⟨by decide, hhid (hco ha .init)⟩, _, _, rfl⟩

/-- At boot the last page of the first entry and the page of the second are free buddies. Two
pages are not found below 4 GiB. -/
theorem alloc_below_misses : UsableDisjoint adjacentMap ∧ ∃ s out, Reach adjacentMap s out ∧
    pagesToOrder 2 = some (some 1) ∧ FreeRun s 1 0x102000 ∧
    pmmAllocBelow s 2 (2 ^ 32) = .ret s none ∧
    ¬ BelowOk s 2 (2 ^ 32) := by
  have hrun : FreeRun (pmmInit adjacentMap) 1 0x102000 := by
    refine ⟨by decide, fun p hp => ?_⟩
    have := mem_block.mp hp
    obtain rfl | rfl : p = 0x102 ∨ p = 0x103 := by
      simp only [pageSize] at this
      omega
    · exact mem_freePagesOf.mpr ⟨0, by decide, 0x102000, by
        decide +kernel, mem_block.mpr (by decide)⟩
    · exact mem_freePagesOf.mpr ⟨0, by decide, 0x103000, by
        decide +kernel, mem_block.mpr (by decide)⟩
  have hfrom : belowFrom (pmmInit adjacentMap) (blockBytes 1) (2 ^ 32) (maxOrder + 1 - 1) 1 =
    none := by decide +kernel
  have horder : pagesToOrder 2 = some (some 1) := by decide
  have hnone : pmmAllocBelow (pmmInit adjacentMap) 2 (2 ^ 32) =
      .ret (pmmInit adjacentMap) none := by
    rw [pmmAllocBelow, if_neg (by decide), horder]
    dsimp only
    rw [hfrom]
  refine ⟨adjacentMap_disjoint, _, _, .init, horder, hrun, hnone, ?_⟩
  rintro ⟨s', r, hr, hiff, -⟩
  cases hr
  exact hiff.mp rfl ⟨1, 0x102000, horder, hrun, by decide⟩

end Cervus.Pmm
