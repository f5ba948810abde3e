import Mathlib.Tactic.Ring
import Cervus.Pmm.Init

/-! Runs of the page allocator: every state reached from `pmm_init` by allocations
and valid frees, with the set of pages handed out along the way. -/

namespace Cervus.Pmm

open Cervus.Lib Multiset

inductive Op
  | alloc (pages : Nat)
  | allocAligned (pages alignment : Nat)
  | allocBelow (pages maxPhys : Nat)
  | free (addr : Option Nat) (pages : Nat)
  | freeSingle (addr : Option Nat)

def exec (s : Buddy) : Op → Outcome Buddy (Option Nat)
  | .alloc pages => pmmAlloc s pages
  | .allocAligned pages alignment => pmmAllocAligned s pages alignment
  | .allocBelow pages maxPhys => pmmAllocBelow s pages maxPhys
  | .free addr pages => (pmmFree s addr pages).void
  | .freeSingle addr => (pmmFreeSingle s addr).void

def Op.allocOrder : Op → Option Nat
  | .alloc pages => (pagesToOrder pages).join
  | .allocAligned pages alignment => (roundAlignment alignment).bind fun a =>
      (pagesToOrder (if pages > a / pageSize then pages else a / pageSize)).join
  | .allocBelow pages _ => (pagesToOrder pages).join
  | .free _ _ => none
  | .freeSingle _ => none

def Op.freed : Op → Option (Nat × Nat)
  | .free (some phys) pages => if pages = 0 then none else (pagesToOrder pages).join.map (phys, ·)
  | .freeSingle (some phys) => some (phys, 0)
  | _ => none

def Op.freedPages (op : Op) : Finset Nat :=
  match op.freed with
  | some (phys, order) => (pagesOf phys order).toFinset
  | none => ∅

def Op.handedOut (op : Op) : Option Nat → Finset Nat
  | some phys => match op.allocOrder with
    | some order => (pagesOf phys order).toFinset
    | none => ∅
  | none => ∅

def ValidFree (out : Finset Nat) (op : Op) : Prop :=
  ∀ phys order, op.freed = some (phys, order) →
    blockBytes order ∣ phys ∧ ∀ p ∈ pagesOf phys order, p ∈ out

inductive Reach (mmap : List BootMmapEntry) : Buddy → Finset Nat → Prop
  | init : Reach mmap (pmmInit mmap) ∅
  | step {s s' : Buddy} {out : Finset Nat} {op : Op} {r : Option Nat} (h : Reach mmap s out)
      (hv : ValidFree out op) (he : exec s op = .ret s' r) :
      Reach mmap s' (out \ op.freedPages ∪ op.handedOut r)

variable {b k o pages phys : Nat} {s s' : Buddy} {rest : Multiset Nat} {r : Option Nat} {op : Op}

theorem pagesToOrder_le (h : pagesToOrder pages = some (some o)) : o ≤ maxOrder := by
  simp only [pagesToOrder, Option.map_eq_some_iff] at h
  obtain ⟨a, -, ha⟩ := h
  split_ifs at ha with hlt
  cases ha
  omega

variable {out pool : Finset Nat}

theorem pagesOf_add_val (h : (pagesOf b o + out.val).Nodup) :
    pagesOf b o + out.val = (out ∪ (pagesOf b o).toFinset).val := by
  refine (Multiset.Nodup.ext h (Finset.nodup _)).mpr fun p => ?_
  simp [or_comm]

theorem pagesOf_add_sdiff (hsub : ∀ p ∈ pagesOf b o, p ∈ out) :
    pagesOf b o + (out \ (pagesOf b o).toFinset).val = out.val := by
  refine (Multiset.Nodup.ext (nodup_add.mpr ⟨nodup_block _ _, Finset.nodup _, ?_⟩)
    out.nodup).mpr fun p => ?_
  · exact disjoint_left.mpr fun hp hm => (Finset.mem_sdiff.mp hm).2 (mem_toFinset.mpr hp)
  · simp only [mem_add, Finset.mem_val, Finset.mem_sdiff, mem_toFinset]
    tauto

theorem Inv.take (h : Inv pool s (pagesOf b o + out.val)) :
    Inv pool s (out ∪ (pagesOf b o).toFinset).val ∧ Disjoint (pagesOf b o).toFinset out := by
  have hn := (nodup_add.mp h.nodup).2.1
  have hd := (nodup_add.mp hn).2.2
  refine ⟨pagesOf_add_val hn ▸ h, Finset.disjoint_left.mpr fun p hp hm => ?_⟩
  exact disjoint_left.mp hd (mem_toFinset.mp hp) hm

theorem Inv.give (h : Inv pool s out.val) (hsub : ∀ p ∈ pagesOf b o, p ∈ out) :
    Inv pool s (pagesOf b o + (out \ (pagesOf b o).toFinset).val) :=
  (pagesOf_add_sdiff hsub).symm ▸ h

theorem pageIsFreeFrom_block (h : Inv pool s rest) {f : Nat → Nat} (hf : s.fstate = some f)
    (hk : o + k ≤ maxOrder + 1) (hp : pageIsFreeFrom s f phys k o = true) :
    phys / pageSize ∈ freePagesOf s := by
  induction k generalizing o with
  | zero => simp [pageIsFreeFrom] at hp
  | succ k ih =>
    simp only [pageIsFreeFrom, Bool.or_eq_true, Bool.and_eq_true, beq_iff_eq] at hp
    rcases hp with ⟨-, hp⟩ | hp
    · obtain ⟨f', hf', -, hiff⟩ := h.fstate
      obtain rfl := Option.some.inj (hf.symm.trans hf')
      have hdv : blockBytes o ∣ phys / blockBytes o * blockBytes o := dvd_mul_left _ _
      rw [shift_eq_div, hiff _ o (by omega), div_mul_of_aligned hdv] at hp
      refine mem_freePagesOf.mpr ⟨o, by omega, _, hp, mem_block.mpr ?_⟩
      -- in pages, the head is the start of the aligned run around the page
      have hb := blockBytes_eq o
      have hq : phys / blockBytes o * blockBytes o / pageSize = phys / pageSize / 2 ^ o *
          2 ^ o := by
        rw [hb, ← Nat.div_div_eq_div_mul, mul_left_comm, Nat.mul_div_cancel_left _ pageSize_pos]
      rw [hq]
      exact ⟨Nat.div_mul_le_self _ _, Nat.lt_div_mul_add (Nat.two_pow_pos o)⟩
    · exact ih (by omega) hp

theorem pageIsFree_eq_false (h : Inv pool s rest) (hr : phys / pageSize ∈ rest) :
    pageIsFree s phys = false := by
  obtain ⟨f, hf, -⟩ := h.fstate
  simp only [pageIsFree, hf]
  rw [Bool.eq_false_iff]
  intro hp
  have hm := pageIsFreeFrom_block h hf (by omega) hp
  exact disjoint_left.mp (nodup_add.mp h.nodup).2.2 hm hr

theorem belowFrom_eq_some {span maxPhys o' : Nat}
    (h : belowFrom s span maxPhys k o = some (o', b)) :
    o ≤ o' ∧ o' < o + k ∧ b ∈ (s.orders o').blocks := by
  induction k generalizing o with
  | zero => simp [belowFrom] at h
  | succ k ih =>
    simp only [belowFrom] at h
    split at h
    · rename_i c hc
      cases h
      exact ⟨le_rfl, by omega, List.mem_of_find?_eq_some hc⟩
    · have := ih h
      exact ⟨by omega, by omega, this.2.2⟩

theorem pmmFree_inv {order : Nat} (h : Inv pool s (pagesOf phys order + rest)) (hpages : pages ≠ 0)
    (ho : pagesToOrder pages = some (some order)) (hal : blockBytes order ∣ phys) :
    pmmFree s (some phys) pages = .ret (buddyFreeOrder s phys order) () ∧
      Inv pool (buddyFreeOrder s phys order) rest := by
  have hb := phys_ge_of_rest h hal
  refine ⟨?_, buddyFreeOrder_inv h (pagesToOrder_le ho) hal⟩
  have hlast : (phys + (1 <<< order - 1) * pageSize) / pageSize = phys / pageSize +
      (2 ^ order - 1) := by
    rw [Nat.add_mul_div_right _ _ pageSize_pos, Nat.shiftLeft_eq, one_mul]
  have hpos := Nat.two_pow_pos order
  have h1 : pageIsFree s phys = false :=
    pageIsFree_eq_false h (mem_add.mpr (.inl (head_mem_pagesOf _ _)))
  have h2 : pageIsFree s (phys + (1 <<< order - 1) * pageSize) = false := by
    refine pageIsFree_eq_false h (mem_add.mpr (.inl (mem_block.mpr ?_)))
    exact ⟨by omega, by omega⟩
  have hms := h.memStart
  simp only [pmmFree, if_neg hpages, ho, h1, h2, Bool.or_self, Bool.false_eq_true, if_false]
  rw [if_neg (by omega), if_neg (by omega)]

/-! A block of the order that `pmm_alloc_aligned` asks for has the alignment. -/

variable {a alignment fuel order : Nat}

theorem le_of_orderLoop {cap : Nat} (hc : cap = 2 ^ o % 2 ^ 64)
    (h : orderLoop pages fuel cap o = some order) : pages ≤ 2 ^ order % 2 ^ 64 := by
  induction fuel generalizing cap o with
  | zero => simp [orderLoop] at h
  | succ fuel ih =>
    rw [orderLoop] at h
    split_ifs at h with hlt
    · refine ih ?_ h
      rw [hc, Nat.shiftLeft_eq, pow_one, Nat.mod_mul_mod, ← pow_succ]
    · cases h
      omega

theorem le_of_pagesToOrder (h : pagesToOrder pages = some (some order)) : pages ≤ 2 ^ order := by
  obtain ⟨o, ho, he⟩ := Option.map_eq_some_iff.mp h
  split_ifs at he
  cases he
  exact (le_of_orderLoop (show 1 = 2 ^ 0 % 2 ^ 64 by decide) ho).trans (Nat.mod_le _ _)

theorem two_pow_of_roundLoop {c : Nat} (hpos : 0 < alignment) (hc : c = 0 ∨ ∃ k, c = 2 ^ k)
    (h : roundLoop alignment fuel c = some a) : ∃ k, a = 2 ^ k := by
  induction fuel generalizing c with
  | zero => simp [roundLoop] at h
  | succ fuel ih =>
    rw [roundLoop] at h
    split_ifs at h with hlt
    · refine ih ?_ h
      obtain rfl | ⟨k, rfl⟩ := hc
      · exact .inl rfl
      · rw [Nat.shiftLeft_eq, ← pow_add]
        by_cases hk : k + 1 < 64
        · exact .inr ⟨k + 1, Nat.mod_eq_of_lt (Nat.pow_lt_pow_right (by decide) hk)⟩
        · exact .inl (Nat.mod_eq_zero_of_dvd (Nat.pow_dvd_pow 2 (by omega)))
    · cases h
      obtain rfl | hc := hc
      · omega
      · exact hc

theorem two_pow_of_roundAlignment (h : roundAlignment alignment = some a) : ∃ k, a = 2 ^ k := by
  rw [roundAlignment] at h
  have hpos : 0 < (if alignment < pageSize then pageSize else alignment) := by
    have := pageSize_pos
    split_ifs <;> omega
  generalize (if alignment < pageSize then pageSize else alignment) = c at h hpos
  split_ifs at h with hc
  · exact two_pow_of_roundLoop hpos (.inr ⟨0, rfl⟩) h
  · cases h
    exact (Nat.and_sub_one_eq_zero_iff_isPowerOfTwo (by omega)).mp (not_not.mp hc)

theorem aligned_of_order (ha : roundAlignment alignment = some a)
    (ho : pagesToOrder (if pages > a / pageSize then pages else a / pageSize) = some (some order))
    (hal : blockBytes order ∣ phys) : phys &&& (a - 1) = 0 := by
  obtain ⟨k, rfl⟩ := two_pow_of_roundAlignment ha
  have hle : 2 ^ k / pageSize ≤ 2 ^ order := by
    have h := le_of_pagesToOrder ho
    split_ifs at h <;> omega
  have hk : k ≤ pageShift + order := by
    by_contra hgt
    have hpow : 2 ^ (pageShift + order + 1) ≤ 2 ^ k := Nat.pow_le_pow_right (by decide) (by omega)
    have hsplit : 2 ^ (pageShift + order + 1) = 2 ^ order * 2 * pageSize := by
      rw [pow_succ, pow_add, show 2 ^ pageShift = pageSize from rfl]
      ring
    have hdiv := (Nat.le_div_iff_mul_le pageSize_pos).mpr (hsplit ▸ hpow)
    have := Nat.two_pow_pos order
    omega
  rw [Nat.and_two_pow_sub_one_eq_mod]
  refine Nat.mod_eq_zero_of_dvd (dvd_trans ?_ hal)
  rw [blockBytes_two_pow]
  exact Nat.pow_dvd_pow 2 hk

/-! What a call can do. -/

inductive Effect (s : Buddy) (op : Op) : Buddy → Option Nat → Prop
  | nothing (h : ∀ phys order, op.freed = some (phys, order) →
      phys < s.memStart ∨ s.memEnd ≤ phys ∨ phys < freeMinPhys) : Effect s op s none
  | take {order found b : Nat} (hf : op.freed = none) (ha : op.allocOrder = some order)
    (hle : order ≤ found)
      (ho : found ≤ maxOrder) (hb : b ∈ (s.orders found).blocks) :
        Effect s op (taken s found b order) (some b)
  | give {phys pages order : Nat} (hop : op = .free (some phys) pages)
    (hf : op.freed = some (phys, order)) :
      Effect s op (buddyFreeOrder s phys order) none
  | giveSingle {phys : Nat} (hop : op = .freeSingle (some phys)) :
    Effect s op (buddyFreeNocoalesce s phys) none

/-- What each call that returns does to the free pages. -/
theorem exec_effect (h : Usable s) {op : Op} (he : exec s op = .ret s' r) : Effect s op s' r := by
  have hno {op : Op} (hf : op.freed = none) (he : Outcome.ret s none = .ret s' r) :
      Effect s op s' r := by
    cases he
    exact .nothing (by simp [hf])
  cases op with
  | alloc pages =>
    simp only [exec, pmmAlloc] at he
    split_ifs at he with h0
    · exact hno rfl he
    split at he
    · cases he
    · exact hno rfl he
    rename_i order ho
    have hle := pagesToOrder_le ho
    have ha : (Op.alloc pages).allocOrder = some order := by simp [Op.allocOrder, ho]
    obtain hn | ⟨found, b, h1, h2, hb, hs⟩ := buddyAllocOrder_cases h hle
    · rw [hn] at he
      exact hno rfl he
    · rw [hs] at he
      dsimp only at he
      rw [if_neg (Nat.not_lt.mpr (h.high found h2 b hb))] at he
      cases he
      exact .take rfl ha h1 h2 hb
  | allocAligned pages alignment =>
    simp only [exec, pmmAllocAligned] at he
    split_ifs at he with h0
    · exact hno rfl he
    split at he
    · cases he
    rename_i a ha
    split at he
    · cases he
    · exact hno rfl he
    rename_i order ho
    have hle := pagesToOrder_le ho
    obtain hn | ⟨found, b, h1, h2, hb, hs⟩ := buddyAllocOrder_cases h hle
    · rw [hn] at he
      exact hno rfl he
    · rw [hs] at he
      dsimp only at he
      have hal : blockBytes order ∣ b := (blockBytes_dvd h1).trans (h.aligned found h2 b hb)
      rw [if_neg (not_not.mpr (aligned_of_order ha ho hal))] at he
      cases he
      exact .take rfl (by simp [Op.allocOrder, ha, ho]) h1 h2 hb
  | allocBelow pages maxPhys =>
    simp only [exec, pmmAllocBelow] at he
    split_ifs at he with h0
    · exact hno rfl he
    split at he
    · cases he
    · exact hno rfl he
    · rename_i order ho
      split at he
      · exact hno rfl he
      · rename_i o b hb
        obtain ⟨h1, h2, hm⟩ := belowFrom_eq_some hb
        cases he
        exact .take rfl (by simp [Op.allocOrder, ho]) h1 (by omega) hm
  | free addr pages =>
    cases addr with
    | none =>
      exact hno rfl he
    | some phys =>
      simp only [exec, pmmFree] at he
      split_ifs at he with h0 hr hl
      · exact hno (by simp [Op.freed, h0]) he
      · cases he
        exact .nothing (by simp [Op.freed, h0]; omega)
      · cases he
        exact .nothing (by simp [Op.freed, h0]; omega)
      · split at he
        · cases he
        · rename_i ho
          exact hno (by simp [Op.freed, h0, ho]) he
        · rename_i order ho
          split_ifs at he
          · cases he
          · cases he
            exact .give rfl (by simp [Op.freed, h0, ho])
  | freeSingle addr =>
    cases addr with
    | none =>
      exact hno rfl he
    | some phys =>
      simp only [exec, pmmFreeSingle] at he
      split_ifs at he with hr
      · cases he
        exact .nothing (by simp [Op.freed]; omega)
      · cases he
      · cases he
        exact .giveSingle rfl

/-- An invariant of taking and giving blocks is one of every call. -/
theorem step_rule {J : Buddy → Multiset Nat → Prop} {op : Op} (h : J s out.val)
    (ht : Tracked pool s out.val)
    (htake : ∀ {found b order}, found ≤ maxOrder → order ≤ found → b ∈ (s.orders found).blocks →
    J (taken s found b order) (pagesOf b order + out.val))
    (hgive : ∀ {phys pages order rest}, op = .free (some phys) pages →
    op.freed = some (phys, order) → order ≤ maxOrder → blockBytes order ∣ phys →
    J s (pagesOf phys order + rest) → J (buddyFreeOrder s phys order) rest)
    (hsingle : ∀ {phys rest}, op = .freeSingle (some phys) → blockBytes 0 ∣ phys →
    J s (pagesOf phys 0 + rest) → J (buddyFreeNocoalesce s phys) rest)
    (hv : ValidFree out op) (he : exec s op = .ret s' r) :
    J s' (out \ op.freedPages ∪ op.handedOut r).val := by
  cases exec_effect ht.usable he with
  | nothing hn =>
    cases hf : op.freed with
    | none => simpa [Op.freedPages, hf, Op.handedOut] using h
    | some block =>
      -- a block handed out lies above `PMM_FREE_MIN_PHYS` and inside the memory
      obtain ⟨hal, hsub⟩ := hv _ _ hf
      obtain ⟨f, hi, -⟩ := ht
      have hr := phys_ge_of_rest (hi.give hsub) hal
      have hs := hi.memStart
      have := hn _ _ hf
      dsimp only at hr hs
      omega
  | @take order found b hf ha hle ho hb =>
    have hj := htake ho hle hb
    obtain ⟨f, hi, -⟩ := (Tracked.moves pool).take ht ho hle hb
    rw [pagesOf_add_val (nodup_add.mp hi.nodup).2.1] at hj
    simpa [Op.freedPages, hf, Op.handedOut, ha] using hj
  | @give phys pages order hop hf =>
    obtain ⟨hal, hsub⟩ := hv _ _ hf
    have ho : order ≤ maxOrder := by
      have hf' := hf
      rw [hop] at hf'
      simp only [Op.freed, Option.ite_none_left_eq_some, Option.map_eq_some_iff] at hf'
      obtain ⟨-, o, hj, he⟩ := hf'
      cases he
      exact pagesToOrder_le (Option.join_eq_some_iff.mp hj)
    rw [← pagesOf_add_sdiff hsub] at h
    simpa [Op.freedPages, hf, Op.handedOut] using hgive hop hf ho hal h
  | @giveSingle phys hop =>
    have hf : op.freed = some (phys, 0) := by rw [hop]; rfl
    obtain ⟨hal, hsub⟩ := hv _ _ hf
    rw [← pagesOf_add_sdiff hsub] at h
    simpa [Op.freedPages, hf, Op.handedOut] using hsingle hop hal h

theorem pmmAlloc_inv (h : Inv pool s rest) (he : pmmAlloc s pages = .ret s' r) :
    (r = none ∧ s' = s) ∨ ∃ phys order, r = some phys ∧ pagesToOrder pages = some (some order) ∧
      blockBytes order ∣ phys ∧ Inv pool s' (pagesOf phys order + rest) := by
  cases @exec_effect s s' r h.usable (.alloc pages) he with
  | nothing => exact .inl ⟨rfl, rfl⟩
  | take _ ha hle ho hb =>
    have hd := (blockBytes_dvd hle).trans (h.aligned _ ho _ hb)
    exact .inr ⟨_, _, rfl, Option.join_eq_some_iff.mp ha, hd, (Inv.moves pool).take h ho hle hb⟩
  | give hop | giveSingle hop => cases hop

theorem exec_alloc_inv (h : Inv pool s out.val) (he : exec s op = .ret s' (some phys)) :
    op.freed = none ∧ ∃ order, op.allocOrder = some order ∧
      Inv pool s' (pagesOf phys order + out.val) := by
  cases exec_effect h.usable he with
  | take hf ha hle ho hb => exact ⟨hf, _, ha, (Inv.moves pool).take h ho hle hb⟩

theorem exec_inv (h : Inv pool s out.val) (hv : ValidFree out op) (he : exec s op = .ret s' r) :
    Inv pool s' (out \ op.freedPages ∪ op.handedOut r).val := by
  refine step_rule h h.tracked ((Inv.moves pool).take h) ?_ ?_ hv he
  · intro phys pages order rest _ _ ho hal hq
    exact buddyFreeOrder_inv hq ho hal
  · intro phys rest _ hal hq
    exact (hq.flPush (Nat.zero_le _) hal).setFreePages _

theorem Reach.inv {mmap : List BootMmapEntry} (hd : UsableDisjoint mmap)
    (hf : (fstatePhys mmap).isSome) (h : Reach mmap s out) : Inv (Pmm.pool hd) s out.val := by
  induction h with
  | init => exact pmmInit_inv hd hf
  | step _ hv he ih => exact exec_inv ih hv he

end Cervus.Pmm
