import Cervus.Pmm.Safety

/-! What the check against freeing a page twice sees. `_page_is_free` finds every page of every
free block, but `pmm_free` asks it about the first and the last page only: a block with free
pages in its middle is freed once more. -/

namespace Cervus.Pmm

open Cervus.Lib

def InFreeBlock (s : Buddy) (phys : Nat) : Prop :=
  ∃ o ≤ maxOrder, ∃ b ∈ (s.orders o).blocks, b ≤ phys ∧ phys < b + blockBytes o

variable {pool : Finset Nat} {b o order phys : Nat} {s : Buddy} {rest : Multiset Nat}

theorem mem_pagesOf_iff (h : blockBytes o ∣ b) (phys : Nat) :
    phys / pageSize ∈ pagesOf b o ↔ b ≤ phys ∧ phys < b + blockBytes o := by
  have hb := div_mul_of_aligned h
  rw [pagesOf, mem_block, Nat.le_div_iff_mul_le pageSize_pos, Nat.div_lt_iff_lt_mul pageSize_pos,
    add_mul, hb,
    blockBytes_eq, mul_comm (2 ^ o)]

theorem head_eq (h : blockBytes o ∣ b) (hle : b ≤ phys) (hlt : phys < b + blockBytes o) :
    phys / blockBytes o * blockBytes o = b := by
  obtain ⟨q, rfl⟩ := h
  have hpos : 0 < blockBytes o := by omega
  have hq : phys / blockBytes o = q := by
    rw [Nat.div_eq_iff hpos]
    rw [mul_comm q]
    omega
  rw [hq, mul_comm]

/-- Some page of the block of `order` at `phys` is free. -/
def SomePageFree (s : Buddy) (phys order : Nat) : Prop :=
  ∃ i < 2 ^ order, InFreeBlock s (phys + i * pageSize)

/-- The first or the last page of the block is free. -/
def EndPageFree (s : Buddy) (phys order : Nat) : Prop :=
  InFreeBlock s phys ∨ InFreeBlock s (phys + (2 ^ order - 1) * pageSize)

theorem endPageFree_of_small (ho : order ≤ 1) (h : SomePageFree s phys order) :
    EndPageFree s phys order := by
  obtain ⟨i, hi, hf⟩ := h
  obtain rfl | rfl : order = 0 ∨ order = 1 := by omega
  · obtain rfl : i = 0 := by omega
    exact .inr (by simpa using hf)
  · obtain rfl | rfl : i = 0 ∨ i = 1 := by omega
    · exact .inl (by simpa using hf)
    · exact .inr (by simpa using hf)

section

variable (h : Inv pool s rest)
include h

theorem inFreeBlock_iff (phys : Nat) : InFreeBlock s phys ↔ phys / pageSize ∈ freePagesOf s := by
  rw [mem_freePagesOf]
  constructor
  · rintro ⟨o, ho, b, hb, hin⟩
    exact ⟨o, ho, b, hb, (mem_pagesOf_iff (h.aligned o ho b hb) phys).mpr hin⟩
  · rintro ⟨o, ho, b, hb, hp⟩
    exact ⟨o, ho, b, hb, (mem_pagesOf_iff (h.aligned o ho b hb) phys).mp hp⟩

theorem pageIsFreeFrom_of_block
    {f : Nat → Nat} (hf : s.fstate = some f) (ho : o ≤ maxOrder) (hb : b ∈ (s.orders o).blocks)
    (hle : b ≤ phys) (hlt : phys < b + blockBytes o) {k o₀ : Nat} (h₀ : o₀ ≤ o) (hk : o < o₀ + k) :
    pageIsFreeFrom s f phys k o₀ = true := by
  induction k generalizing o₀ with
  | zero => omega
  | succ k ih =>
    rw [pageIsFreeFrom]
    obtain rfl | hne := eq_or_lt_of_le h₀
    · obtain ⟨f', hf', -, hiff⟩ := h.fstate
      obtain rfl := Option.some.inj (hf.symm.trans hf')
      have hal := h.aligned o₀ ho b hb
      have hr := h.inRange _ (h.mem_pool_of_free ho hb (head_mem_pagesOf b o₀))
      rw [div_mul_of_aligned hal] at hr
      have hentry : f (b >>> pageShift) = o₀ + 1 := by
        rw [shift_eq_div, hiff _ o₀ ho, div_mul_of_aligned hal]
        exact hb
      simp [head_eq hal hle hlt, hentry, h.memStart, hr.2]
    · simp [ih hne (by omega)]

theorem pageIsFree_iff (phys : Nat) : pageIsFree s phys = true ↔ InFreeBlock s phys := by
  obtain ⟨f, hf, -⟩ := h.fstate
  have hfree : pageIsFree s phys = pageIsFreeFrom s f phys (maxOrder + 1) 0 := by
    rw [pageIsFree, hf]
  rw [hfree]
  constructor
  · intro hp
    exact (inFreeBlock_iff h phys).mpr (pageIsFreeFrom_block h hf (by omega) hp)
  · rintro ⟨o, ho, b, hb, hle, hlt⟩
    exact pageIsFreeFrom_of_block h hf ho hb hle hlt (Nat.zero_le o) (by omega)

theorem pmmFreeSingle_panic_iff (h1 : s.memStart ≤ phys) (h2 : phys < s.memEnd) :
    pmmFreeSingle s (some phys) = .panic ↔ InFreeBlock s phys := by
  rw [← pageIsFree_iff h, pmmFreeSingle, if_neg (by omega)]
  split_ifs with hp
  · exact iff_of_true rfl hp
  · exact iff_of_false (by simp) hp

theorem pmmFree_panic_iff {pages : Nat} (hp : pages ≠ 0)
    (ho : pagesToOrder pages = some (some order)) (h2 : phys < s.memEnd) :
    pmmFree s (some phys) pages = .panic ↔
      freeMinPhys ≤ phys ∧ (InFreeBlock s phys ∨
      InFreeBlock s (phys + (2 ^ order - 1) * pageSize)) := by
  have hms := h.memStart
  rw [← pageIsFree_iff h, ← pageIsFree_iff h, ← Bool.or_eq_true]
  simp only [pmmFree, if_neg hp, ho, Nat.shiftLeft_eq, one_mul]
  rw [if_neg (by omega)]
  split_ifs with hlow hc
  · exact iff_of_false (by simp) (by omega)
  · exact iff_of_true rfl ⟨by omega, hc⟩
  · exact iff_of_false (by simp) fun hend => hc hend.2

theorem SomePageFree.lt (hal : blockBytes order ∣ phys) (hf : SomePageFree s phys order) :
    phys < s.memEnd := by
  obtain ⟨i, -, hf⟩ := hf
  obtain ⟨o, ho, b, hb, hp⟩ := mem_freePagesOf.mp ((inFreeBlock_iff h _).mp hf)
  have hr := (h.inRange _ (h.mem_pool_of_free ho hb hp)).2
  rw [Nat.add_mul_div_right _ _ pageSize_pos, add_mul, div_mul_of_aligned hal] at hr
  omega

end

/-- In every state reached, the check finds exactly the pages of free blocks, `pmm_free_single`
panics exactly on them, and `pmm_free` panics on a block with a free page exactly if the block is
of one or two pages or an end of it is free (and it does not start below the memory given out). -/
theorem double_free_check {mmap : List BootMmapEntry} (hd : UsableDisjoint mmap)
    (hf : (fstatePhys mmap).isSome) {s : Buddy} {out : Finset Nat} (h : Reach mmap s out) :
    (∀ phys, s.memStart ≤ phys → phys < s.memEnd →
      (pageIsFree s phys = true ↔ InFreeBlock s phys) ∧
        (pmmFreeSingle s (some phys) = .panic ↔ InFreeBlock s phys)) ∧
    ∀ phys pages order, pages ≠ 0 → pagesToOrder pages = some (some order) →
    blockBytes order ∣ phys →
      ((SomePageFree s phys order → pmmFree s (some phys) pages = .panic) ↔
        (SomePageFree s phys order → freeMinPhys ≤ phys ∧
        (order ≤ 1 ∨ EndPageFree s phys order))) := by
  have hi := h.inv hd hf
  refine ⟨fun phys h1 h2 => ⟨pageIsFree_iff hi phys, pmmFreeSingle_panic_iff hi h1 h2⟩, ?_⟩
  intro phys pages order hp ho hal
  refine imp_congr_right fun hs => ?_
  rw [pmmFree_panic_iff hi hp ho (hs.lt hi hal)]
  refine and_congr_right fun _ => ⟨fun hend => .inr hend, ?_⟩
  rintro (hsmall | hend)
  · exact endPageFree_of_small hsmall hs
  · exact hend

theorem eightPages_placed : (fstatePhys eightPages).isSome := by decide +kernel

def holed : Buddy := after (after (pmmInit eightPages) (.alloc 4)) (.freeSingle (some 0x105000))

theorem holed_reach : ∃ out, Reach eightPages holed out := by
  refine ⟨_, (Reach.init.next ?_ (by decide +kernel)).next ?_ (by decide +kernel)⟩
  · intro phys order h
    simp [Op.freed] at h
  · intro phys order h
    obtain ⟨rfl, rfl⟩ : 0x105000 = phys ∧ 0 = order := by simpa [Op.freed] using h
    decide +kernel

theorem holed_free : InFreeBlock holed 0x105000 :=
  ⟨0, by decide, 0x105000, by decide +kernel, by decide, by decide⟩

theorem double_free_check_holed :
    ∃ s out, Reach eightPages s out ∧ pageIsFree s 0x105000 = true ∧
      pmmFreeSingle s (some 0x105000) = .panic := by
  obtain ⟨out, hr⟩ := holed_reach
  have h := (double_free_check eightPages_disjoint eightPages_placed hr).1 0x105000
    (by decide +kernel) (by decide +kernel)
  exact ⟨holed, out, hr, h.1.mpr holed_free, h.2.mpr holed_free⟩

/-- The whole block is freed although its second page is free already. -/
theorem free_misses_middle :
    ∃ s out, Reach eightPages s out ∧ SomePageFree s 0x104000 2 ∧
      (pmmFree s (some 0x104000) 4).returns = true := by
  obtain ⟨out, hr⟩ := holed_reach
  exact ⟨holed, out, hr, ⟨1, by decide, holed_free⟩, by decide +kernel⟩

end Cervus.Pmm
