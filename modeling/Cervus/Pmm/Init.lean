import Mathlib.Order.CompletePartialOrder
import Cervus.Pmm.Primitives

/-! `pmm_init` on a memory map with disjoint usable entries and room for
`g_fstate`: before the last loop every page of the pool is held back, and each
round of the loop hands the pages of one entry to the free lists. -/

namespace Cervus.Pmm

open Cervus.Lib

def BootMmapEntry.range (e : BootMmapEntry) : Set Nat := Set.Ico e.base (e.base + e.length)

def UsableDisjoint (mmap : List BootMmapEntry) : Prop :=
  (usable mmap).Pairwise fun e e' => Disjoint e.range e'.range

def entryStart (fphys : Option Nat) (fbytes : Nat) (e : BootMmapEntry) : Nat :=
  if fphys = some (entryBase e) then entryBase e + fbytes else entryBase e

def entryPages (fphys : Option Nat) (fbytes : Nat) (e : BootMmapEntry) : Multiset Nat :=
  Multiset.Ico (entryStart fphys fbytes e / pageSize) (entryEnd e / pageSize)

def poolPages (mmap : List BootMmapEntry) : Multiset Nat :=
  ((usable mmap).map (entryPages (fstatePhys mmap) (fstateBytes mmap))).sum

theorem dvd_alignUp (v : Nat) : pageSize ∣ alignUp v pageSize := dvd_mul_left _ _

theorem le_alignUp (v : Nat) : v ≤ alignUp v pageSize := by
  simp only [alignUp, pageSize]
  omega

theorem dvd_entryBase (e : BootMmapEntry) : pageSize ∣ entryBase e := by
  rcases le_total (alignUp e.base pageSize) freeMinPhys with h | h
  · rw [entryBase, max_eq_right h]
    decide
  · rw [entryBase, max_eq_left h]
    exact dvd_alignUp _

theorem dvd_entryEnd (e : BootMmapEntry) : pageSize ∣ entryEnd e := dvd_mul_left _ _

theorem dvd_entryStart (fphys : Option Nat) (mmap : List BootMmapEntry) (e : BootMmapEntry) :
    pageSize ∣ entryStart fphys (fstateBytes mmap) e := by
  unfold entryStart
  split_ifs
  · exact dvd_add (dvd_entryBase e) (dvd_alignUp _)
  · exact dvd_entryBase e

theorem entryBase_le_start (fphys : Option Nat) (fbytes : Nat) (e : BootMmapEntry) :
    entryBase e ≤ entryStart fphys fbytes e := by
  unfold entryStart
  split_ifs <;> omega

variable {mmap : List BootMmapEntry} {fphys : Option Nat} {e : BootMmapEntry} {fp p : Nat}

theorem mem_entryPages : p ∈ entryPages fphys (fstateBytes mmap) e ↔
      entryStart fphys (fstateBytes mmap) e ≤ p * pageSize ∧ (p + 1) * pageSize ≤ entryEnd e := by
  obtain ⟨a, ha⟩ := dvd_entryStart fphys mmap e
  obtain ⟨b, hb⟩ := dvd_entryEnd e
  rw [entryPages, Multiset.mem_Ico, ha, hb, Nat.mul_div_cancel_left _ pageSize_pos,
    Nat.mul_div_cancel_left _ pageSize_pos]
  simp only [pageSize]
  omega

theorem entryPages_bounds (h : p ∈ entryPages fphys (fstateBytes mmap) e) :
    e.base ≤ p * pageSize ∧ (p + 1) * pageSize ≤ e.base + e.length ∧
      freeMinPhys ≤ p * pageSize := by
  obtain ⟨h1, h2⟩ := mem_entryPages.mp h
  have hs := (entryBase_le_start fphys (fstateBytes mmap) e).trans h1
  have hb := le_alignUp e.base
  have hm : entryBase e = max (alignUp e.base pageSize) freeMinPhys := rfl
  have he : entryEnd e ≤ e.base + e.length := Nat.div_mul_le_self _ _
  exact ⟨by omega, by omega, by omega⟩

theorem mem_range_of_bounds (h1 : e.base ≤ p * pageSize)
    (h2 : (p + 1) * pageSize ≤ e.base + e.length) : p * pageSize ∈ e.range := by
  simp only [pageSize] at h1 h2 ⊢
  exact ⟨h1, by omega⟩

theorem entryPages_disjoint {e' : BootMmapEntry} (h : Disjoint e.range e'.range) :
    Disjoint (entryPages fphys (fstateBytes mmap) e) (entryPages fphys (fstateBytes mmap) e') := by
  refine Multiset.disjoint_left.mpr fun {p} hp hp' => ?_
  have hb := entryPages_bounds hp
  have hb' := entryPages_bounds hp'
  exact Set.disjoint_left.mp h (mem_range_of_bounds hb.1 hb.2.1) (mem_range_of_bounds hb'.1 hb'.2.1)

theorem poolPages_nodup (h : UsableDisjoint mmap) : (poolPages mmap).Nodup :=
  nodup_sum_map (h.imp fun hd => entryPages_disjoint hd) fun _ _ => Multiset.nodup_Ico

theorem mem_poolPages : p ∈ poolPages mmap ↔
      ∃ e ∈ usable mmap, p ∈ entryPages (fstatePhys mmap) (fstateBytes mmap) e := mem_sum_map

theorem le_foldl_max (l : List BootMmapEntry) (m : Nat) :
    m ≤ l.foldl (fun m e => max m (e.base + e.length)) m ∧
      ∀ e ∈ l, e.base + e.length ≤ l.foldl (fun m e => max m (e.base + e.length)) m := by
  induction l generalizing m with
  | nil => simp
  | cons e l ih =>
    obtain ⟨h1, h2⟩ := ih (max m (e.base + e.length))
    refine ⟨(le_max_left _ _).trans h1, fun e' he => ?_⟩
    rcases List.mem_cons.mp he with rfl | he
    · exact (le_max_right _ _).trans h1
    · exact h2 e' he

theorem entry_end_le_maxPhys (he : e ∈ usable mmap) : e.base + e.length ≤ maxPhys mmap :=
  ((le_foldl_max (usable mmap) 0).2 e he).trans (le_alignUp _)

theorem fstatePhys_eq_some (h : fstatePhys mmap = some fp) :
    ∃ e ∈ usable mmap, entryBase e = fp ∧ fp + fstateBytes mmap ≤ entryEnd e := by
  simp only [fstatePhys, Option.map_eq_some_iff] at h
  obtain ⟨e, he, rfl⟩ := h
  have hp := List.find?_some he
  simp only [decide_eq_true_eq] at hp
  exact ⟨e, List.mem_of_find?_eq_some he, rfl, by omega⟩

theorem page_le_maxPhys (hp : p ∈ poolPages mmap) : (p + 1) * pageSize ≤ maxPhys mmap := by
  obtain ⟨e, he, hpe⟩ := mem_poolPages.mp hp
  exact (entryPages_bounds hpe).2.1.trans (entry_end_le_maxPhys he)

theorem poolPages_not_fstate (hd : UsableDisjoint mmap) (hf : fstatePhys mmap = some fp)
    (hp : p ∈ poolPages mmap) :
    (p + 1) * pageSize ≤ fp ∨ fp + fstateBytes mmap ≤ p * pageSize := by
  obtain ⟨e, he, hpe⟩ := mem_poolPages.mp hp
  obtain ⟨e₀, he₀, hfp, hend⟩ := fstatePhys_eq_some hf
  by_cases heq : e = e₀
  · subst heq
    have hs := (mem_entryPages.mp hpe).1
    rw [entryStart, if_pos (by rw [hf, hfp])] at hs
    exact .inr (by omega)
  by_contra hcon
  obtain ⟨a, ha⟩ := dvd_entryBase e₀
  have hpa := entryPages_bounds hpe
  have hb0 := le_alignUp e₀.base
  have hm : entryBase e₀ = max (alignUp e₀.base pageSize) freeMinPhys := rfl
  have hle : entryEnd e₀ ≤ e₀.base + e₀.length := Nat.div_mul_le_self _ _
  have : Std.Symm fun e e' : BootMmapEntry => Disjoint e.range e'.range := ⟨fun _ _ h => h.symm⟩
  have hdis : Disjoint e.range e₀.range := hd.forall he he₀ heq
  refine Set.disjoint_left.mp hdis (mem_range_of_bounds hpa.1 hpa.2.1) ⟨?_, by omega⟩
  have h1 : fp ≤ p * pageSize := by
    rw [← hfp, ha] at hcon ⊢
    simp only [pageSize] at hcon ⊢
    omega
  omega

theorem pickOrder_spec {base rem : Nat} (m : Nat) (hb : pageSize ∣ base) (hr : 1 ≤ rem) :
    pickOrder base rem m ≤ m ∧ blockBytes (pickOrder base rem m) ∣ base ∧
      2 ^ pickOrder base rem m ≤ rem := by
  induction m with
  | zero => exact ⟨le_rfl, by simpa [pickOrder, blockBytes] using hb, by simpa [pickOrder] using hr⟩
  | succ m ih =>
    simp only [pickOrder]
    split_ifs with h
    · refine ⟨le_rfl, ?_, by simpa [Nat.shiftLeft_eq] using h.2⟩
      rw [blockBytes_eq, Nat.mul_comm]
      simpa [Nat.shiftLeft_eq] using Nat.dvd_of_mod_eq_zero h.1
    · exact ⟨by omega, ih.2⟩

def Absorbs (J : Buddy → Multiset Nat → Prop) : Prop :=
  ∀ ⦃s rest o b⦄, o ≤ maxOrder → blockBytes o ∣ b → J s (pagesOf b o + rest) →
    J { flPush s o b with freePages := s.freePages + 1 <<< o } rest

theorem Inv.absorbs (pool : Finset Nat) : Absorbs (Inv pool) :=
  fun _ _ _ _ ho hal h => (h.flPush ho hal).setFreePages _

theorem pages_left (q a : Nat) : (pageSize * q - pageSize * a) >>> pageShift = q - a := by
  rw [shift_eq_div, ← Nat.mul_sub, Nat.mul_div_cancel_left _ pageSize_pos]

section Absorbs

variable {J : Buddy → Multiset Nat → Prop} (hJ : Absorbs J) {rest : Multiset Nat}

include hJ

/-- The range of an entry becomes free blocks. -/
theorem pushRange_absorbs {stop : Nat} (hs : pageSize ∣ stop) (fuel : Nat) {base : Nat} {s : Buddy}
    (hb : pageSize ∣ base) (hfuel : stop / pageSize ≤ base / pageSize + fuel)
    (h : J s (Multiset.Ico (base / pageSize) (stop / pageSize) + rest)) :
    J (pushRange stop fuel base s) rest := by
  obtain ⟨q, rfl⟩ := hs
  have hnil : ∀ {a : Nat}, q ≤ a → Multiset.Ico a q + rest = rest := fun hle => by
    rw [Multiset.Ico_eq_zero_of_le hle, zero_add]
  induction fuel generalizing base s with
  | zero =>
    rw [Nat.mul_div_cancel_left _ pageSize_pos] at h hfuel
    rwa [hnil (by omega)] at h
  | succ fuel ih =>
    obtain ⟨a, rfl⟩ := hb
    simp only [Nat.mul_div_cancel_left _ pageSize_pos] at h hfuel ih
    simp only [pushRange]
    split_ifs with hlt
    · have haq : a < q := lt_of_mul_lt_mul_left hlt (Nat.zero_le _)
      rw [pages_left]
      obtain ⟨hle, hd, hsz⟩ := pickOrder_spec maxOrder (Dvd.intro a rfl) (by omega : 1 ≤ q - a)
      generalize pickOrder (pageSize * a) (q - a) maxOrder = o at hle hd hsz ⊢
      have hnext : pageSize * a + pageSize <<< o = pageSize * (a + 2 ^ o) := by
        rw [Nat.shiftLeft_eq, mul_add]
      rw [hnext]
      refine ih (Dvd.intro _ rfl) ?_ (hJ hle hd ?_)
      · have := Nat.one_le_two_pow (n := o)
        rw [Nat.mul_div_cancel_left _ pageSize_pos]
        omega
      · rw [pagesOf, block, Nat.mul_div_cancel_left _ pageSize_pos,
          Nat.mul_div_cancel_left _ pageSize_pos, ← add_assoc,
          Multiset.Ico_add_Ico_eq_Ico (Nat.le_add_right _ _) (by omega)]
        exact h
    · have hqa : q ≤ a := le_of_mul_le_mul_left (not_lt.mp hlt) pageSize_pos
      rwa [hnil hqa] at h

theorem initEntry_absorbs {mmap : List BootMmapEntry} {s : Buddy} {e : BootMmapEntry}
    (h : J s (entryPages (fstatePhys mmap) (fstateBytes mmap) e + rest)) :
    J (initEntry (fstatePhys mmap) (fstateBytes mmap) s e) rest := by
  refine pushRange_absorbs hJ (dvd_entryEnd e) _ (dvd_entryStart _ mmap e) ?_ h
  obtain ⟨a, ha⟩ := dvd_entryStart (fstatePhys mmap) mmap e
  obtain ⟨b, hb⟩ := dvd_entryEnd e
  change entryEnd e / pageSize ≤ entryStart (fstatePhys mmap) (fstateBytes mmap) e / pageSize +
    (entryEnd e - entryStart (fstatePhys mmap) (fstateBytes mmap) e) >>> pageShift
  rw [ha, hb, shift_eq_div, ← Nat.mul_sub, Nat.mul_div_cancel_left _ pageSize_pos,
    Nat.mul_div_cancel_left _ pageSize_pos, Nat.mul_div_cancel_left _ pageSize_pos]
  omega

theorem initEntries_absorbs {mmap l : List BootMmapEntry} {s : Buddy}
    (h : J s ((l.map (entryPages (fstatePhys mmap) (fstateBytes mmap))).sum + rest)) :
    J (l.foldl (initEntry (fstatePhys mmap) (fstateBytes mmap)) s) rest := by
  induction l generalizing s with
  | nil => simpa using h
  | cons e l ih =>
    refine ih (initEntry_absorbs hJ ?_)
    rwa [List.map_cons, List.sum_cons, add_assoc] at h

end Absorbs

def pool {mmap : List BootMmapEntry} (h : UsableDisjoint mmap) : Finset Nat :=
  ⟨poolPages mmap, poolPages_nodup h⟩

theorem inv_of_empty (hd : UsableDisjoint mmap) {s : Buddy} (hs : s.memStart = 0)
    (he : s.memEnd = maxPhys mmap) (ho : s.orders = fun _ => ⟨[], 0⟩)
    (hf : s.fstate = some fun _ => 0) :
    Inv (pool hd) s (poolPages mmap) := by
  refine ⟨?_, ?_, hs, by simp [ho], by simp [ho], by simp [ho], fun _ => 0, hf, by simp, by
    simp [ho]⟩
  · simp only [freePagesOf, listPages, ho, List.map_nil, List.sum_nil, Finset.sum_const_zero,
      zero_add]
    rfl
  · intro p hp
    obtain ⟨e, hm, hpe⟩ := mem_poolPages.mp hp
    have hb := entryPages_bounds hpe
    refine ⟨hb.2.2, he ▸ lt_of_lt_of_le ?_ (hb.2.1.trans (entry_end_le_maxPhys hm))⟩
    simp only [pageSize]
    omega

theorem pmmInit_inv (hd : UsableDisjoint mmap) (hf : (fstatePhys mmap).isSome) :
    Inv (pool hd) (pmmInit mmap) 0 := by
  obtain ⟨fp, hfp⟩ := Option.isSome_iff_exists.mp hf
  refine initEntries_absorbs (Inv.absorbs _) ?_
  rw [add_zero]
  exact inv_of_empty hd rfl rfl rfl (by rw [hfp]; rfl)

end Cervus.Pmm
