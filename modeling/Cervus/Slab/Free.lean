import Mathlib.Data.List.Find
import Cervus.Slab.Alloc

/-! `kfree` of a live object keeps the invariant, unless the word 16 bytes below
the object makes it look like a large allocation. -/

namespace Cervus.Slab

open Cervus.Lib Cervus.Pmm List Function

variable {h : Heap} {sh : Shape} {c i order pages s : Nat}
  {other : Multiset Nat} {live pool : Finset Nat} {empty : Option Nat}

theorem HeapInv.live_give (hi : HeapInv pool h sh other live empty) (hcs : (c, s) ∈ sh.slabs)
    (hic : i < capacity c) (p : Nat) : p ∈ live.erase (slot s c i) ↔ (p ∈ live ∧ pageOf p ≠ s) ∨
      ∃ j < capacity c, testBit (setBit (h.slabs s).freemap i) j = false ∧ p = slot s c j := by
  have hp := hi.live_page hcs p
  have hc := (hi.bound c s hcs).1
  simp only [testBit_setBit, Bool.or_eq_false_iff, decide_eq_false_iff_not, Finset.mem_erase]
  constructor
  · rintro ⟨hne, hm⟩
    by_cases hps : pageOf p = s
    · obtain ⟨j, hjc, hjb, rfl⟩ := hp.mp ⟨hm, hps⟩
      exact .inr ⟨j, hjc, ⟨fun e => hne (by rw [e]), hjb⟩, rfl⟩
    · exact .inl ⟨hm, hps⟩
  · rintro (⟨hm, hps⟩ | ⟨j, hjc, ⟨hij, hjb⟩, rfl⟩)
    · exact ⟨fun e => hps (by rw [e, pageOf_slot hc (hi.aligned hcs) hic]), hm⟩
    · exact ⟨fun e => hij (slot_inj hc e).symm, (hp.mpr ⟨j, hjc, hjb, rfl⟩).1⟩

theorem freeTakesEffect_of_inv {s : Buddy} {rest : Multiset Nat}
    {phys : Nat} (h : Inv pool s (pagesOf phys order + rest)) (hpages : pages ≠ 0)
    (ho : pagesToOrder pages = some (some order)) (hal : blockBytes order ∣ phys) :
    freeTakesEffect s phys pages = true := by
  have hb := phys_ge_of_rest h hal
  simp [freeTakesEffect, hpages, ho, h.memStart, hb.1, hb.2]

theorem setSlab_sameOff (h : Heap) (sl : SlabT) (hs : pageSize ∣ s) :
    SameOff (· = s) h (setSlab h s sl) := by
  refine ⟨rfl, fun x hx => ?_, fun _ _ => rfl, fun _ _ => rfl, fun _ _ => rfl⟩
  have hne : x ≠ s := fun e => hx (by rw [e, pageOf_of_dvd hs])
  exact Function.update_of_ne hne _ _

theorem unlist_inv (hi : HeapInv pool h sh other live (some s))
    (hsl : s ∈ sh.list (c, .partials)) (h0 : (h.slabs s).used = 0) :
    HeapInv pool (slabListRemove h c .partials s) ⟨sh.slabs.erase (c, s),
      update sh.list (c, .partials) ((sh.list (c, .partials)).erase s)⟩
      (pagesOf s (slabOrder c) + other) live none ∧ ∀ d, (d, s) ∉ sh.slabs.erase (c, s) := by
  have hcs : (c, s) ∈ sh.slabs := hi.mem_slabs hsl
  have hgone : ∀ d, (d, s) ∉ sh.slabs.erase (c, s) := fun d hd =>
    not_mem_sum_map_erase hi.held_nodup hcs (head_mem_pagesOf s _)
      (mem_sum_map.mpr ⟨(d, s), hd, head_mem_pagesOf _ _⟩)
  have hout : ∀ k, s ∉ update sh.list (c, .partials) ((sh.list (c, .partials)).erase s) k :=
    not_mem_removed hi.lists hsl
  refine ⟨⟨?_, ?_, ?_, ?_, slabListRemove_lists hi.lists hsl, ?_, ?_, ?_, ?_⟩, hgone⟩
  · have hb := hi.buddy
    rw [held, sum_map_erase hcs, add_assoc, add_left_comm] at hb
    exact hb
  · intro d hd
    rw [slabListRemove_objSize]
    exact hi.objSize d hd
  · exact fun d x hd => hi.bound d x (mem_of_mem_erase hd)
  · intro d x
    by_cases hx : x = s
    · subst hx
      exact ⟨fun hd => absurd hd (hgone d), fun hd =>
        hd.elim (absurd · (hout _)) (absurd · (hout _))⟩
    · rw [mem_removed hx, mem_removed hx, ← hi.listed d x]
      exact mem_erase_of_ne (by simp [hx])
  · exact fun d x hd => hi.slab d x (mem_of_mem_erase hd)
  · intro d x hxl
    have hx : x ≠ s := fun e => hout _ (e ▸ hxl)
    obtain ⟨h1, h2⟩ := hi.usedPartial d x ((mem_removed hx _).mp hxl)
    exact ⟨h1, fun hz => absurd (Option.some.inj (h2 hz)).symm hx⟩
  · intro d x hxl
    have hx : x ≠ s := fun e => hout _ (e ▸ hxl)
    exact hi.usedFull d x ((mem_removed hx _).mp hxl)
  · intro p
    rw [hi.live_iff p]
    constructor
    · rintro ⟨d, x, i, hd, hic, hib, hp⟩
      refine ⟨d, x, i, (mem_erase_of_ne ?_).mpr hd, hic, hib, hp⟩
      intro he
      cases he
      have := (hi.slab c s hcs).used_pos hic hib
      omega
    · rintro ⟨d, x, i, hd, hic, hib, hp⟩
      exact ⟨d, x, i, mem_of_mem_erase hd, hic, hib, hp⟩

theorem slabPageFree_inv (hi : HeapInv pool h sh (pagesOf s order + other) live empty)
    (hpg : pages ≠ 0) (hord : pagesToOrder pages = some (some order)) (hal : blockBytes order ∣ s) :
    ∃ h', slabPageFree h s pages = .ret h' () ∧ SameOff (· = s) h h' ∧
      HeapInv pool h' sh other live empty := by
  have hb : Inv pool h.buddy (pagesOf s order + (held sh.slabs + other)) := by
    rw [add_left_comm]
    exact hi.buddy
  have hps : pageSize ∣ s := by
    rw [blockBytes_eq] at hal
    exact dvd_of_mul_right_dvd hal
  obtain ⟨hfree, hb'⟩ := pmmFree_inv hb hpg hord hal
  have heff := freeTakesEffect_of_inv hb hpg hord hal
  have hpage : ∀ i ∈ range 8, pageOf (s + 8 * i) = s := by
    intro i hm
    have : i < 8 := mem_range.mp hm
    obtain ⟨k, rfl⟩ := hps
    rw [pageOf, pageSize]
    omega
  have hclear := foldl_storeWord_sameOff (range 8)
    { h with buddy := buddyFreeOrder h.buddy s order } hpage
  simp only [slabPageFree, hfree, heff, if_true]
  generalize (range 8).foldl _ _ = h' at hclear ⊢
  have hoff : SameOff (· = s) h h' := (SameOff.setBuddy _ _ _).trans hclear.1
  refine ⟨h', rfl, hoff, hi.sameOff (by rw [hclear.2]; exact hb') hoff ?_⟩
  rintro d x hd rfl
  have hn := (Multiset.nodup_add.mp hb.nodup).2.1
  apply Multiset.disjoint_left.mp (Multiset.nodup_add.mp hn).2.2 (head_mem_pagesOf x order)
  exact Multiset.mem_add.mpr (.inl (mem_sum_map.mpr ⟨(d, x), hd, head_mem_pagesOf _ _⟩))

/-- An empty slab gives its pages back or stays. -/
theorem releaseEmpty_inv (hi : HeapInv pool h sh other live (some s))
    (hsl : s ∈ sh.list (c, .partials)) :
    ∃ h' sh', releaseEmpty h c s = .ret h' () ∧ LinksKept sh.slabs h h' ∧
      HeapInv pool h' sh' other live none := by
  have hcs : (c, s) ∈ sh.slabs := hi.mem_slabs hsl
  by_cases h0 : (h.slabs s).used = 0
  · obtain ⟨hc, hal⟩ := hi.bound c s hcs
    obtain ⟨-, -, -, -, -, -, -, hpg, hord, -⟩ := class_layout hc
    obtain ⟨hmid, hgone⟩ := unlist_inv hi hsl h0
    have hobj : ((slabListRemove h c .partials s).slabs s).objSize = sizeClass c :=
      (hi.slab c s hcs).objSize
    have hset := setSlab_sameOff (slabListRemove h c .partials s)
      { (slabListRemove h c .partials s).slabs s with magic := 0 } (hi.aligned hcs)
    have hout : ∀ d x, (d, x) ∈ sh.slabs.erase (c, s) → x ≠ s := fun d x hd e => hgone d (e ▸ hd)
    generalize hg : setSlab (slabListRemove h c .partials s) s _ = g at hset
    have hmid' := hmid.sameOff (by rw [← hg]; exact hmid.buddy) hset hout
    obtain ⟨h', hr, hoff, hi'⟩ := slabPageFree_inv hmid' hpg hord hal
    have hpages : (if slabPages ((slabListRemove h c .partials s).slabs s).objSize > 0 then
        slabPages ((slabListRemove h c .partials s).slabs s).objSize else 1) =
        slabPages (sizeClass c) := by
      rw [hobj, if_pos (Nat.pos_of_ne_zero hpg)]
    refine ⟨h', _, ?_, fun x hx => ?_, hi'⟩
    · rw [releaseEmpty, if_pos h0]
      dsimp only
      rw [hpages, hg]
      exact hr
    · have hne : ¬ pageOf x = s := fun e => hx (mem_sum_map.mpr ⟨(c, s), hcs, by
        rw [slabPagesOf, ← Nat.mul_div_cancel (x / pageSize) pageSize_pos, ← pageOf, e]
        exact head_mem_pagesOf _ _⟩)
      have hunlink := (hi.lists.list (c, .partials)).unlink_frame hsl (hi.not_listed hx _)
      exact ⟨((hoff.next x hne).trans (hset.next x hne)).trans hunlink.1,
        ((hoff.prev x hne).trans (hset.prev x hne)).trans hunlink.2⟩
  · refine ⟨h, sh, by
      simp [releaseEmpty, h0], fun _ _ => ⟨rfl, rfl⟩, { hi with usedPartial := fun d x hx => ?_ }⟩
    obtain ⟨h1, h2⟩ := hi.usedPartial d x hx
    refine ⟨h1, fun hz => ?_⟩
    obtain rfl := Option.some.inj (h2 hz)
    exact absurd hz h0

theorem giveSlot_eq (hc : c < slabNumCaches) (hs : pageSize ∣ s) (hi : i < capacity c) :
    giveSlot h c s (slot s c i) i = { h with
      caches := update h.caches c
        { h.caches c with totalFrees := (h.caches c).totalFrees + 1 }
      slabs := update h.slabs s { h.slabs s with
        freemap := setBit (h.slabs s).freemap i
        freelist := slot s c i
        used := (h.slabs s).used - 1 }
      mem := update h.mem (slot s c i) (h.slabs s).freelist } := by
  have hob : slabBytes ≤ slot s c i % pageSize := by
    rw [slot_mod hc hs hi]
    omega
  simp only [giveSlot, storeWord_object _ hob, setCache, setSlab]

theorem find_class (hi : HeapInv pool h sh other live empty) (hc : c < slabNumCaches) :
    ((range slabNumCaches).find? fun d => decide ((h.caches d).objSize = sizeClass c)) =
    some c := by
  cases hf : (range slabNumCaches).find? fun d => decide ((h.caches d).objSize = sizeClass c) with
  | none =>
    have hn := List.find?_eq_none.mp hf c (mem_range.mpr hc)
    simp [hi.objSize c hc] at hn
  | some d =>
    have hd : d < slabNumCaches := mem_range.mp (mem_of_find?_eq_some hf)
    have hp := List.find?_some hf
    rw [hi.objSize d hd, decide_eq_true_eq] at hp
    rw [sizeClass_inj d hd c hc hp]

/-- Freeing a live object on the slab path. -/
theorem kfreeSlab_inv (hi : HeapInv pool h sh other live none) {p : Nat} (hp : p ∈ live) :
    ∃ h' sh', kfreeSlab h p = .ret h' () ∧ LinksKept sh.slabs h h' ∧
      HeapInv pool h' sh' other (live.erase p) none := by
  obtain ⟨c, s, i, hcs, hic, hbit, rfl⟩ := (hi.live_iff p).mp hp
  have hc := (hi.bound c s hcs).1
  have hal := hi.aligned hcs
  have hok := hi.slab c s hcs
  obtain ⟨hge, hmod, hdiv, h32⟩ := slot_index hc hal hic
  have hok' := hok.give hc hic hbit
  have hlive := hi.live_give hcs hic
  have hg := giveSlot_eq (h := h) hc hal hic
  simp only [kfreeSlab, pageOf_slot hc hal hic, hok.magic, hok.objSize, hok.total, hdiv, h32, hbit,
    find_class hi hc]
  rw [if_neg (by simp [hge, hmod, hic]), if_neg (by simp)]
  generalize giveSlot h c s (slot s c i) i = g at hg ⊢
  have hheads : heads g.caches = heads h.caches := by
    rw [hg]
    exact heads_setCache fun k => by cases k <;> rfl
  have hobj : ∀ d, (g.caches d).objSize = (h.caches d).objSize := by
    rw [hg]
    exact setCache_objSize (h := h) rfl
  have hgl : DLists g.links (heads g.caches) sh.list := by
    rw [hheads, hg]
    exact hi.lists
  have hmem : ∀ a, pageOf a ≠ s → g.mem a = h.mem a := by
    intro a ha
    rw [hg]
    exact Function.update_of_ne (fun e => ha (by rw [e, pageOf_slot hc hal hic])) _ _
  have hslabs := congrArg Heap.slabs hg
  have hlinks : g.links = h.links := by rw [hg]
  have hgm : g.mem = update h.mem (slot s c i) (h.slabs s).freelist := by rw [hg]
  rw [← hgm] at hok'
  have hle : (h.slabs s).used ≤ capacity c := by
    obtain ⟨l, -, -, -, hl⟩ := hok.chain
    omega
  by_cases hfull : (h.slabs s).used = capacity c
  · rw [if_pos (by simpa using hfull)]
    have hsl : s ∈ sh.list (c, .fulls) := by
      rcases (hi.listed c s).mp hcs with hm | hm
      · have := (hi.usedPartial c s hm).1
        omega
      · exact hm
    have hlists := move_lists (j := .partials) hgl hsl (hi.ne_zero hcs)
    have hbuddy : (slabListPush (slabListRemove g c .fulls s) c .partials s).buddy = h.buddy := by
      show g.buddy = h.buddy
      rw [hg]
    have hmod := hi.modify hcs (by simp) hbuddy ?_ hslabs hmem hok' hlists
      (fun k x hx => mem_moved hx k)
      (.inl ⟨moved_self _ _ _ _ _, ?_, fun _ => rfl⟩) hlive
    · obtain ⟨h', sh', hr, hkept, hi'⟩ := releaseEmpty_inv hmod (moved_self _ _ _ _ _)
      refine ⟨h', sh', hr, LinksKept.trans (fun x hx => ?_) hkept, hi'⟩
      have hmove := move_frame (j := .partials) hgl hsl (hi.not_listed hx)
      rwa [hlinks] at hmove
    · intro d
      rw [slabListPush_objSize, slabListRemove_objSize, hobj]
    · show (h.slabs s).used - 1 < _
      omega
  · rw [if_neg (by simpa using hfull)]
    have hsl : s ∈ sh.list (c, .partials) := by
      rcases (hi.listed c s).mp hcs with hm | hm
      · exact hm
      · exact absurd (hi.usedFull c s hm) hfull
    have hmod := hi.modify hcs (by simp) (by rw [hg]) hobj hslabs hmem hok' hgl
      (fun _ _ _ => Iff.rfl) (.inl ⟨hsl, ?_, fun _ => rfl⟩) hlive
    · obtain ⟨h', sh', hr, hkept, hi'⟩ := releaseEmpty_inv hmod hsl
      exact ⟨h', sh', hr, LinksKept.trans (fun x _ => by rw [hlinks]; exact ⟨rfl, rfl⟩) hkept, hi'⟩
    show (h.slabs s).used - 1 < _
    omega

theorem kfree_inv (hi : HeapInv pool h sh other live none) {p : Nat} (hp : p ∈ live)
    (hl : isLargeAlloc h p = false) :
    ∃ h' sh', kfree h (some p) = .ret h' () ∧ LinksKept sh.slabs h h' ∧
      HeapInv pool h' sh' other (live.erase p) none := by
  simp only [kfree, hl, Bool.false_eq_true, if_false]
  exact kfreeSlab_inv hi hp

end Cervus.Slab
