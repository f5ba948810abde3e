import Cervus.Slab.Invariant

/-! `kmalloc` of a slab object keeps the invariant, does not panic and returns an
object that is not live. -/

namespace Cervus.Slab

open Function (update update_of_ne update_self)
open Cervus.Lib Cervus.Pmm List

theorem heads_setHead (caches : Nat → SlabCache) (c x : Nat) (k : SlabList) :
    heads (update caches c ((caches c).setHead k x)) =
      update (heads caches) (c, k) x := by
  funext ⟨d, j⟩
  by_cases hd : d = c
  · subst hd
    cases k <;> cases j <;> simp [heads, SlabCache.head, SlabCache.setHead]
  · simp [heads, hd]

variable {h : Heap} {list : Nat × SlabList → List Nat} {c i pages s size x : Nat} {j k : SlabList}
    {sh : Shape}

def moved (list : Nat × SlabList → List Nat) (c s : Nat) (k j : SlabList) :
    Nat × SlabList → List Nat :=
  let list' := update list (c, k) ((list (c, k)).erase s)
  update list' (c, j) (s :: list' (c, j))

theorem not_mem_removed {L : Links} {head : Nat × SlabList → Nat}
    (hl : DLists L head list) {k : Nat × SlabList} (hs : s ∈ list k) (j : Nat × SlabList) :
    s ∉ update list k ((list k).erase s) j := by
  by_cases hj : j = k
  · subst hj
    rw [update_self]
    exact (hl.nodup j).not_mem_erase
  · rw [update_of_ne hj]
    exact fun hm => hj (hl.apart j k s hm hs)

theorem moved_self (list : Nat × SlabList → List Nat) (c s : Nat) (k j : SlabList) :
    s ∈ moved list c s k j (c, j) := by
  simp [moved]

theorem mem_removed {k : Nat × SlabList} (hx : x ≠ s) (j : Nat × SlabList) :
    x ∈ update list k ((list k).erase s) j ↔ x ∈ list j := by
  by_cases hj : j = k
  · subst hj
    rw [update_self, mem_erase_of_ne hx]
  · rw [update_of_ne hj]

theorem mem_moved (hx : x ≠ s) (i : Nat × SlabList) : x ∈ moved list c s k j i ↔ x ∈ list i := by
  have hr : x ∈ update list (c, k) ((list (c, k)).erase s) i ↔ x ∈ list i := mem_removed hx i
  simp only [moved]
  by_cases hi : i = (c, j)
  · subst hi
    rw [update_self, mem_cons, or_iff_right hx, hr]
  · rw [update_of_ne hi, hr]

section
variable (hl : DLists h.links (heads h.caches) list)
include hl

theorem slabListPush_lists (c : Nat) (k : SlabList) (hs : s ≠ 0) (hm : ∀ j, s ∉ list j) :
    DLists (slabListPush h c k s).links (heads (slabListPush h c k s).caches)
      (update list (c, k) (s :: list (c, k))) := by
  simp only [slabListPush, setCache, heads_setHead]
  exact hl.push (c, k) hs hm

theorem slabListRemove_lists (hs : s ∈ list (c, k)) :
    DLists (slabListRemove h c k s).links (heads (slabListRemove h c k s).caches)
      (update list (c, k) ((list (c, k)).erase s)) := by
  simp only [slabListRemove, setCache, heads_setHead]
  exact hl.remove (c, k) hs

theorem move_lists (hs : s ∈ list (c, k)) (h0 : s ≠ 0) :
    DLists (slabListPush (slabListRemove h c k s) c j s).links
      (heads (slabListPush (slabListRemove h c k s) c j s).caches) (moved list c s k j) :=
  slabListPush_lists (slabListRemove_lists hl hs) c j h0 (not_mem_removed hl hs)

theorem move_frame (hs : s ∈ list (c, k)) (hx : ∀ i, x ∉ list i) :
    (slabListPush (slabListRemove h c k s) c j s).links.next x = h.links.next x ∧
      (slabListPush (slabListRemove h c k s) c j s).links.prev x = h.links.prev x := by
  have hne : x ≠ s := fun e => hx _ (e ▸ hs)
  have hrest := (slabListRemove_lists hl hs).list (c, j)
  have hpush := hrest.push_frame hne (fun hm => hx _ ((mem_removed hne _).mp hm))
  have hunlink := (hl.list (c, k)).unlink_frame hs (hx _)
  exact ⟨hpush.1.trans hunlink.1, hpush.2.trans hunlink.2⟩

end

theorem slot_index (hc : c < slabNumCaches) (hs : pageSize ∣ s) (hi : i < capacity c) :
    ¬ slot s c i < slabObjStart s ∧ (slot s c i - slabObjStart s) % sizeClass c = 0 ∧
      (slot s c i - slabObjStart s) / sizeClass c = i ∧ i % 2 ^ 32 = i := by
  obtain ⟨h8, -, -, -, hcap, -⟩ := class_layout hc
  have hsub : slot s c i - slabObjStart s = i * sizeClass c := by
    rw [slabObjStart_eq hs, slot, Nat.add_sub_cancel_left]
  refine ⟨?_, ?_, ?_, Nat.mod_eq_of_lt (by omega)⟩
  · rw [slabObjStart_eq hs, slot]
    omega
  · rw [hsub, Nat.mul_mod_left]
  · rw [hsub, Nat.mul_div_cancel _ (by omega)]

variable {cache : SlabCache} {other : Multiset Nat} {live pool : Finset Nat} {empty : Option Nat}

theorem heads_setCache {caches : Nat → SlabCache} (hc : ∀ k, cache.head k = (caches c).head k) :
    heads (update caches c cache) = heads caches := by
  funext ⟨d, k⟩
  by_cases hd : d = c
  · subst hd
    simp [heads, hc k]
  · simp [heads, hd]

theorem setCache_objSize (hc : cache.objSize = (h.caches c).objSize) (d : Nat) :
    ((setCache h c cache).caches d).objSize = (h.caches d).objSize := by
  by_cases hd : d = c
  · subst hd
    simp [setCache, hc]
  · simp [setCache, hd]

theorem slabListPush_objSize (h : Heap) (c : Nat) (k : SlabList) (s d : Nat) :
    ((slabListPush h c k s).caches d).objSize = (h.caches d).objSize :=
  (setCache_objSize (h := { h with links := _ }) (by cases k <;> rfl) d)

theorem slabListRemove_objSize (h : Heap) (c : Nat) (k : SlabList) (s d : Nat) :
    ((slabListRemove h c k s).caches d).objSize = (h.caches d).objSize :=
  (setCache_objSize (h := { h with links := _ }) (by cases k <;> rfl) d)

theorem takeSlot_objSize (h : Heap) (c s i d : Nat) :
    ((takeSlot h c s i).caches d).objSize = (h.caches d).objSize := by
  simp only [takeSlot]
  rw [setCache_objSize]
  · rfl
  · rfl

theorem takeSlot_heads (h : Heap) (c s i : Nat) :
    heads (takeSlot h c s i).caches = heads h.caches :=
  heads_setCache fun k => by cases k <;> rfl

section
variable (hi : HeapInv pool h sh other live empty)
include hi

theorem cacheFor_eq_some (hs : size ≤ slabMaxSize) :
    ∃ c < slabNumCaches, cacheFor h size = some c ∧ size ≤ sizeClass c := by
  cases hf : cacheFor h size with
  | none =>
    have hn := List.find?_eq_none.mp hf 9 (by decide)
    rw [hi.objSize 9 (by decide), decide_eq_true_eq] at hn
    exact absurd hs hn
  | some c =>
    have hc : c < slabNumCaches := mem_range.mp (mem_of_find?_eq_some hf)
    have hp := List.find?_some hf
    rw [hi.objSize c hc, decide_eq_true_eq] at hp
    exact ⟨c, hc, rfl, hp⟩

theorem HeapInv.live_take (hcs : (c, s) ∈ sh.slabs) (hic : i < capacity c) (p : Nat) :
    p ∈ insert (slot s c i) live ↔ (p ∈ live ∧ pageOf p ≠ s) ∨
      ∃ j < capacity c, testBit (clearBit (h.slabs s).freemap i) j = false ∧ p = slot s c j := by
  have hp := hi.live_page hcs p
  simp only [testBit_clearBit, Bool.and_eq_false_iff, Bool.not_eq_false', decide_eq_true_eq,
    Finset.mem_insert]
  constructor
  · rintro (rfl | hm)
    · exact .inr ⟨i, hic, .inl rfl, rfl⟩
    · by_cases hps : pageOf p = s
      · obtain ⟨j, hjc, hjb, hj⟩ := hp.mp ⟨hm, hps⟩
        exact .inr ⟨j, hjc, .inr hjb, hj⟩
      · exact .inl ⟨hm, hps⟩
  · rintro (⟨hm, -⟩ | ⟨j, hjc, rfl | hjb, hj⟩)
    · exact .inr hm
    · exact .inl hj
    · exact .inr (hp.mpr ⟨j, hjc, hjb, hj⟩).1

theorem HeapInv.head_mem
    (hne : (h.caches c).partialHead ≠ 0) : (h.caches c).partialHead ∈ sh.list (c, .partials) := by
  have hd : DList h.links 0 (h.caches c).partialHead (sh.list (c, .partials)) :=
    hi.lists.list (c, .partials)
  cases hl : sh.list (c, .partials) with
  | nil => exact absurd (hd.head_eq_zero_iff.mpr hl) hne
  | cons x l =>
    rw [hl] at hd
    simp [hd.1]

/-- An object is taken from the first partial slab. -/
theorem takeObject_inv
    (he : ∀ x, empty = some x → x = (h.caches c).partialHead) (hne : (h.caches c).partialHead ≠ 0) :
    ∃ h' s i list', takeObject h c = .ret h' (some (slot s c i)) ∧ (c, s) ∈ sh.slabs ∧
      i < capacity c ∧ slot s c i ∉ live ∧ LinksKept sh.slabs h h' ∧
      HeapInv pool h' ⟨sh.slabs, list'⟩ other (insert (slot s c i) live) none := by
  have hsl := hi.head_mem hne
  simp only [takeObject]
  generalize (h.caches c).partialHead = s at he hne hsl ⊢
  have hcs : (c, s) ∈ sh.slabs := hi.mem_slabs hsl
  have hc := (hi.bound c s hcs).1
  have hal := hi.aligned hcs
  have hok := hi.slab c s hcs
  obtain ⟨i, hic, hfl, hbit, hok'⟩ := hok.take (hi.usedPartial c s hsl).1
  obtain ⟨hge, hmod, hdiv, h32⟩ := slot_index hc hal hic
  have hload : loadWord h (slot s c i) = h.mem (slot s c i) :=
    loadWord_object (by rw [slot_mod hc hal hic]; omega)
  have hnl : slot s c i ∉ live := by
    intro hm
    obtain ⟨j, hjc, hjb, hj⟩ := (hi.live_page hcs _).mp ⟨hm, pageOf_slot hc hal hic⟩
    obtain rfl := slot_inj hc hj
    simp [hbit] at hjb
  have hself : (takeSlot h c s i).slabs s = { h.slabs s with
      freemap := clearBit (h.slabs s).freemap i
      freelist := h.mem (h.slabs s).freelist
      used := (h.slabs s).used + 1 } := by
    simp [takeSlot, setCache, setSlab, hfl, hload]
  have hslabs : (takeSlot h c s i).slabs = update h.slabs s ((takeSlot h c s i).slabs s) := by
    simp [takeSlot, setCache, setSlab]
  rw [hok.objSize, hok.total, hfl, hdiv, h32, if_neg (by simp [hge, hmod, hbit, hic])]
  rw [← hself] at hok'
  have hused : ((takeSlot h c s i).slabs s).used = (h.slabs s).used + 1 := by rw [hself]
  have hlive := hi.live_take hcs hic
  rw [show clearBit (h.slabs s).freemap i = ((takeSlot h c s i).slabs s).freemap by rw [hself]]
    at hlive
  split_ifs with hfull
  · have hlists : DLists (takeSlot h c s i).links (heads (takeSlot h c s i).caches) sh.list := by
      rw [takeSlot_heads]
      exact hi.lists
    refine ⟨_, s, i, moved sh.list c s .partials .fulls, rfl, hcs, hic, hnl,
      fun x hx => move_frame (j := .fulls) hlists hsl (hi.not_listed hx),
      hi.modify hcs he rfl ?_ hslabs (fun _ _ => rfl) hok' ?_ ?_ ?_ hlive⟩
    · intro d
      rw [slabListPush_objSize, slabListRemove_objSize, takeSlot_objSize]
    · exact move_lists hlists hsl hne
    · exact fun k x hx => mem_moved hx k
    · exact .inr ⟨moved_self _ _ _ _ _, hfull.trans hok'.total⟩
  · refine ⟨_, s, i, sh.list, rfl, hcs, hic, hnl, fun _ _ => ⟨rfl, rfl⟩,
      hi.modify hcs he rfl ?_ hslabs (fun _ _ => rfl) hok' ?_ ?_ ?_ hlive⟩
    · exact takeSlot_objSize h c s i
    · rw [takeSlot_heads]
      exact hi.lists
    · exact fun k x hx => Iff.rfl
    · have := (hi.usedPartial c s hsl).1
      rw [hok'.total] at hfull
      exact .inl ⟨hsl, by omega, by omega⟩

end

theorem slabFill_sameOff (hc : c < slabNumCaches) (hs : pageSize ∣ s) :
    SameOff (· = s) h (slabFill h s (sizeClass c) (capacity c)) := by
  have hne : ∀ {x : Nat}, ¬ pageOf x = s → x ≠ s := fun hx e => hx (by rw [e, pageOf_of_dvd hs])
  refine ⟨rfl, fun x hx => ?_, fun x hx => ?_, fun x hx => ?_, fun a ha => ?_⟩
  · exact update_of_ne (hne hx) _ _
  · exact update_of_ne (hne hx) _ _
  · exact update_of_ne (hne hx) _ _
  · apply foldl_slotLink_off
    rintro i hi rfl
    apply ha
    rw [slabObjStart_eq hs]
    exact pageOf_slot hc hs hi

theorem slabFill_ok (hc : c < slabNumCaches) (hs : pageSize ∣ s) :
    SlabOk ((slabFill h s (sizeClass c) (capacity c)).slabs s)
      (slabFill h s (sizeClass c) (capacity c)).mem c s := by
  obtain ⟨h8, h16, -, hpos, -⟩ := class_layout hc
  have hslot : ∀ i, slot s c i ≠ 0 := by
    intro i
    have : 0 < slabBytes := by decide
    rw [slot]
    omega
  have hlink : ∀ i < capacity c, (slabFill h s (sizeClass c) (capacity c)).mem (slot s c i) =
      if i + 1 < capacity c then slot s c (i + 1) else 0 := by
    intro i hi
    simp only [slabFill, slabObjStart_eq hs]
    exact foldl_slotLink (by omega) _ _ _ hi
  have hch := Chain.of_links hslot hlink (capacity c) 0 (zero_add _)
  rw [if_pos hpos] at hch
  simp only [slabFill, update_self]
  have hbit : ∀ i, testBit ((range (capacity c)).foldl setBit fun _ => 0) i = true ↔
      i < capacity c := by
    intro i
    rw [testBit_foldl_setBit]
    simp [testBit]
  refine ⟨rfl, Nat.mod_eq_of_lt h16, rfl, fun i => (hbit i).mp, range (capacity c),
    nodup_range, ?_, ?_, ?_⟩
  · rw [slabObjStart_eq hs]
    simpa [slot, slabFill, slabObjStart_eq hs, range_eq_range' (n := capacity c)] using hch
  · intro i
    rw [hbit i, mem_range]
  · simp

theorem pmmAlloc_returns {s : Buddy} (ho : pagesToOrder pages ≠ none) :
    ∃ s' r, pmmAlloc s pages = .ret s' r := by
  rw [pmmAlloc]
  by_cases h0 : pages = 0
  · exact ⟨s, none, if_pos h0⟩
  rw [if_neg h0]
  obtain ⟨o, hp⟩ := Option.ne_none_iff_exists'.mp ho
  rw [hp]
  cases o with
  | none => exact ⟨s, none, rfl⟩
  | some order =>
    dsimp only
    split <;> exact ⟨_, _, rfl⟩

theorem zeroPages_block (h : Heap) {p order : Nat} (hp : pageSize ∣ p) (hle : pages ≤ 2 ^ order) :
    SameOff (fun q => q / pageSize ∈ pagesOf p order) h (zeroPages h p pages) := by
  refine (zeroPages_sameOff h pages hp).mono fun q hq => ?_
  have hend : pages * pageSize ≤ pageSize * 2 ^ order := by
    rw [mul_comm]
    exact Nat.mul_le_mul_left _ hle
  rw [pagesOf, mem_block]
  refine ⟨Nat.div_le_div_right hq.1, ?_⟩
  rw [← Nat.add_mul_div_left _ _ pageSize_pos]
  exact Nat.div_lt_div_of_lt_of_dvd (dvd_add hp (dvd_mul_right _ _)) (by omega)

section
variable (hi : HeapInv pool h sh other live none)
include hi

theorem newSlab_inv {h' : Heap} (hc : c < slabNumCaches) (hal : blockBytes (slabOrder c) ∣ s)
    (hb : Inv pool h'.buddy (pagesOf s (slabOrder c) + (held sh.slabs + other)))
    (hs : SameOff (fun q => q / pageSize ∈ pagesOf s (slabOrder c)) h h')
    (hok : SlabOk (h'.slabs s) h'.mem c s) (h0 : (h'.slabs s).used = 0) :
    HeapInv pool (slabListPush h' c .partials s)
      ⟨(c, s) :: sh.slabs, update sh.list (c, .partials) (s :: sh.list (c, .partials))⟩
      other live (some s) := by
  have hn := (Multiset.nodup_add.mp hb.nodup).2.1
  have hfresh : ∀ q ∈ pagesOf s (slabOrder c), q ∉ held sh.slabs := fun q hq hm =>
    Multiset.disjoint_left.mp (Multiset.nodup_add.mp hn).2.2 hq (Multiset.mem_add.mpr (.inl hm))
  have hnew : ∀ d x, (d, x) ∈ sh.slabs → x / pageSize ∉ pagesOf s (slabOrder c) := fun d x hd hq =>
    hfresh _ hq (mem_sum_map.mpr ⟨(d, x), hd, head_mem_pagesOf _ _⟩)
  have hne : ∀ d x, (d, x) ∈ sh.slabs → x ≠ s := fun d x hd e =>
    hnew d x hd (e ▸ head_mem_pagesOf _ _)
  have hi' : HeapInv pool h' sh (pagesOf s (slabOrder c) + other) live none :=
    hi.sameOff (by rwa [add_left_comm]) hs hnew
  have hs0 : s ≠ 0 := by
    have hge := (phys_ge_of_rest hb hal).1
    have : 0 < freeMinPhys := by decide
    omega
  have hm : ∀ k, s ∉ sh.list k := fun k hk => hne _ s (hi'.mem_slabs hk) rfl
  refine ⟨?_, ?_, ?_, ?_, slabListPush_lists hi'.lists c .partials hs0 hm, ?_, ?_, ?_, ?_⟩
  · show Inv pool h'.buddy (held ((c, s) :: sh.slabs) + other)
    rwa [held, map_cons, sum_cons, add_assoc]
  · intro d hd
    rw [slabListPush_objSize]
    exact hi'.objSize d hd
  · intro d x hd
    rcases mem_cons.mp hd with he | hd
    · cases he
      exact ⟨hc, hal⟩
    · exact hi'.bound d x hd
  · intro d x
    rw [mem_update_cons, mem_update_cons, mem_cons, hi'.listed d x]
    simp [or_assoc]
  · intro d x hd
    rcases mem_cons.mp hd with he | hd
    · cases he
      exact hok
    · exact hi'.slab d x hd
  · intro d x hx
    show (h'.slabs x).used < _ ∧ ((h'.slabs x).used = 0 → _)
    rcases mem_update_cons.mp hx with ⟨hk, rfl⟩ | hx
    · cases hk
      exact ⟨by rw [h0]; exact (class_layout hc).2.2.2.1, fun _ => rfl⟩
    · obtain ⟨h1, h2⟩ := hi'.usedPartial d x hx
      exact ⟨h1, fun hz => by cases h2 hz⟩
  · intro d x hx
    rcases mem_update_cons.mp hx with ⟨hk, -⟩ | hx
    · cases hk
    · exact hi'.usedFull d x hx
  · intro p
    rw [hi'.live_iff p]
    constructor
    · rintro ⟨d, x, i, hd, hic, hib, hp⟩
      exact ⟨d, x, i, mem_cons_of_mem _ hd, hic, hib, hp⟩
    · rintro ⟨d, x, i, hd, hic, hib, hp⟩
      rcases mem_cons.mp hd with he | hd
      · cases he
        have hpos := hok.used_pos hic hib
        omega
      · exact ⟨d, x, i, hd, hic, hib, hp⟩

/-- A new slab, or no pages for one. -/
theorem slabNew_inv (hc : c < slabNumCaches) :
    slabNew h (sizeClass c) = .ret h none ∨ ∃ h' s list',
      slabNew h (sizeClass c) = .ret h' (some s) ∧
      LinksKept ((c, s) :: sh.slabs) h (slabListPush h' c .partials s) ∧
      HeapInv pool (slabListPush h' c .partials s) ⟨(c, s) :: sh.slabs, list'⟩ other live
      (some s) := by
  obtain ⟨-, -, -, hpos, -, -, -, hpg, hord, hbytes⟩ := class_layout hc
  obtain ⟨b, r, hr⟩ := pmmAlloc_returns (s := h.buddy) (ne_of_eq_of_ne hord nofun)
  have hcap : ¬ slabCapacity (sizeClass c) = 0 := by
    have : slabCapacity (sizeClass c) = capacity c := rfl
    omega
  simp only [slabNew, if_neg hcap, pmmAllocZero, hr]
  rcases pmmAlloc_inv hi.buddy hr with ⟨rfl, rfl⟩ | ⟨s, order, rfl, ho, hal, hb⟩
  · exact .inl rfl
  obtain rfl : order = slabOrder c := by
    rw [hord] at ho
    exact (Option.some.inj (Option.some.inj ho)).symm
  have hps : pageSize ∣ s := by
    rw [blockBytes_eq] at hal
    exact dvd_of_mul_right_dvd hal
  have hoff : SameOff (fun q => q / pageSize ∈ pagesOf s (slabOrder c)) h
      (slabFill (zeroPages { h with buddy := b } s (slabPages (sizeClass c))) s (sizeClass c)
        (capacity c)) := by
    have hle : slabPages (sizeClass c) ≤ 2 ^ slabOrder c := by
      rw [mul_comm] at hbytes
      exact (Nat.eq_of_mul_eq_mul_left pageSize_pos hbytes).le
    refine ((SameOff.setBuddy _ h b).trans (zeroPages_block { h with buddy := b } hps hle)).trans
      ((slabFill_sameOff hc hps).mono fun q hq => ?_)
    rw [hq]
    exact head_mem_pagesOf _ _
  have hinv := newSlab_inv hi hc hal hb hoff (slabFill_ok hc hps) (by simp [slabFill])
  refine .inr ⟨_, s, _, rfl, fun x hx => ?_, hinv⟩
  obtain ⟨hnew, hold⟩ : x / pageSize ∉ pagesOf s (slabOrder c) ∧ x / pageSize ∉ held sh.slabs := by
    rwa [held, map_cons, sum_cons, Multiset.mem_add, not_or] at hx
  have hpx : ¬ pageOf x / pageSize ∈ pagesOf s (slabOrder c) := by
    rwa [pageOf, Nat.mul_div_cancel _ pageSize_pos]
  have hne : x ≠ s := fun e => hnew (e ▸ head_mem_pagesOf _ _)
  have hbuddy : Inv pool b (held sh.slabs + (pagesOf s (slabOrder c) + other)) := by
    rwa [add_left_comm]
  have hout : ∀ d y, (d, y) ∈ sh.slabs → y / pageSize ∉ pagesOf s (slabOrder c) := fun d y hd hq =>
    Multiset.disjoint_left.mp (Multiset.nodup_add.mp (Multiset.nodup_add.mp hb.nodup).2.1).2.2 hq
      (Multiset.mem_add.mpr (.inl (mem_sum_map.mpr ⟨(d, y), hd, head_mem_pagesOf _ _⟩)))
  have hlist := (hi.sameOff hbuddy hoff hout).lists.list (c, .partials)
  have hpush := hlist.push_frame hne (hi.not_listed hold _)
  exact ⟨hpush.1.trans (hoff.next x hpx), hpush.2.trans (hoff.prev x hpx)⟩

theorem kmalloc_inv (vm : Option Nat) (hs : size ≤ slabMaxSize) :
    kmalloc vm h size = .ret h none ∨ ∃ h' sh' c s i,
      kmalloc vm h size = .ret h' (some (slot s c i)) ∧
      (c, s) ∈ sh'.slabs ∧ sh.slabs ⊆ sh'.slabs ∧ i < capacity c ∧ size ≤ sizeClass c ∧
      slot s c i ∉ live ∧ LinksKept sh'.slabs h h' ∧
      HeapInv pool h' sh' other (insert (slot s c i) live) none := by
  obtain ⟨c, hc, hcf, hsz⟩ := cacheFor_eq_some hi hs
  simp only [kmalloc, if_neg (Nat.not_lt.mpr hs), kmallocSlab, hcf, hi.objSize c hc]
  by_cases h0 : size = 0
  · exact .inl (if_pos h0)
  rw [if_neg h0]
  split_ifs with hp
  · rcases slabNew_inv hi hc with hr | ⟨h', s, list', hr, hkept, hi'⟩
    · exact .inl (by rw [hr])
    · have hhead : ((slabListPush h' c .partials s).caches c).partialHead = s := by
        simp [slabListPush, setCache, SlabCache.setHead]
      obtain ⟨h'', s', i, list'', ht, hcs, hic, hnl, hkept', hi''⟩ := takeObject_inv hi'
        (fun x hx => by rw [hhead]; exact (Option.some.inj hx).symm)
        (by rw [hhead]; exact hi'.ne_zero mem_cons_self)
      exact .inr ⟨h'', ⟨_, list''⟩, c, s', i,
        by rw [hr]; exact ht, hcs, subset_cons_self _ _, hic, hsz, hnl,
        hkept.trans hkept', hi''⟩
  · obtain ⟨h'', s', i, list'', ht, hcs, hic, hnl, hkept, hi''⟩ := takeObject_inv hi (by simp) hp
    exact .inr ⟨h'', ⟨_, list''⟩, c, s', i, ht, hcs, List.Subset.refl _, hic, hsz, hnl, hkept, hi''⟩

end

end Cervus.Slab
