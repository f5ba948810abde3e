import Cervus.Kmem.Model

/-! What one call does: `kmalloc` adds an allocation, `kfree` takes one away if it recognises
it, and `krealloc` is the two with a copy between them. -/

namespace Cervus.Kmem

open Cervus.Lib Cervus.Pmm Cervus.Slab List Vmalloc

/-! The copy of `krealloc`. -/

section Copy
variable {P : Heap → Prop} {dst src : Nat}

theorem copyWords_rule {k : Nat}
    (hstep : ∀ h a v, P h → dst ≤ a → a + 8 ≤ dst + 8 * k → P (storeWord h a v)) {h : Heap}
    (h0 : P h) : P (copyWords dst src k h) := by
  induction k with
  | zero => exact h0
  | succ k ih =>
    have hk := ih fun h a v hp h1 h2 => hstep h a v hp h1 (by omega)
    exact hstep _ _ _ hk (Nat.le_add_right _ _) (by omega)

theorem memcpy_rule {n : Nat}
    (hstep : ∀ h a v, P h → dst ≤ a → a + 8 ≤ dst + (n + 7) / 8 * 8 → P (storeWord h a v))
    {h : Heap} (h0 : P h) : P (memcpy h dst src n) := by
  have hk : P (copyWords dst src (n / 8) h) :=
    copyWords_rule (fun h a v hp h1 h2 => hstep h a v hp h1 (by omega)) h0
  rw [memcpy]
  split_ifs with hn
  · exact hk
  · exact hstep _ _ _ hk (Nat.le_add_right _ _) (by omega)

end Copy

variable {pool : Finset Nat} {w : World} {sh : Shape}
  {g : Heap} {x : Alloc} {size : Nat} {s : Vmalloc.Supply} {vm : Vmalloc.Vm} {r : Nat × Nat}

theorem Inv.bytes_eq (h : Inv pool w sh) (hg : Inv pool { w with heap := g } sh) (hx : w.Has x) :
    x.bytes g = x.bytes w.heap := by
  cases x with
  | object p =>
    obtain ⟨c, s, i, hcs, hic, -, rfl⟩ := (h.heap.live_iff p).mp hx
    exact (hg.heap.objBytes_eq hcs hic).trans (h.heap.objBytes_eq hcs hic).symm
  | block r | range r => rfl

theorem Inv.copy (hlow : Low pool) (h : Inv pool w sh) (hx : w.Has x) {n : Nat}
    (hn : (n + 7) / 8 * 8 ≤ x.bytes w.heap) (src : Nat) :
    Inv pool { w with heap := memcpy w.heap x.ptr src n } sh := by
  refine memcpy_rule (P := fun g => Inv pool { w with heap := g } sh) (fun g a v hg h1 h2 => ?_) h
  have hb := h.bytes_eq hg hx
  exact hg.write hlow (.inl ⟨x, hx, h1, by dsimp only; omega⟩) v

theorem Inv.bytes_dvd (h : Inv pool w sh) (hx : w.Has x) : 8 ∣ x.bytes w.heap := by
  cases x with
  | object p =>
    obtain ⟨c, s, i, hcs, hic, -, rfl⟩ := (h.heap.live_iff p).mp hx
    rw [Alloc.bytes, h.heap.objBytes_eq hcs hic]
    exact (class_layout (h.heap.bound c s hcs).1).2.2.1
  | block r =>
    rw [Alloc.bytes, blockBytes_eq]
    exact Nat.dvd_sub (Dvd.dvd.mul_right (by decide) _) (by decide)
  | range r => exact Nat.dvd_sub (Dvd.dvd.mul_left (by decide) _) (by decide)

/-! `kmalloc`. -/

theorem largePages_cases (hs : size < 2 ^ 64) :
    (size + largeHdrBytes ≤ largePages size * pageSize ∧ largePages size ≤ 2 ^ 52) ∨
      (size + 15 < 2 ^ 64 ∧ largePages size = 0) ∨ (2 ^ 64 ≤ size + 15 ∧ largePages size = 1) := by
  simp only [largePages, largeHdrBytes, pageSize]
  omega

theorem largePages_order (hs : size < 2 ^ 64) : pagesToOrder (largePages size) ≠ none := by
  rw [Ne, pagesToOrder_eq_none]
  rcases largePages_cases hs with h | h | h <;> omega

theorem kmalloc_range_eq {h : Heap} (hs : slabMaxSize < size)
    (hp : vmallocMinPages ≤ largePages size) (base : Nat) : Slab.kmalloc (some base) h size =
      .ret (stamp h base (largePages size)) (some (base + largeHdrBytes)) := by
  have h0 : size ≠ 0 := by omega
  rw [Slab.kmalloc, if_neg h0, if_pos hs]
  have hvm : (size + largeHdrBytes + pageSize - 1) % 2 ^ 64 / pageSize ≥ vmallocMinPages := hp
  simp only [if_pos hvm]
  rfl

theorem kmalloc_block_eq {h : Heap} (hs : slabMaxSize < size) : Slab.kmalloc none h size =
    match pmmAllocZero h (largePages size) with
    | .ret h' (some hdr) => .ret (stamp h' hdr (largePages size)) (some (hdr + largeHdrBytes))
    | .ret h' none => .ret h' none | .panic => .panic | .hang => .hang := by
  have h0 : size ≠ 0 := by omega
  rw [Slab.kmalloc, if_neg h0, if_pos hs]
  simp only [ite_self]
  rfl

theorem virtualPages_cases (h : Vmalloc.Inv w.vm) (size : Nat) (s : Vmalloc.Supply) :
    (∃ vm, w.virtualPages size s = (none, vm) ∧ Vmalloc.Inv { w.vm with vm }) ∨
      ∃ base vm, w.virtualPages size s = (some base, vm) ∧ slabMaxSize < size ∧
      vmallocMinPages ≤ largePages size ∧
        Vmalloc.Inv ⟨vm, (base, largePages size) :: w.vm.live⟩ := by
  rw [World.virtualPages]
  split_ifs with hp
  · have hn : ∀ v, Vmalloc.next w.vm (.alloc (largePages size) s) = some v → Vmalloc.Inv v :=
      fun v => Vmalloc.alloc_inv h
    simp only [Vmalloc.next] at hn
    rcases hv : vmallocPages w.vm.vm (largePages size) s with ⟨_ | base, vm⟩
    · rw [hv] at hn
      exact .inl ⟨vm, rfl, hn _ rfl⟩
    · rw [hv] at hn
      exact .inr ⟨base, vm, rfl, hp.1, hp.2, hn _ rfl⟩
  · exact .inl ⟨w.vm.vm, rfl, h⟩

theorem Inv.large_decision (h : Inv pool w sh) (hr : w.Header r) :
    isLargeAlloc w.heap (r.1 + largeHdrBytes) = true := by
  rw [isLargeAlloc, Nat.add_sub_cancel, (loadWord_header _ (h.aligned hr)).1,
    (h.stamped r hr).magic, beq_self_eq_true]

theorem range_erased {v : Vmalloc.World} (h : Vmalloc.Inv v) {r' : Nat × Nat} (hr : r ∈ v.live)
    (hr' : r' ∈ v.live.erase r) :
    r'.1 ≠ r.1 := by
  intro e
  have hsym : ∀ {a b : Nat × Nat}, (∀ j, ¬(Vmalloc.Covers a j ∧ Vmalloc.Covers b j)) →
      ∀ j, ¬(Vmalloc.Covers b j ∧ Vmalloc.Covers a j) := fun hab j hj => hab j hj.symm
  have hapart := pairwise_cons.mp (((perm_cons_erase hr).pairwise_iff hsym).mp h.apart)
  have hfirst : firstOf r' = firstOf r := by rw [firstOf, e, firstOf]
  have hcov := covers_first (h.placed r' (mem_of_mem_erase hr'))
  rw [hfirst] at hcov
  exact hapart.1 r' hr' _ ⟨covers_first (h.placed r hr), hcov⟩

theorem kfree_large_eq (h : Inv pool w sh) (hr : w.Header r) :
    Slab.kfree w.heap (some (r.1 + largeHdrBytes)) =
        (if vmallocOwns r.1 then .ret (storeWord w.heap r.1 0) ()
          else slabPageFree (storeWord w.heap r.1 0) r.1 r.2) ∧
      w.vfreed (r.1 + largeHdrBytes) = if vmallocOwns r.1 then vfreePages w.vm.vm r.1 r.2
      else w.vm.vm := by
  have hpages : loadWord w.heap (r.1 + 8) = r.2 := by
    rw [(loadWord_header _ (h.aligned hr)).2, (h.stamped r hr).pages]
  constructor
  · simp only [Slab.kfree, h.large_decision hr, if_true, Nat.add_sub_cancel, hpages]
  · simp only [World.vfreed, h.large_decision hr, Bool.true_and, Nat.add_sub_cancel, hpages]

theorem kfree_eq (hret : Slab.kfree w.heap (some x.ptr) = .ret g ()) (hvm : w.vfreed x.ptr = vm) :
    w.kfree x = some ({ w with heap := g, vm := { w.vm with vm } }.drop x) := by
  unfold World.kfree
  rw [hret, hvm]

structure Allocated (w w' : World) (size : Nat) (x : Alloc) : Prop where
  has : w'.Has x
  fresh : ¬ w.Has x
  kept : ∀ y, w.Has y → w'.Has y
  large : x.isLarge = decide (slabMaxSize < size)
  room : size + 15 < 2 ^ 64 → size ≤ x.bytes w'.heap

def Kmalloced (pool : Finset Nat) (w : World) (size : Nat) (s : Vmalloc.Supply) : Prop :=
  (∃ w' sh', w.kmalloc size s = some (none, w') ∧ Inv pool w' sh' ∧ ∀ y, w.Has y → w'.Has y) ∨
    ∃ x w' sh', w.kmalloc size s = some (some x.ptr, w') ∧ Inv pool w' sh' ∧ Allocated w w' size x

section

variable (hlow : Low pool) (h : Inv pool w sh)

include hlow h

/-- A small size gets an object of a slab. -/
theorem kmalloc_object (hs : size ≤ slabMaxSize) (s : Vmalloc.Supply) :
    Kmalloced pool w size s := by
  rcases virtualPages_cases h.vm size s with ⟨vm, hv, hvm⟩ | ⟨base, vm, -, hbig, -⟩
  · rcases kmalloc_inv h.heap none hs with hn | ⟨g, sh', c, t, i, hret, hcs, -, hic, hsz, hnl,
      hkept, hi⟩
    · refine .inl ⟨{ w with vm := { w.vm with vm } }, sh, ?_, ⟨⟨h.heap, hvm, h.block⟩, h.stamped⟩,
        fun y hy => ?_⟩
      · rw [World.kmalloc, hv]
        dsimp only
        rw [hn]
      · cases y <;> exact hy
    have hobj : World.handedOut size none (slot t c i) = .object (slot t c i) := if_pos hs
    have hlay :
      Layout pool ({ w with heap := g, vm := { w.vm with vm } }.add (.object (slot t c i))) sh' :=
      ⟨hi, hvm, h.block⟩
    refine .inr ⟨.object (slot t c i), _, sh', ?_, ⟨hlay, fun r hr => ?_⟩, ?_⟩
    · rw [World.kmalloc, hv]
      dsimp only
      rw [hret]
      dsimp only
      rw [hobj]
      rfl
    · have hk := hkept r.1 (hlay.header_apart hlow hr).1
      have hst := h.stamped r hr
      exact ⟨hk.1.trans hst.magic, hk.2.trans hst.pages⟩
    · refine ⟨Finset.mem_insert_self _ _, hnl, fun y hy => ?_, ?_, fun _ => ?_⟩
      · cases y with
        | object p => exact Finset.mem_insert_of_mem hy
        | block r | range r => exact hy
      · exact (decide_eq_false (Nat.not_lt.mpr hs)).symm
      · exact hsz.trans (hi.objBytes_eq hcs hic).ge
  · exact absurd hs (Nat.not_le.mpr hbig)

/-- A size of many pages gets a range of `vmalloc`. -/
theorem kmalloc_range {base : Nat} (hs : size < 2 ^ 64)
    (hv : w.virtualPages size s = (some base, vm)) (hbig : slabMaxSize < size)
    (hmin : vmallocMinPages ≤ largePages size)
    (hvm : Vmalloc.Inv ⟨vm, (base, largePages size) :: w.vm.live⟩) :
    Kmalloced pool w size s := by
  have hpl := hvm.placed _ mem_cons_self
  have hbase : vmallocBase ≤ base := by
    rw [show base = _ from hpl.base]
    exact Nat.le_add_right _ _
  have hdvd : pageSize ∣ base := Dvd.intro_left _ hpl.aligned
  have hoff := stamp_sameOff w.heap hdvd (largePages size)
  have hnot : ∀ {q}, q ∈ pool → q ≠ base / pageSize := fun hq e => hlow.not_mem hbase (e ▸ hq)
  have hheap : HeapInv pool (stamp w.heap base (largePages size)) sh
      (blocksHeld w.blocks + w.other.val) w.objects none := by
    refine h.heap.sameOff (by rw [stamp_buddy]; exact h.heap.buddy) hoff fun c t hct e => ?_
    exact hnot (h.mem_pool (.inl (mem_sum_map.mpr ⟨(c, t), hct, head_mem_pagesOf _ _⟩)))
      (by rw [← e])
  have hout : World.handedOut size (some base) (base + largeHdrBytes) =
    .range (base, largePages size) :=
    if_neg (Nat.not_le.mpr hbig)
  have hlay :
    Layout pool ({ w with heap := stamp w.heap base (largePages size), vm := { w.vm with vm } }.add
      (.range (base, largePages size))) sh := ⟨hheap, hvm, h.block⟩
  refine .inr ⟨.range (base, largePages size), _, sh, ?_, ⟨hlay, fun r hr => ?_⟩, ?_⟩
  · rw [World.kmalloc, hv]
    dsimp only
    rw [kmalloc_range_eq hbig hmin]
    dsimp only
    rw [hout]
    rfl
  · rcases hr with hr | hr
    · refine (h.stamped r (.inl hr)).sameOff hoff (h.block r hr).page fun e => ?_
      exact hnot (h.block_mem hr).2 (by rw [e])
    · rcases mem_cons.mp hr with rfl | hr
      · exact stamp_stamped _ hdvd _
      · refine (h.stamped r (.inr hr)).sameOff hoff (h.aligned (.inr hr)) fun e => ?_
        -- two ranges with one base would share their first slot
        have hfirst : firstOf (base, largePages size) = firstOf r := by
          rw [firstOf, firstOf, e]
        have hcov := covers_first hpl
        rw [hfirst] at hcov
        exact (pairwise_cons.mp hvm.apart).1 r hr _ ⟨hcov, covers_first (h.vm.placed r hr)⟩
  · refine ⟨mem_cons_self, fun hr => ?_, fun y hy => ?_, (decide_eq_true hbig).symm, fun _ => ?_⟩
    · exact (pairwise_cons.mp hvm.apart).1 _ hr _ ⟨covers_first hpl, covers_first hpl⟩
    · cases y with
      | object p | block r => exact hy
      | range r => exact mem_cons_of_mem _ hy
    · have hp : 2 ≤ largePages size := le_trans (by decide) hmin
      rcases largePages_cases hs with hl | hl | hl
      · exact Nat.le_sub_of_add_le hl.1
      · omega
      · omega

/-- Other sizes get a block of pages with a header. -/
theorem kmalloc_block (hs : size < 2 ^ 64) (hv : w.virtualPages size s = (none, vm))
    (hbig : slabMaxSize < size) (hvm : Vmalloc.Inv { w.vm with vm }) : Kmalloced pool w size s := by
  obtain ⟨b, r, hr⟩ := pmmAlloc_returns (s := w.heap.buddy) (largePages_order hs)
  rcases pmmAlloc_inv h.heap.buddy hr with ⟨rfl, rfl⟩ | ⟨hdr, order, rfl, ho, hal, hb⟩
  · refine .inl ⟨{ w with vm := { w.vm with vm } }, sh, ?_, ⟨⟨h.heap, hvm, h.block⟩, h.stamped⟩,
      fun y hy => ?_⟩
    · rw [World.kmalloc, hv]
      dsimp only
      rw [kmalloc_block_eq hbig, pmmAllocZero, hr]
    · cases y <;> exact hy
  obtain rfl : blockOrder (largePages size) = order := by rw [blockOrder, ho]; rfl
  have hpos : largePages size ≠ 0 := by
    intro h0
    rw [h0, show pmmAlloc w.heap.buddy 0 = .ret w.heap.buddy none from rfl] at hr
    cases hr
  have hnew : BlockOk (hdr, largePages size) := ⟨ho, hal, hpos⟩
  have hdvd : pageSize ∣ hdr := hnew.page
  obtain ⟨g, hg⟩ : ∃ g, stamp (zeroPages { w.heap with buddy := b } hdr (largePages size)) hdr
    (largePages size) = g := ⟨_, rfl⟩
  have hoff : SameOff (fun q => q / pageSize ∈ pagesOf hdr (blockOrder (largePages size))) w.heap
      g := by
    rw [← hg]
    refine ((SameOff.setBuddy _ _ b).trans (zeroPages_block _ hdvd (le_of_pagesToOrder ho))).trans
      ((stamp_sameOff _ hdvd _).mono fun q hq => ?_)
    rw [hq]
    exact head_mem_pagesOf _ _
  have hgb : g.buddy = b := by
    rw [← hg, stamp_buddy]
    rfl
  have hst : Stamped g (hdr, largePages size) := by
    rw [← hg]
    exact stamp_stamped _ hdvd _
  have hheld : blocksHeld ((hdr, largePages size) :: w.blocks) =
      pagesOf hdr (blockOrder (largePages size)) + blocksHeld w.blocks := by
    rw [blocksHeld, map_cons, sum_cons, blocksHeld]
  obtain ⟨-, hrest, hfree⟩ := Multiset.nodup_add.mp hb.nodup
  obtain ⟨-, -, hapart⟩ := Multiset.nodup_add.mp hrest
  have hout' {r : Nat × Nat} (hr : r ∈ w.blocks) :
    r.1 / pageSize ∉ pagesOf hdr (blockOrder (largePages size)) :=
    fun hq => Multiset.disjoint_left.mp hapart hq (Multiset.mem_add.mpr (.inr
      (Multiset.mem_add.mpr (.inl (h.block_mem hr).1))))
  have hheap : HeapInv pool g sh (blocksHeld ((hdr, largePages size) :: w.blocks) + w.other.val)
      w.objects none := by
    refine h.heap.sameOff ?_ hoff fun c t hct hq => ?_
    · rw [hgb, hheld, add_assoc, add_left_comm]
      exact hb
    · refine Multiset.disjoint_left.mp hapart hq (Multiset.mem_add.mpr (.inl ?_))
      exact mem_sum_map.mpr ⟨(c, t), hct, head_mem_pagesOf _ _⟩
  have hlay :
    Layout pool ({ w with heap := g, vm := { w.vm with vm } }.add (.block (hdr, largePages size)))
    sh :=
    ⟨hheap, hvm, fun r hr => (mem_cons.mp hr).elim (fun e => e ▸ hnew) (h.block r)⟩
  have hout : World.handedOut size none (hdr + largeHdrBytes) = .block (hdr, largePages size) := by
    rw [World.handedOut, if_neg (Nat.not_le.mpr hbig), Nat.add_sub_cancel]
  refine .inr ⟨.block (hdr, largePages size), _, sh, ?_, ⟨hlay, fun r hr => ?_⟩, ?_⟩
  · rw [World.kmalloc, hv]
    dsimp only
    rw [kmalloc_block_eq hbig, pmmAllocZero, hr]
    dsimp only
    rw [hg, hout]
    rfl
  · rcases hr with hr | hr
    · rcases mem_cons.mp hr with rfl | hr
      · exact hst
      · refine (h.stamped r (.inl hr)).sameOff hoff (h.block r hr).page fun hq => ?_
        exact hout' hr hq
    · refine (h.stamped r (.inr hr)).sameOff hoff (h.aligned (.inr hr)) fun hq => ?_
      exact h.range_not_mem hlow hr (hlay.mem_pool
        (.inr (.inl (mem_sum_map.mpr ⟨_, mem_cons_self, hq⟩))))
  · refine ⟨mem_cons_self, fun hr => ?_, fun y hy => ?_, (decide_eq_true hbig).symm, fun h15 => ?_⟩
    · exact hout' hr (head_mem_pagesOf hdr (blockOrder (largePages size)))
    · cases y with
      | object p | range r => exact hy
      | block r => exact mem_cons_of_mem _ hy
    · have hle : largePages size * pageSize ≤ blockBytes (blockOrder (largePages size)) := by
        rw [blockBytes_eq, mul_comm]
        exact Nat.mul_le_mul_left _ (le_of_pagesToOrder ho)
      rcases largePages_cases hs with hl | hl | hl
      · exact Nat.le_sub_of_add_le (hl.1.trans hle)
      · exact absurd hl.2 hpos
      · omega

theorem kmalloc_spec (hs : size < 2 ^ 64) (s : Vmalloc.Supply) : Kmalloced pool w size s := by
  by_cases hbig : slabMaxSize < size
  · rcases virtualPages_cases h.vm size s with ⟨vm, hv, hvm⟩ | ⟨base, vm, hv, -, hmin, hvm⟩
    · exact kmalloc_block hlow h hs hv hbig hvm
    · exact kmalloc_range hlow h hs hv hbig hmin hvm
  · exact kmalloc_object hlow h (Nat.not_lt.mp hbig) s

/-! `kfree`. -/

theorem kfree_object {p : Nat} (hp : p ∈ w.objects) (hd : isLargeAlloc w.heap p = false) :
    ∃ w' sh', w.kfree (.object p) = some w' ∧ Inv pool w' sh' := by
  obtain ⟨g, sh', hret, hkept, hi⟩ := kfree_inv h.heap hp hd
  have hvfree : w.vfreed p = w.vm.vm := by
    rw [World.vfreed, hd, Bool.false_and, if_neg Bool.false_ne_true]
  have hlay : Layout pool { w with heap := g, objects := w.objects.erase p } sh' :=
    ⟨hi, h.vm, h.block⟩
  refine ⟨_, sh', kfree_eq (x := .object p) hret hvfree, hlay, fun r hr => ?_⟩
  have hk := hkept r.1 (h.header_apart hlow hr).1
  have hst := h.stamped r hr
  exact ⟨hk.1.trans hst.magic, hk.2.trans hst.pages⟩

/-- Freeing a block gives its pages back. -/
theorem kfree_block (hr : r ∈ w.blocks) :
    ∃ w' sh', w.kfree (.block r) = some w' ∧ Inv pool w' sh' := by
  have hok := h.block r hr
  have hm := (h.block_mem hr).2
  have howns : vmallocOwns r.1 = false := by
    rw [vmallocOwns, decide_eq_false_iff_not]
    exact fun hv => hlow.not_mem hv.1 hm
  obtain ⟨hfree, hvfree⟩ := kfree_large_eq h (.inl hr)
  rw [howns] at hfree hvfree
  have hclear := write_page_inv h.heap (h.header_apart hlow (.inl hr)).1 0
  rw [blocksHeld, sum_map_erase hr, add_assoc, ← blocksHeld] at hclear
  obtain ⟨g, hret, hoff, hi⟩ := slabPageFree_inv hclear hok.pos hok.order hok.aligned
  have hoff' : SameOff (· = r.1) w.heap g := by
    have h0 := storeWord_sameOff w.heap r.1 0
    rw [pageOf_of_dvd hok.page] at h0
    exact h0.trans hoff
  have hlay : Layout pool { w with heap := g, blocks := w.blocks.erase r } sh :=
    ⟨hi, h.vm, fun r' hr' => h.block r' (mem_of_mem_erase hr')⟩
  rw [if_neg Bool.false_ne_true, hret] at hfree
  refine ⟨_, sh, kfree_eq (x := .block r) hfree hvfree, hlay, fun r' hr' => ?_⟩
  rcases hr' with hr' | hr'
  · refine (h.stamped r' (.inl (mem_of_mem_erase hr'))).sameOff hoff'
      (h.block r' (mem_of_mem_erase hr')).page ?_
    intro e
    refine not_mem_sum_map_erase h.blocks_nodup hr (head_mem_pagesOf r.1 _)
      (mem_sum_map.mpr ⟨r', hr', ?_⟩)
    rw [← e]
    exact head_mem_pagesOf _ _
  · exact (h.stamped r' (.inr hr')).sameOff hoff' (h.aligned (.inr hr')) fun e =>
      h.range_not_mem hlow hr' (e ▸ hm)

theorem kfree_range (hr : r ∈ w.vm.live) :
    ∃ w' sh', w.kfree (.range r) = some w' ∧ Inv pool w' sh' := by
  have hpl := h.vm.placed r hr
  obtain ⟨hfree, hvfree⟩ := kfree_large_eq h (.inr hr)
  rw [hpl.owned, if_pos rfl] at hfree hvfree
  have hvm : Vmalloc.Inv ⟨vfreePages w.vm.vm r.1 r.2, w.vm.live.erase r⟩ :=
    Vmalloc.free_inv h.vm (r := r) (if_pos hr)
  have hheap := write_page_inv h.heap (h.header_apart hlow (.inr hr)).1 0
  have hoff := storeWord_sameOff w.heap r.1 0
  rw [pageOf_of_dvd (h.aligned (.inr hr))] at hoff
  have hlay : Layout pool { w with
      heap := storeWord w.heap r.1 0
      vm := ⟨vfreePages w.vm.vm r.1 r.2, w.vm.live.erase r⟩ } sh := ⟨hheap, hvm, h.block⟩
  refine ⟨_, sh, kfree_eq (x := .range r) hfree hvfree, hlay, fun r' hr' => ?_⟩
  rcases hr' with hr' | hr'
  · refine (h.stamped r' (.inl hr')).sameOff hoff (h.block r' hr').page fun e => ?_
    exact h.range_not_mem hlow hr (e ▸ (h.block_mem hr').2)
  · have hr0 := mem_of_mem_erase hr'
    exact (h.stamped r' (.inr hr0)).sameOff hoff (h.aligned (.inr hr0)) (range_erased h.vm hr hr')

theorem kfree_spec (hx : w.Has x) (hd : isLargeAlloc w.heap x.ptr = x.isLarge) :
    ∃ w' sh', w.kfree x = some w' ∧ Inv pool w' sh' := by
  cases x with
  | object p => exact kfree_object hlow h hx hd
  | block r => exact kfree_block hlow h hx
  | range r => exact kfree_range hlow h hx

/-! `krealloc`. -/

theorem copied_spec (hx : w.Has x) (hs : size + 15 < 2 ^ 64)
    (s : Vmalloc.Supply) : (∃ w' sh', w.copied x size s = some (none, w') ∧ Inv pool w' sh') ∨
      ∃ np w' sh', w.copied x size s = some (some np, w') ∧ Inv pool w' sh' ∧ w'.Has x := by
  rcases kmalloc_spec hlow h (by omega : size < 2 ^ 64) s
    with ⟨w', sh', hk, hi, -⟩ | ⟨y, w', sh', hk, hi, hy⟩
  · exact .inl ⟨w', sh', by rw [World.copied, hk], hi⟩
  · have hroom : (min (oldSize w.heap x.ptr) size + 7) / 8 * 8 ≤ y.bytes w'.heap := by
      have h1 := hy.room hs
      have h2 := hi.bytes_dvd hy.has
      omega
    refine .inr ⟨y.ptr, _, sh', by rw [World.copied, hk], hi.copy hlow hy.has hroom x.ptr, ?_⟩
    cases x with
    | object p => exact hy.kept (.object p) hx
    | block r => exact hy.kept (.block r) hx
    | range r => exact hy.kept (.range r) hx

theorem krealloc_spec (hx : w.Has x) (hs : size + 15 < 2 ^ 64)
    (h0 : size = 0 → isLargeAlloc w.heap x.ptr = x.isLarge)
    (hd : ∀ np w', w.copied x size s = some (some np, w') →
    isLargeAlloc w'.heap x.ptr = x.isLarge) :
    ∃ r w' sh', w.krealloc x size s = some (r, w') ∧ Inv pool w' sh' := by
  rw [World.krealloc]
  by_cases hz : size = 0
  · obtain ⟨w', sh', hk, hi⟩ := kfree_spec hlow h hx (h0 hz)
    exact ⟨none, w', sh', by rw [if_pos hz, hk]; rfl, hi⟩
  rw [if_neg hz]
  rcases copied_spec hlow h hx hs s with ⟨w', sh', hc, hi⟩ | ⟨np, w', sh', hc, hi, hx'⟩
  · exact ⟨none, w', sh', by rw [hc], hi⟩
  · obtain ⟨w'', sh'', hk, hi'⟩ := kfree_spec hlow hi hx' (hd np w' hc)
    refine ⟨some np, w'', sh'', ?_, hi'⟩
    rw [hc]
    dsimp only
    rw [hk]
    rfl

end

theorem Inv.page (h : Inv pool w sh) {op : Op} (hv : ValidFree w.other op) {b : Buddy}
    {r : Option Nat} (he : exec w.heap.buddy op = .ret b r) :
    Inv pool { w with
      heap := { w.heap with buddy := b }
      other := w.other \ op.freedPages ∪ op.handedOut r } sh :=
  ⟨⟨page_inv h.heap hv he, h.vm, h.block⟩, fun r hr =>
    ⟨(h.stamped r hr).magic, (h.stamped r hr).pages⟩⟩

end Cervus.Kmem
