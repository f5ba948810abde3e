import Cervus.Slab.Run

/-! What the runs of the slab allocator guarantee, and the run in which `kfree`
takes a live object for a large allocation. -/

namespace Cervus.Slab

open Cervus.Lib Cervus.Pmm

/-- The slabs `sh` are all there are: every page is free, held by others or in one
of them. -/
structure SlabRep (pool : Finset Nat) (h : Heap) (sh : Shape) (live other : Finset Nat) : Prop where
  lists : ∀ c k, DList h.links 0 ((h.caches c).head k) (sh.list (c, k))
  listed : ∀ c s, (c, s) ∈ sh.slabs ↔ s ∈ sh.list (c, .partials) ∨ s ∈ sh.list (c, .fulls)
  pages : freePagesOf h.buddy + (held sh.slabs + other.val) = pool.val
  layout : ∀ c s, (c, s) ∈ sh.slabs → c < slabNumCaches ∧ (h.slabs s).objSize = sizeClass c ∧
    (h.slabs s).total = capacity c
  chain : ∀ c s, (c, s) ∈ sh.slabs → ∃ l : List Nat, l.Nodup ∧
    Chain h.mem (h.slabs s).freelist (l.map (slot s c)) ∧
    ∀ i, i ∈ l ↔ testBit (h.slabs s).freemap i = true
  used : ∀ c s, (c, s) ∈ sh.slabs →
    (h.slabs s).used = (h.slabs s).total - popcount 512 (h.slabs s).freemap
  full_iff : ∀ c s, (c, s) ∈ sh.slabs →
    (s ∈ sh.list (c, .fulls) ↔ (h.slabs s).used = (h.slabs s).total)
  partial_iff : ∀ c s, (c, s) ∈ sh.slabs →
    (s ∈ sh.list (c, .partials) ↔ 0 < (h.slabs s).used ∧ (h.slabs s).used < (h.slabs s).total)
  mask : ∀ p ∈ live, ∃ c s i, (c, s) ∈ sh.slabs ∧ i < (h.slabs s).total ∧
    testBit (h.slabs s).freemap i = false ∧ p = slot s c i ∧ pageOf p = s
  apart : ∀ p ∈ live, ∀ q ∈ live, p ≠ q → Disjoint (extent h p) (extent h q)
  fresh : ∀ vm size h' p, size ≤ slabMaxSize → kmalloc vm h size = .ret h' (some p) →
    size ≤ objBytes h' p ∧ ∀ q ∈ live, Disjoint (extent h' p) (extent h q)
  kmalloc_returns : ∀ vm size, size ≤ slabMaxSize → (kmalloc vm h size).returns = true
  kfree_returns : ∀ p ∈ live, isLargeAlloc h p = false → (kfree h (some p)).returns = true

variable {other : Multiset Nat} {live : Finset Nat}

theorem HeapInv.extent_disjoint {pool : Finset Nat} {h : Heap} {sh : Shape} {empty : Option Nat}
    (hi : HeapInv pool h sh other live empty) {p q : Nat} (hp : p ∈ live) (hq : q ∈ live)
    (hne : p ≠ q) : Disjoint (extent h p) (extent h q) :=
  Set.disjoint_left.mpr fun _ ha hb => hne (hi.live_unique hp hq ha hb)

theorem SlabOk.used_eq {sl : SlabT} {mem : Nat → Nat} {c s : Nat} (h : SlabOk sl mem c s)
    (hc : c < slabNumCaches) : sl.used = sl.total - popcount 512 sl.freemap := by
  obtain ⟨l, hn, -, hl, hlen⟩ := h.chain
  have hcap := (class_layout hc).2.2.2.2.1
  have hp : popcount 512 sl.freemap = l.length := by
    refine popcount_eq hn fun i => ?_
    rw [hl i]
    exact ⟨fun hb => ⟨(h.bits i hb).trans_le hcap, hb⟩, fun hb => hb.2⟩
  rw [hp, h.total]
  omega

theorem kmalloc_fresh {pool : Finset Nat} {h h' : Heap} {sh : Shape}
    (hi : HeapInv pool h sh other live none) {vm : Option Nat} {size p : Nat}
    (hs : size ≤ slabMaxSize) (he : kmalloc vm h size = .ret h' (some p)) :
    size ≤ objBytes h' p ∧ ∀ q ∈ live, Disjoint (extent h' p) (extent h q) := by
  rcases kmalloc_inv hi vm hs with hn | ⟨h₁, sh', c, s, i, hret, hcs, hsub, hic, hsz, hnl, -, hi'⟩
  · rw [hn] at he
    cases he
  · rw [hret] at he
    cases he
    refine ⟨by rwa [hi'.objBytes_eq hcs hic], fun q hq => ?_⟩
    obtain ⟨c', s', i', hcs', hic', -, rfl⟩ := (hi.live_iff q).mp hq
    have hd := hi'.extent_disjoint (Finset.mem_insert_self _ _) (Finset.mem_insert_of_mem hq)
      (fun e => hnl (e ▸ hq))
    rwa [extent, extent, hi'.objBytes_eq (hsub hcs') hic', ← hi.objBytes_eq hcs' hic'] at hd

/-- In every run in which no freed object looks like a large allocation, the free
chains, the bitmaps, the counters and the lists agree in every state. -/
theorem slab_representation {mmap : List BootMmapEntry} (hd : UsableDisjoint mmap)
    (hf : (fstatePhys mmap).isSome) {h : Heap} {live other : Finset Nat}
    (hr : Reach mmap NotLarge h live other) : ∃ sh, SlabRep (pool hd) h sh live other := by
  obtain ⟨sh, hi⟩ := hr.inv hd hf
  refine ⟨sh, fun c k => hi.lists.list (c, k), hi.listed, hi.buddy.partition, ?_, ?_, ?_, ?_, ?_,
    ?_,
    fun p hp q hq hne => hi.extent_disjoint hp hq hne,
    fun vm size h' p hs he => kmalloc_fresh hi hs he, ?_, ?_⟩
  · exact fun c s hcs => ⟨(hi.bound c s hcs).1, (hi.slab c s hcs).objSize, (hi.slab c s hcs).total⟩
  · intro c s hcs
    obtain ⟨l, hn, hch, hl, -⟩ := (hi.slab c s hcs).chain
    exact ⟨l, hn, hch, hl⟩
  · exact fun c s hcs => (hi.slab c s hcs).used_eq (hi.bound c s hcs).1
  · intro c s hcs
    rw [(hi.slab c s hcs).total]
    refine ⟨hi.usedFull c s, fun hu => ((hi.listed c s).mp hcs).resolve_left fun hm => ?_⟩
    exact absurd hu (hi.usedPartial c s hm).1.ne
  · intro c s hcs
    rw [(hi.slab c s hcs).total]
    constructor
    · intro hm
      obtain ⟨h1, h2⟩ := hi.usedPartial c s hm
      exact ⟨Nat.pos_of_ne_zero (fun h0 => nomatch h2 h0), h1⟩
    · rintro ⟨-, hu⟩
      exact ((hi.listed c s).mp hcs).resolve_right fun hm => absurd (hi.usedFull c s hm) hu.ne
  · intro p hp
    obtain ⟨c, s, i, hcs, hic, hib, rfl⟩ := (hi.live_iff p).mp hp
    exact ⟨c, s, i, hcs, by rwa [(hi.slab c s hcs).total], hib, rfl,
      pageOf_slot (hi.bound c s hcs).1 (hi.aligned hcs) hic⟩
  · intro vm size hs
    rcases kmalloc_inv hi vm hs with hn | ⟨h₁, sh', c, s, i, hret, -⟩
    · rw [hn]
      rfl
    · rw [hret]
      rfl
  · intro p hp hl
    obtain ⟨h₁, sh', hret, -⟩ := kfree_inv hi hp hl
    rw [hret]
    rfl

def twoPages : List BootMmapEntry := [⟨0x100000, 0x2000, .usable, by decide⟩]

theorem twoPages_disjoint : UsableDisjoint twoPages := by
  simp [UsableDisjoint, twoPages, usable]

theorem twoPages_placed : (fstatePhys twoPages).isSome := by decide +kernel

def startHeap : Heap :=
  slabInit (pmmInit twoPages) ⟨fun _ => 0, fun _ => 0⟩
    (fun _ => ⟨0, 0, 0, 0, 0, 0, fun _ => 0⟩) fun _ => 0

def oneObject : Heap := (kmalloc none startHeap 32).state startHeap
def twoObjects : Heap := (kmalloc none oneObject 32).state oneObject

theorem oneObject_reach (ok : Heap → Nat → Prop) :
    Reach twoPages ok oneObject (∅ ∪ (some 0x101068).toFinset) ∅ := by
  have h0 : Reach twoPages ok startHeap ∅ ∅ := .init .init _ _ _
  have he := Outcome.eq_ret (o := kmalloc none startHeap 32) (by decide +kernel) startHeap none
  exact h0.kmalloc (by decide) he

theorem slab_representation_twoPages :
    ∃ h live other, Reach twoPages NotLarge h live other ∧ live.Nonempty ∧
      ∃ sh, SlabRep (pool twoPages_disjoint) h sh live other :=
  ⟨_, _, _, oneObject_reach NotLarge, ⟨0x101068, by simp⟩,
    slab_representation twoPages_disjoint twoPages_placed (oneObject_reach NotLarge)⟩

def disguised : Heap := storeWord (storeWord twoObjects 0x101078 largeAllocMagic) 0x101080 1

theorem disguised_reach (ok : Heap → Nat → Prop) : Reach twoPages ok disguised
    (∅ ∪ (some 0x101068).toFinset ∪ (some 0x101088).toFinset) ∅ := by
  have he := Outcome.eq_ret (o := kmalloc none oneObject 32) (by decide +kernel) oneObject none
  rw [show (kmalloc none oneObject 32).result none = some 0x101088 by decide +kernel] at he
  have h2 : Reach twoPages ok twoObjects _ ∅ := (oneObject_reach ok).kmalloc (by decide) he
  have hlive : 0x101068 ∈ ∅ ∪ (some 0x101068).toFinset ∪ (some 0x101088).toFinset := by simp
  have hbytes : objBytes twoObjects 0x101068 = 32 := by decide +kernel
  have h3 := h2.write (a := 0x101078) (by decide)
    (.inl ⟨0x101068, hlive, by decide, by rw [hbytes]; decide⟩) largeAllocMagic
  have hbytes' : objBytes (storeWord twoObjects 0x101078 largeAllocMagic) 0x101068 = 32 := by
    decide +kernel
  exact h3.write (a := 0x101080) (by decide) (.inl ⟨0x101068, hlive, by decide, by rw [hbytes']⟩) 1

/-- `kfree` of the second object frees the "large allocation" 16 bytes below it. The
64 bytes `pmm_free` clears there include the link word of the third slot. -/
theorem kfree_breaks_freelist : ∃ h live other,
    Reach twoPages (fun _ _ => True) h live other ∧
      ¬ ∃ sh, SlabRep (pool twoPages_disjoint) h sh live other := by
  have he := Outcome.eq_ret (o := kfree disguised (some 0x101088)) (by decide +kernel) disguised ()
  rw [Subsingleton.elim ((kfree disguised (some 0x101088)).result ()) ()] at he
  have hlive : 0x101088 ∈ ∅ ∪ (some 0x101068).toFinset ∪ (some 0x101088).toFinset := by simp
  refine ⟨_, _, _, (disguised_reach fun _ _ => True).kfree hlive trivial he, ?_⟩
  have hhead : (((kfree disguised (some 0x101088)).state disguised).caches 2).head .partials =
      0x101000 := by
    decide +kernel
  have hfirst : (((kfree disguised (some 0x101088)).state disguised).slabs 0x101000).freelist =
      slot 0x101000 2 2 := by decide +kernel
  have hlink : ((kfree disguised (some 0x101088)).state disguised).mem (slot 0x101000 2 2) = 0 := by
    decide +kernel
  have hbit : testBit (((kfree disguised (some 0x101088)).state disguised).slabs 0x101000).freemap
    3 =
      true := by decide +kernel
  generalize (kfree disguised (some 0x101088)).state disguised = h at hhead hfirst hlink hbit ⊢
  rintro ⟨sh, hrep⟩
  have hlist := hrep.lists 2 .partials
  rw [hhead] at hlist
  have hslab : (2, 0x101000) ∈ sh.slabs := by
    refine (hrep.listed 2 0x101000).mpr (.inl ?_)
    cases hl : sh.list (2, .partials) with
    | nil => simp [hl, DList] at hlist
    | cons x l =>
      rw [hl] at hlist
      rw [hlist.1]
      exact List.mem_cons_self
  obtain ⟨l, -, hch, hl⟩ := hrep.chain 2 0x101000 hslab
  have h3 : 3 ∈ l := (hl 3).mpr hbit
  cases l with
  | nil => simp at h3
  | cons i t =>
    obtain ⟨hi, -, ht⟩ := hch
    rw [← hi, hfirst, hlink] at ht
    cases t with
    | nil =>
      obtain rfl : 3 = i := by simpa using h3
      rw [hfirst] at hi
      exact absurd (slot_inj (by decide) hi) (by decide)
    | cons j t => exact ht.2.1 ht.1.symm

end Cervus.Slab
