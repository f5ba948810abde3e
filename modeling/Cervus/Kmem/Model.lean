import Cervus.Slab.Run
import Cervus.Vmalloc.Slots
import Cervus.Pmm.Below

/-! `kmalloc`, `kfree` and `krealloc` of `kernel/src/memory/pmm.c` over the slabs, the page
allocator and the virtual ranges, with the allocations that are out. -/

namespace Cervus.Kmem

open Cervus.Lib Cervus.Pmm Cervus.Slab Vmalloc

def largePages (size : Nat) : Nat := (size + largeHdrBytes + pageSize - 1) % 2 ^ 64 / pageSize

def blockOrder (pages : Nat) : Nat := (pagesToOrder pages).join.getD 0

/-- What `kmalloc` handed out: an object of a slab, a block of pages or a virtual range. The
last two carry the address of the header and the page count stored there. -/
inductive Alloc
  | object (p : Nat)
  | block (r : Nat × Nat)
  | range (r : Nat × Nat)
  deriving DecidableEq

namespace Alloc

def ptr : Alloc → Nat
  | object p => p
  | block r => r.1 + largeHdrBytes
  | range r => r.1 + largeHdrBytes

def isLarge : Alloc → Bool
  | object _ => false
  | block _ => true
  | range _ => true

def bytes (h : Heap) : Alloc → Nat
  | object p => objBytes h p
  | block r => blockBytes (blockOrder r.2) - largeHdrBytes
  | range r => r.2 * pageSize - largeHdrBytes

end Alloc

structure World where
  heap : Heap
  vm : Vmalloc.World
  objects : Finset Nat
  blocks : List (Nat × Nat)
  other : Finset Nat

namespace World

def Has (w : World) : Alloc → Prop
  | .object p => p ∈ w.objects
  | .block r => r ∈ w.blocks
  | .range r => r ∈ w.vm.live

def add (w : World) : Alloc → World
  | .object p => { w with objects := insert p w.objects }
  | .block r => { w with blocks := r :: w.blocks }
  | .range r => { w with vm := { w.vm with live := r :: w.vm.live } }

def drop (w : World) : Alloc → World
  | .object p => { w with objects := w.objects.erase p }
  | .block r => { w with blocks := w.blocks.erase r }
  | .range r => { w with vm := { w.vm with live := w.vm.live.erase r } }

def virtualPages (w : World) (size : Nat) (s : Vmalloc.Supply) : Option Nat × Vmalloc.Vm :=
  if slabMaxSize < size ∧ vmallocMinPages ≤ largePages size then
    vmallocPages w.vm.vm (largePages size) s
  else (none, w.vm.vm)

def handedOut (size : Nat) (base : Option Nat) (p : Nat) : Alloc :=
  if size ≤ slabMaxSize then .object p
  else match base with
    | some base => .range (base, largePages size)
    | none => .block (p - largeHdrBytes, largePages size)

def kmalloc (w : World) (size : Nat) (s : Vmalloc.Supply) : Option (Option Nat × World) :=
  let (base, vm) := w.virtualPages size s
  match Slab.kmalloc base w.heap size with
  | .ret heap none => some (none, { w with heap, vm := { w.vm with vm } })
  | .ret heap (some p) =>
    some (some p, { w with heap, vm := { w.vm with vm } }.add (handedOut size base p))
  | .panic => none
  | .hang => none

def vfreed (w : World) (p : Nat) : Vmalloc.Vm :=
  if isLargeAlloc w.heap p && vmallocOwns (p - largeHdrBytes) then
    vfreePages w.vm.vm (p - largeHdrBytes) (loadWord w.heap (p - largeHdrBytes + 8))
  else w.vm.vm

def kfree (w : World) (x : Alloc) : Option World :=
  match Slab.kfree w.heap (some x.ptr) with
  | .ret heap _ => some ({ w with heap, vm := { w.vm with vm := w.vfreed x.ptr } }.drop x)
  | .panic => none
  | .hang => none

end World

def copyWords (dst src : Nat) : Nat → Heap → Heap
  | 0, h => h
  | n + 1, h =>
    let h := copyWords dst src n h
    storeWord h (dst + 8 * n) (loadWord h (src + 8 * n))

def memcpy (h : Heap) (dst src n : Nat) : Heap :=
  let k := n / 8
  let h := copyWords dst src k h
  if n % 8 = 0 then h
  else
    let m := 2 ^ (8 * (n % 8))
    storeWord h (dst + 8 * k) (loadWord h (src + 8 * k) % m + loadWord h (dst + 8 * k) / m * m)

def oldSize (h : Heap) (p : Nat) : Nat :=
  if isLargeAlloc h p
    then (loadWord h (p - largeHdrBytes + 8) * pageSize + 2 ^ 64 - largeHdrBytes) % 2 ^ 64
  else objBytes h p

namespace World

def copied (w : World) (x : Alloc) (size : Nat) (s : Vmalloc.Supply) :
    Option (Option Nat × World) :=
  match w.kmalloc size s with
  | none => none
  | some (none, w') => some (none, w')
  | some (some np, w') =>
    some (some np, { w' with heap := memcpy w'.heap np x.ptr (min (oldSize w.heap x.ptr) size) })

def krealloc (w : World) (x : Alloc) (size : Nat) (s : Vmalloc.Supply) :
    Option (Option Nat × World) :=
  if size = 0 then (w.kfree x).map fun w => (none, w)
  else match w.copied x size s with
    | none => none
    | some (none, w') => some (none, w')
    | some (some np, w') => (w'.kfree x).map fun w => (some np, w)

end World

inductive Action
  | kmalloc (size : Nat) (s : Vmalloc.Supply)
  | kfree (x : Alloc)
  | krealloc (x : Alloc) (size : Nat) (s : Vmalloc.Supply)
  | write (a v : Nat)
  | page (op : Op)

def next (w : World) : Action → Option World
  | .kmalloc size s => (w.kmalloc size s).map Prod.snd
  | .kfree x => w.kfree x
  | .krealloc x size s => (w.krealloc x size s).map Prod.snd
  | .write a v => some { w with heap := storeWord w.heap a v }
  | .page op =>
    match exec w.heap.buddy op with
    | .ret b r =>
      some { w with
        heap := { w.heap with buddy := b }
        other := w.other \ op.freedPages ∪ op.handedOut r }
    | .panic => none
    | .hang => none

def MayWrite (w : World) (a : Nat) : Prop :=
  (∃ x, w.Has x ∧ x.ptr ≤ a ∧ a + 8 ≤ x.ptr + x.bytes w.heap) ∨ a / pageSize ∈ w.other ∨
    a / pageSize ∈ freePagesOf w.heap.buddy

/-- What the callers keep to: sizes are 64-bit words, only live allocations are given back, and
everyone writes to their own memory. -/
def Valid (w : World) : Action → Prop
  | .kmalloc size _ => size < 2 ^ 64
  | .kfree x => w.Has x
  | .krealloc x size _ => w.Has x ∧ size < 2 ^ 64
  | .write a _ => 8 ∣ a ∧ MayWrite w a
  | .page op => ValidFree w.other op

def system (b : Buddy) (other : Finset Nat) (links : Links) (slabs : Nat → SlabT) (mem : Nat → Nat)
    (ready : Bool) (kpm : Nat → Option Nat) : System World Action where
  init :=
    { heap := slabInit b links slabs mem, vm := (Vmalloc.system ready kpm).init
      objects := ∅, blocks := [], other }
  next := next

/-! Over any calls the header of every large allocation keeps its magic and its page count:
nothing else lies in the first 16 bytes of its pages. -/

open Multiset

/-! Headers. -/

structure Stamped (h : Heap) (r : Nat × Nat) : Prop where
  magic : h.links.next r.1 = largeAllocMagic
  pages : h.links.prev r.1 = r.2

variable {r : Nat × Nat} {a hdr : Nat}

theorem Stamped.sameOff {pg : Nat → Prop} {h h' : Heap} (hs : Stamped h r) (ho : SameOff pg h h')
    (hr : pageSize ∣ r.1) (hp : ¬ pg r.1) : Stamped h' r := by
  have hne : ¬ pg (pageOf r.1) := by rwa [pageOf_of_dvd hr]
  exact ⟨(ho.next _ hne).trans hs.magic, (ho.prev _ hne).trans hs.pages⟩

theorem header_mod (ha : pageSize ∣ a) :
    a % pageSize = 0 ∧ (a + 8) % pageSize = 8 ∧ pageOf (a + 8) = a := by
  obtain ⟨k, rfl⟩ := ha
  simp only [pageOf, pageSize]
  omega

theorem loadWord_header (h : Heap) (ha : pageSize ∣ a) :
    loadWord h a = h.links.next a ∧ loadWord h (a + 8) = h.links.prev a := by
  obtain ⟨h0, h8, hp⟩ := header_mod ha
  simp only [loadWord, h0, h8, hp, pageOf_of_dvd ha]
  exact ⟨rfl, rfl⟩

theorem storeWord_header (h : Heap) (ha : pageSize ∣ a) (v : Nat) :
    storeWord h a v = { h with links := h.links.setNext a v } ∧
      storeWord h (a + 8) v = { h with links := h.links.setPrev a v } := by
  obtain ⟨h0, h8, hp⟩ := header_mod ha
  simp only [storeWord, h0, h8, hp, pageOf_of_dvd ha]
  exact ⟨rfl, rfl⟩

theorem storeWord_links (h : Heap) (ha : 16 ≤ a % pageSize) (v : Nat) :
    (storeWord h a v).links = h.links := by
  simp only [storeWord, setSlab]
  rw [if_neg (by omega), if_neg (by omega)]
  split_ifs <;> rfl

theorem Stamped.write {h : Heap} (hs : Stamped h r) (hr : pageSize ∣ r.1)
    (ha : pageOf a = r.1 → r.1 + largeHdrBytes ≤ a) (v : Nat) : Stamped (storeWord h a v) r := by
  by_cases hp : pageOf a = r.1
  · have hoff : 16 ≤ a % pageSize := by
      have hle := ha hp
      have hdm := Nat.div_add_mod a pageSize
      rw [← hp, pageOf] at hle
      rw [mul_comm] at hdm
      simp only [largeHdrBytes] at hle
      omega
    have hl := storeWord_links h hoff v
    exact ⟨by rw [hl]; exact hs.magic, by rw [hl]; exact hs.pages⟩
  · exact hs.sameOff (storeWord_sameOff h a v) hr (Ne.symm hp)

def stamp (h : Heap) (hdr pages : Nat) : Heap :=
  storeWord (storeWord h hdr largeAllocMagic) (hdr + 8) pages

theorem stamp_stamped (h : Heap) (hd : pageSize ∣ hdr) (pages : Nat) :
    Stamped (stamp h hdr pages) (hdr, pages) := by
  rw [stamp, (storeWord_header _ hd _).2, (storeWord_header _ hd _).1]
  exact ⟨by simp [Links.setPrev, Links.setNext], by simp [Links.setPrev]⟩

theorem stamp_sameOff (h : Heap) (hd : pageSize ∣ hdr) (pages : Nat) :
    SameOff (· = hdr) h (stamp h hdr pages) := by
  have h1 := storeWord_sameOff h hdr largeAllocMagic
  have h2 := storeWord_sameOff (storeWord h hdr largeAllocMagic) (hdr + 8) pages
  rw [pageOf_of_dvd hd] at h1
  rw [(header_mod hd).2.2] at h2
  exact h1.trans h2

theorem stamp_buddy (h : Heap) (hdr pages : Nat) : (stamp h hdr pages).buddy = h.buddy := by
  rw [stamp, storeWord_buddy, storeWord_buddy]

/-! The invariant. -/

def blocksHeld (l : List (Nat × Nat)) : Multiset Nat :=
  (l.map fun r => pagesOf r.1 (blockOrder r.2)).sum

structure BlockOk (r : Nat × Nat) : Prop where
  order : pagesToOrder r.2 = some (some (blockOrder r.2))
  aligned : blockBytes (blockOrder r.2) ∣ r.1
  pos : r.2 ≠ 0

theorem BlockOk.page (h : BlockOk r) : pageSize ∣ r.1 := by
  have hd := h.aligned
  rw [blockBytes_eq] at hd
  exact dvd_of_mul_right_dvd hd

def World.Header (w : World) (r : Nat × Nat) : Prop := r ∈ w.blocks ∨ r ∈ w.vm.live

structure Layout (pool : Finset Nat) (w : World) (sh : Shape) : Prop where
  heap : HeapInv pool w.heap sh (blocksHeld w.blocks + w.other.val) w.objects none
  vm : Vmalloc.Inv w.vm
  block : ∀ r ∈ w.blocks, BlockOk r

structure Inv (pool : Finset Nat) (w : World) (sh : Shape) : Prop extends Layout pool w sh where
  stamped : ∀ r, w.Header r → Stamped w.heap r

def Low (pool : Finset Nat) : Prop := ∀ q ∈ pool, q * pageSize < vmallocBase

theorem Low.not_mem {pool : Finset Nat} (h : Low pool) (ha : vmallocBase ≤ a) :
    a / pageSize ∉ pool := fun hm => by
  have hle : vmallocBase / pageSize * pageSize ≤ a / pageSize * pageSize :=
    Nat.mul_le_mul_right _ (Nat.div_le_div_right ha)
  rw [show vmallocBase / pageSize * pageSize = vmallocBase by decide] at hle
  exact absurd (h _ hm) (Nat.not_lt.mpr hle)

namespace Layout
variable {pool : Finset Nat} {w : World} {sh : Shape} (h : Layout pool w sh)
include h

theorem aligned {r : Nat × Nat} (hr : w.Header r) : pageSize ∣ r.1 := by
  rcases hr with hr | hr
  · exact (h.block r hr).page
  · exact Nat.dvd_of_mod_eq_zero (by
      have := (h.vm.placed r hr).aligned
      have := Nat.div_add_mod r.1 pageSize
      rw [mul_comm] at this
      omega)

theorem mem_pool {q : Nat}
    (hq : q ∈ held sh.slabs ∨ q ∈ blocksHeld w.blocks ∨ q ∈ w.other ∨
    q ∈ freePagesOf w.heap.buddy) :
    q ∈ pool := by
  rw [← Finset.mem_val, ← h.heap.buddy.partition]
  simp only [mem_add, Finset.mem_val]
  tauto

theorem block_mem {r : Nat × Nat} (hr : r ∈ w.blocks) :
    r.1 / pageSize ∈ blocksHeld w.blocks ∧ r.1 / pageSize ∈ pool := by
  have hm : r.1 / pageSize ∈ blocksHeld w.blocks := mem_sum_map.mpr ⟨r, hr, head_mem_pagesOf _ _⟩
  exact ⟨hm, h.mem_pool (.inr (.inl hm))⟩

theorem range_not_mem (hlow : Low pool) {r : Nat × Nat} (hr : r ∈ w.vm.live) :
    r.1 / pageSize ∉ pool :=
  hlow.not_mem (by rw [(h.vm.placed r hr).base]; exact Nat.le_add_right _ _)

theorem header_apart (hlow : Low pool) {r : Nat × Nat} (hr : w.Header r) :
    r.1 / pageSize ∉ held sh.slabs ∧ r.1 / pageSize ∉ w.other ∧
      r.1 / pageSize ∉ freePagesOf w.heap.buddy := by
  rcases hr with hr | hr
  · have hm := (h.block_mem hr).1
    obtain ⟨-, hrest, hfree⟩ := nodup_add.mp h.heap.buddy.nodup
    refine ⟨h.heap.not_held (.inl (mem_add.mpr (.inl hm))),
      fun hx => Multiset.disjoint_left.mp (nodup_add.mp (nodup_add.mp hrest).2.1).2.2 hm hx,
      fun hx => Multiset.disjoint_left.mp hfree hx ?_⟩
    exact mem_add.mpr (.inr (mem_add.mpr (.inl hm)))
  · have hno := h.range_not_mem hlow hr
    exact ⟨fun hx => hno (h.mem_pool (.inl hx)), fun hx => hno (h.mem_pool (.inr (.inr (.inl hx)))),
      fun hx => hno (h.mem_pool (.inr (.inr (.inr hx))))⟩

theorem blocks_nodup : (blocksHeld w.blocks).Nodup := by
  have hrest := (nodup_add.mp h.heap.buddy.nodup).2.1
  exact (nodup_add.mp (nodup_add.mp hrest).2.1).1

end Layout

theorem range_unique {v : Vmalloc.World} (h : Vmalloc.Inv v) {r' : Nat × Nat} (hr : r ∈ v.live)
    (hr' : r' ∈ v.live) {j : Nat} (hj : Vmalloc.Covers r j) (hj' : Vmalloc.Covers r' j) :
    r = r' := by
  by_contra hne
  have : Std.Symm fun a b : Nat × Nat => ∀ j, ¬(Vmalloc.Covers a j ∧ Vmalloc.Covers b j) :=
    ⟨fun a b hab j hj => hab j hj.symm⟩
  exact h.apart.forall hr hr' hne j ⟨hj, hj'⟩

theorem covers_first (h : Vmalloc.Placed r) : Vmalloc.Covers r (Vmalloc.firstOf r) :=
  ⟨le_refl _, Nat.lt_add_of_pos_right h.slots⟩

/-! Writes. -/

theorem mem_block_of_lt (h : BlockOk r) (h1 : r.1 ≤ a)
    (h2 : a < r.1 + blockBytes (blockOrder r.2)) :
    a / pageSize ∈ pagesOf r.1 (blockOrder r.2) := by
  rw [blockBytes_eq] at h2
  rw [pagesOf, mem_block]
  refine ⟨Nat.div_le_div_right h1, ?_⟩
  rw [← Nat.add_mul_div_left _ _ pageSize_pos]
  exact Nat.div_lt_div_of_lt_of_dvd (dvd_add h.page (dvd_mul_right _ _)) h2

theorem pageOf_div (a : Nat) : pageOf a / pageSize = a / pageSize :=
  Nat.mul_div_cancel _ pageSize_pos

variable {pool : Finset Nat} {w : World} {sh : Shape}

theorem Layout.object_page (h : Layout pool w sh) {p : Nat} (hp : p ∈ w.objects) (h1 : p ≤ a)
    (h2 : a < p + objBytes w.heap p) :
    a / pageSize ∈ held sh.slabs := by
  obtain ⟨c, s, i, hcs, hic, -, rfl⟩ := (h.heap.live_iff p).mp hp
  rw [h.heap.objBytes_eq hcs hic] at h2
  exact mem_sum_map.mpr ⟨(c, s), hcs, page_of_extent (h.heap.bound c s hcs).1
    (h.heap.aligned hcs) hic h1 h2⟩

/-- The bytes of an allocation. -/
def Alloc.Spans (h : Heap) (x : Alloc) (a : Nat) : Prop := x.ptr ≤ a ∧ a < x.ptr + x.bytes h

/-- Where the bytes of an allocation lie: in the pages of a slab, in its own pages or, above
every frame, in its own slots. -/
def Zone (sh : Shape) (a : Nat) : Alloc → Prop
  | .object _ => a / pageSize ∈ held sh.slabs
  | .block r => a / pageSize ∈ pagesOf r.1 (blockOrder r.2)
  | .range r => vmallocBase ≤ a ∧ Vmalloc.Covers r ((a - vmallocBase) / granule)

section
variable (hlow : Low pool) (h : Layout pool w sh) {x y : Alloc}
include h

theorem Layout.range_zone (hr : r ∈ w.vm.live) (h1 : r.1 ≤ a) (h2 : a < r.1 + r.2 * pageSize) :
    Zone sh a (.range r) := by
  have hpl := h.vm.placed r hr
  have hbase := hpl.base
  exact ⟨by omega, hpl.covers h1 h2⟩

theorem Layout.zone (hx : w.Has x) (ha : x.Spans w.heap a) : Zone sh a x := by
  obtain ⟨h1, h2⟩ := ha
  cases x with
  | object p => exact h.object_page hx h1 h2
  | block r =>
    simp only [Alloc.ptr, Alloc.bytes, largeHdrBytes] at h1 h2
    exact mem_block_of_lt (h.block r hx) (by omega) (by omega)
  | range r =>
    simp only [Alloc.ptr, Alloc.bytes, largeHdrBytes] at h1 h2
    exact h.range_zone hx (by omega) (by omega)

include hlow

theorem Layout.not_held (hx : w.Has x) (hl : x.isLarge = true) (hz : Zone sh a x) :
    a / pageSize ∉ held sh.slabs := by
  cases x with
  | object p => cases hl
  | block r => exact h.heap.not_held (.inl (mem_add.mpr (.inl (mem_sum_map.mpr ⟨r, hx, hz⟩))))
  | range r => exact fun hm => hlow.not_mem hz.1 (h.mem_pool (.inl hm))

theorem Layout.block_low (hr : r ∈ w.blocks) (hz : Zone sh a (.block r)) : ¬ vmallocBase ≤ a :=
  fun hb =>
  hlow.not_mem hb (h.mem_pool (.inr (.inl (mem_sum_map.mpr ⟨r, hr, hz⟩))))

theorem Layout.zone_unique (hx : w.Has x) (hy : w.Has y) (hl : y.isLarge = true) (hzx : Zone sh a x)
    (hzy : Zone sh a y) :
    x = y := by
  cases x with
  | object p => exact absurd hzx (h.not_held hlow hy hl hzy)
  | block r =>
    cases y with
    | object q => cases hl
    | block r' => rw [eq_of_mem_sum_map h.blocks_nodup hx hy hzx hzy]
    | range r' => exact absurd hzy.1 (h.block_low hlow hx hzx)
  | range r =>
    cases y with
    | object q => cases hl
    | block r' => exact absurd hzx.1 (h.block_low hlow hy hzy)
    | range r' => rw [range_unique h.vm hx hy hzx.2 hzy.2]

theorem Layout.apart (hx : w.Has x) (hy : w.Has y) (hxa : x.Spans w.heap a)
    (hya : y.Spans w.heap a) : x = y := by
  have hzx := h.zone hx hxa
  have hzy := h.zone hy hya
  by_cases hl : y.isLarge = true
  · exact h.zone_unique hlow hx hy hl hzx hzy
  by_cases hl' : x.isLarge = true
  · exact (h.zone_unique hlow hy hx hl' hzy hzx).symm
  cases x with
  | object p =>
    cases y with
    | object q => rw [h.heap.live_unique hx hy hxa hya]
    | block | range => exact absurd rfl hl
  | block | range => exact absurd rfl hl'

theorem Layout.above_header (ha : MayWrite w a) (hr : w.Header r) (hp : pageOf a = r.1) :
    r.1 + largeHdrBytes ≤ a := by
  obtain ⟨-, hother, hfree⟩ := h.header_apart hlow hr
  have hq : r.1 / pageSize = a / pageSize := by rw [← hp, pageOf_div]
  rw [hq] at hother hfree
  rcases ha with ⟨x, hx, h1, h2⟩ | ha | ha
  · have hz := h.zone hx ⟨h1, by omega⟩
    rcases hr with hr | hr
    · have hm : a / pageSize ∈ pagesOf r.1 (blockOrder r.2) := hq ▸ head_mem_pagesOf _ _
      obtain rfl := h.zone_unique hlow hx (y := .block r) hr rfl hz hm
      exact h1
    · have hle : a < r.1 + pageSize := by
        have := Nat.lt_div_mul_add (a := a) pageSize_pos
        rwa [← pageOf, hp] at this
      have hge : r.1 ≤ a := by
        rw [← hp]
        exact Nat.div_mul_le_self a pageSize
      have hroom : pageSize ≤ r.2 * pageSize := Nat.le_mul_of_pos_left _ (h.vm.placed r hr).pages
      obtain rfl := h.zone_unique hlow hx (y := .range r) hr rfl hz (h.range_zone hr hge (by omega))
      exact h1
  · exact absurd ha hother
  · exact absurd ha hfree

end

theorem Inv.write (hlow : Low pool) (h : Inv pool w sh) (ha : MayWrite w a) (v : Nat) :
    Inv pool { w with heap := storeWord w.heap a v } sh := by
  refine ⟨⟨?_, h.vm, h.block⟩, fun r hr => (h.stamped r hr).write (h.aligned hr)
    (h.above_header hlow ha hr) v⟩
  rcases ha with ⟨x, hx, h1, h2⟩ | ha
  · by_cases hl : x.isLarge = true
    · exact write_page_inv h.heap (h.not_held hlow hx hl (h.zone hx ⟨h1, by omega⟩)) v
    cases x with
    | object p => exact write_object_inv h.heap hx h1 h2 v
    | block | range => exact absurd rfl hl
  · refine write_page_inv h.heap (h.heap.not_held (ha.imp_left fun ha => ?_)) v
    exact mem_add.mpr (.inr ha)

end Cervus.Kmem
