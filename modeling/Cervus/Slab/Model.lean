import Cervus.Lib.Bitmap
import Cervus.Lib.DList
import Cervus.Pmm.Run

/-! The slab allocator of `kernel/src/memory/pmm.c` over the page allocator. Every
page is seen as a `slab_t` at its start, whose list links are kept apart, followed
by 64-bit words at byte addresses. -/

namespace Cervus.Slab

open Cervus.Lib Cervus.Pmm List Function

def slabMaxSize : Nat := 4096
def slabNumCaches : Nat := 10
def slabMagic : Nat := 0x534c4142c3a7f00d
def largeAllocMagic : Nat := 0xDEADBEEFCAFEBABE
def largeHdrBytes : Nat := 16
def vmallocMinPages : Nat := 256
def vmallocBase : Nat := 0xFFFFFC0000000000
def vmallocEnd : Nat := vmallocBase + 0x200000 * 2048

def slabBytes : Nat := 104
def freemapOffset : Nat := 40

def sizeClasses : List Nat := [8, 16, 32, 64, 128, 256, 512, 1024, 2048, 4096]

structure SlabT where
  freelist : Nat
  objSize : Nat
  total : Nat
  used : Nat
  pad : Nat
  magic : Nat
  freemap : Nat → BitVec 64

structure SlabCache where
  objSize : Nat
  partialHead : Nat
  fullHead : Nat
  totalAllocs : Nat
  totalFrees : Nat

inductive SlabList
  | partials
  | fulls
  deriving DecidableEq

def SlabCache.head (cache : SlabCache) : SlabList → Nat
  | .partials => cache.partialHead
  | .fulls => cache.fullHead

def SlabCache.setHead (cache : SlabCache) (k : SlabList) (s : Nat) : SlabCache :=
  match k with
  | .partials => { cache with partialHead := s }
  | .fulls => { cache with fullHead := s }

structure Heap where
  buddy : Buddy
  caches : Nat → SlabCache
  links : Links
  slabs : Nat → SlabT
  mem : Nat → Nat

def pageOf (a : Nat) : Nat := a / pageSize * pageSize

def loadWord (h : Heap) (a : Nat) : Nat :=
  let sl := h.slabs (pageOf a)
  let off := a % pageSize
  if off < 8 then h.links.next (pageOf a)
  else if off < 16 then h.links.prev (pageOf a)
  else if off < 24 then sl.freelist
  else if off < 32 then sl.objSize + sl.total * 2 ^ 16 + sl.used * 2 ^ 32 + sl.pad * 2 ^ 48
  else if off < freemapOffset then sl.magic
  else if off < slabBytes then (sl.freemap ((off - freemapOffset) / 8)).toNat
  else h.mem a

def setSlab (h : Heap) (s : Nat) (sl : SlabT) : Heap :=
  { h with slabs := update h.slabs s sl }

def storeWord (h : Heap) (a v : Nat) : Heap :=
  let sl := h.slabs (pageOf a)
  let off := a % pageSize
  if off < 8 then { h with links := h.links.setNext (pageOf a) v }
  else if off < 16 then { h with links := h.links.setPrev (pageOf a) v }
  else if off < 24 then setSlab h (pageOf a) { sl with freelist := v }
  else if off < 32 then setSlab h (pageOf a) { sl with
    objSize := v % 2 ^ 16
    total := v / 2 ^ 16 % 2 ^ 16
    used := v / 2 ^ 32 % 2 ^ 16
    pad := v / 2 ^ 48 % 2 ^ 16 }
  else if off < freemapOffset then setSlab h (pageOf a) { sl with magic := v }
  else if off < slabBytes then setSlab h (pageOf a) { sl with
    freemap := update sl.freemap ((off - freemapOffset) / 8) (BitVec.ofNat 64 v) }
  else { h with mem := update h.mem a v }

def zeroPages (h : Heap) (p pages : Nat) : Heap :=
  let inside := fun a => p ≤ a ∧ a < p + pages * pageSize
  { h with
    links := ⟨fun s => if inside s then 0 else h.links.next s,
      fun s => if inside s then 0 else h.links.prev s⟩
    slabs := fun s => if inside s then ⟨0, 0, 0, 0, 0, 0, fun _ => 0⟩ else h.slabs s
    mem := fun a => if inside a then 0 else h.mem a }

def pmmAllocZero (h : Heap) (pages : Nat) : Outcome Heap (Option Nat) :=
  match pmmAlloc h.buddy pages with
  | .ret b none => .ret { h with buddy := b } none
  | .ret b (some p) => .ret (zeroPages { h with buddy := b } p pages) (some p)
  | .panic => .panic
  | .hang => .hang

def freeTakesEffect (s : Buddy) (addr pages : Nat) : Bool :=
  decide (pages ≠ 0 ∧ s.memStart ≤ addr ∧ addr < s.memEnd ∧ freeMinPhys ≤ addr) &&
    (pagesToOrder pages).join.isSome

/-- `pmm_free` as the slab allocator sees it: a block that is taken back has its
first 64 bytes cleared. -/
def slabPageFree (h : Heap) (addr pages : Nat) : Outcome Heap Unit :=
  match pmmFree h.buddy (some addr) pages with
  | .ret b _ =>
    if freeTakesEffect h.buddy addr pages then
      .ret ((range 8).foldl (fun h i => storeWord h (addr + 8 * i) 0) { h with buddy := b }) ()
    else .ret { h with buddy := b } ()
  | .panic => .panic
  | .hang => .hang

def slabObjStart (s : Nat) : Nat := alignUp (s + slabBytes) 8

def slabPages (objSize : Nat) : Nat :=
  if objSize ≤ pageSize - alignUp slabBytes 8 then 1
  else if objSize ≤ pageSize then 2
  else 0

def slabCapacity (objSize : Nat) : Nat :=
  if slabPages objSize = 0 then 0
  else
    let cap := (slabPages objSize * pageSize - alignUp slabBytes 8) / objSize % 2 ^ 16
    if cap > 512 then 512 else cap

def slotLink (start objSize total : Nat) (mem : Nat → Nat) (i : Nat) : Nat → Nat :=
  update mem (start + i * objSize)
    (if i + 1 < total then start + (i + 1) * objSize else 0)

def slabFill (h : Heap) (s objSize cap : Nat) : Heap :=
  { h with
    links := (h.links.setPrev s 0).setNext s 0
    slabs := update h.slabs s
      { h.slabs s with
        freelist := slabObjStart s
        objSize := objSize % 2 ^ 16
        total := cap
        used := 0
        magic := slabMagic
        freemap := (range cap).foldl setBit fun _ => 0 }
    mem := (range cap).foldl (slotLink (slabObjStart s) objSize cap) h.mem }

def slabNew (h : Heap) (objSize : Nat) : Outcome Heap (Option Nat) :=
  if slabCapacity objSize = 0 then .ret h none
  else match pmmAllocZero h (slabPages objSize) with
    | .ret h' (some s) => .ret (slabFill h' s objSize (slabCapacity objSize)) (some s)
    | .ret h' none => .ret h' none
    | .panic => .panic
    | .hang => .hang

def slabInit (buddy : Buddy) (links : Links) (slabs : Nat → SlabT) (mem : Nat → Nat) : Heap where
  buddy := buddy
  caches := fun i => ⟨sizeClasses.getD i 0, 0, 0, 0, 0⟩
  links := links
  slabs := slabs
  mem := mem

def setCache (h : Heap) (c : Nat) (cache : SlabCache) : Heap :=
  { h with caches := update h.caches c cache }

def slabListPush (h : Heap) (c : Nat) (k : SlabList) (s : Nat) : Heap :=
  setCache { h with links := h.links.push ((h.caches c).head k) s } c ((h.caches c).setHead k s)

def slabListRemove (h : Heap) (c : Nat) (k : SlabList) (s : Nat) : Heap :=
  setCache { h with links := h.links.unlink s } c
    ((h.caches c).setHead k (h.links.headAfter ((h.caches c).head k) s))

def takeSlot (h : Heap) (c s idx : Nat) : Heap :=
  let sl := h.slabs s
  let h' := setSlab h s { sl with
    freemap := clearBit sl.freemap idx
    freelist := loadWord h sl.freelist
    used := sl.used + 1 }
  setCache h' c { h.caches c with totalAllocs := (h.caches c).totalAllocs + 1 }

def takeObject (h : Heap) (c : Nat) : Outcome Heap (Option Nat) :=
  let s := (h.caches c).partialHead
  let sl := h.slabs s
  let obj := sl.freelist
  let first := slabObjStart s
  let off := obj - first
  let idx := off / sl.objSize % 2 ^ 32
  if obj < first ∨ off % sl.objSize ≠ 0 ∨ idx ≥ sl.total ∨
    testBit sl.freemap idx = false then .panic
  else
    let h' := takeSlot h c s idx
    if (h'.slabs s).used = (h'.slabs s).total then
      .ret (slabListPush (slabListRemove h' c .partials s) c .fulls s) (some obj)
    else .ret h' (some obj)

def cacheFor (h : Heap) (size : Nat) : Option Nat :=
  (range slabNumCaches).find? fun i => decide ((h.caches i).objSize ≥ size)

def kmallocSlab (h : Heap) (size : Nat) : Outcome Heap (Option Nat) :=
  match cacheFor h size with
  | none => .ret h none
  | some c =>
    if (h.caches c).partialHead = 0 then
      match slabNew h (h.caches c).objSize with
      | .ret h' (some s) => takeObject (slabListPush h' c .partials s) c
      | .ret h' none => .ret h' none
      | .panic => .panic
      | .hang => .hang
    else takeObject h c

/-- `vm` is what `vmalloc_pages` returns, should it be asked. -/
def kmalloc (vm : Option Nat) (h : Heap) (size : Nat) : Outcome Heap (Option Nat) :=
  if size = 0 then .ret h none
  else if size > slabMaxSize then
    let pages := (size + largeHdrBytes + pageSize - 1) % 2 ^ 64 / pageSize
    let stamp := fun h hdr => storeWord (storeWord h hdr largeAllocMagic) (hdr + 8) pages
    match (if pages ≥ vmallocMinPages then vm else none) with
    | some hdr => .ret (stamp h hdr) (some (hdr + largeHdrBytes))
    | none => match pmmAllocZero h pages with
      | .ret h' (some hdr) => .ret (stamp h' hdr) (some (hdr + largeHdrBytes))
      | .ret h' none => .ret h' none
      | .panic => .panic
      | .hang => .hang
  else kmallocSlab h size

def isLargeAlloc (h : Heap) (ptr : Nat) : Bool :=
  loadWord h (ptr - largeHdrBytes) == largeAllocMagic

def vmallocOwns (a : Nat) : Bool := decide (vmallocBase ≤ a ∧ a < vmallocEnd)

def giveSlot (h : Heap) (c s ptr idx : Nat) : Heap :=
  let sl := h.slabs s
  let h' := setSlab (storeWord h ptr sl.freelist) s { sl with
    freemap := setBit sl.freemap idx
    freelist := ptr
    used := sl.used - 1 }
  setCache h' c { h.caches c with totalFrees := (h.caches c).totalFrees + 1 }

def releaseEmpty (h : Heap) (c s : Nat) : Outcome Heap Unit :=
  if (h.slabs s).used = 0 then
    let h' := slabListRemove h c .partials s
    let pages := slabPages (h'.slabs s).objSize
    slabPageFree (setSlab h' s { h'.slabs s with magic := 0 }) s (if pages > 0 then pages else 1)
  else .ret h ()

def kfreeSlab (h : Heap) (ptr : Nat) : Outcome Heap Unit :=
  let s := pageOf ptr
  let sl := h.slabs s
  let first := slabObjStart s
  if sl.magic ≠ slabMagic ∨ ptr < first ∨ (ptr - first) % sl.objSize ≠ 0 ∨
      (ptr - first) / sl.objSize ≥ sl.total then .panic
  else match (range slabNumCaches).find? fun i => decide ((h.caches i).objSize = sl.objSize) with
    | none => .ret h ()
    | some c =>
      let idx := (ptr - first) / sl.objSize % 2 ^ 32
      if testBit sl.freemap idx then .panic
      else
        let wasFull := decide (sl.used = sl.total)
        let h' := giveSlot h c s ptr idx
        if wasFull then
          releaseEmpty (slabListPush (slabListRemove h' c .fulls s) c .partials s) c s
        else releaseEmpty h' c s

/-- `vfree_pages` acts on memory outside this heap. -/
def kfree (h : Heap) (ptr : Option Nat) : Outcome Heap Unit :=
  match ptr with
  | none => .ret h ()
  | some p =>
    if isLargeAlloc h p then
      let hdr := p - largeHdrBytes
      let pages := loadWord h (hdr + 8)
      let h := storeWord h hdr 0
      if vmallocOwns hdr then .ret h () else slabPageFree h hdr pages
    else kfreeSlab h p

/-! What the writes of the slab allocator leave unchanged. Each of them stays within
a set of pages, named by their first addresses. -/

/-- The heaps agree on the caches and on all memory outside the pages `pg`. -/
structure SameOff (pg : Nat → Prop) (h h' : Heap) : Prop where
  caches : h'.caches = h.caches
  slabs : ∀ s, ¬ pg (pageOf s) → h'.slabs s = h.slabs s
  next : ∀ s, ¬ pg (pageOf s) → h'.links.next s = h.links.next s
  prev : ∀ s, ¬ pg (pageOf s) → h'.links.prev s = h.links.prev s
  mem : ∀ a, ¬ pg (pageOf a) → h'.mem a = h.mem a

theorem SameOff.refl (pg : Nat → Prop) (h : Heap) : SameOff pg h h :=
  ⟨rfl, fun _ _ => rfl, fun _ _ => rfl, fun _ _ => rfl, fun _ _ => rfl⟩

theorem SameOff.setBuddy (pg : Nat → Prop) (h : Heap) (b : Buddy) :
    SameOff pg h { h with buddy := b } :=
  ⟨rfl, fun _ _ => rfl, fun _ _ => rfl, fun _ _ => rfl, fun _ _ => rfl⟩

variable {h h' : Heap} {a s size start total : Nat}

theorem SameOff.trans {pg : Nat → Prop} {h'' : Heap} (h₁ : SameOff pg h h')
    (h₂ : SameOff pg h' h'') : SameOff pg h h'' where
  caches := h₂.caches.trans h₁.caches
  slabs s hs := (h₂.slabs s hs).trans (h₁.slabs s hs)
  next s hs := (h₂.next s hs).trans (h₁.next s hs)
  prev s hs := (h₂.prev s hs).trans (h₁.prev s hs)
  mem a ha := (h₂.mem a ha).trans (h₁.mem a ha)

theorem SameOff.mono {pg pg' : Nat → Prop} (hs : SameOff pg h h') (hp : ∀ q, pg q → pg' q) :
    SameOff pg' h h' :=
  ⟨hs.caches, fun s hn => hs.slabs s (hn ∘ hp _), fun s hn => hs.next s (hn ∘ hp _),
    fun s hn => hs.prev s (hn ∘ hp _), fun a hn => hs.mem a (hn ∘ hp _)⟩

theorem pageOf_of_dvd (hs : pageSize ∣ s) : pageOf s = s := Nat.div_mul_cancel hs

theorem pageOf_pageOf (a : Nat) : pageOf (pageOf a) = pageOf a :=
  pageOf_of_dvd (dvd_mul_left _ _)

theorem loadWord_object (ha : slabBytes ≤ a % pageSize) : loadWord h a = h.mem a := by
  have hf : freemapOffset < slabBytes := by decide
  have h32 : 32 < freemapOffset := by decide
  simp only [loadWord]
  rw [if_neg (by omega), if_neg (by omega), if_neg (by omega), if_neg (by omega), if_neg (by omega),
    if_neg (by omega)]

theorem storeWord_object (v : Nat) (ha : slabBytes ≤ a % pageSize) :
    storeWord h a v = { h with mem := Function.update h.mem a v } := by
  have hf : freemapOffset < slabBytes := by decide
  have h32 : 32 < freemapOffset := by decide
  simp only [storeWord]
  rw [if_neg (by omega), if_neg (by omega), if_neg (by omega), if_neg (by omega), if_neg (by omega),
    if_neg (by omega)]

theorem storeWord_buddy (h : Heap) (a v : Nat) : (storeWord h a v).buddy = h.buddy := by
  simp only [storeWord, setSlab]
  split_ifs <;> rfl

theorem storeWord_mem (h : Heap) {b : Nat} (v : Nat) (hb : b ≠ a) :
    (storeWord h a v).mem b = h.mem b := by
  simp only [storeWord, setSlab]
  split_ifs <;> simp [Function.update_of_ne hb]

theorem storeWord_sameOff (h : Heap) (a v : Nat) : SameOff (· = pageOf a) h (storeWord h a v) := by
  have hne : ∀ {s : Nat}, ¬ pageOf s = pageOf a → s ≠ pageOf a := fun hs e =>
    hs (by rw [e, pageOf_pageOf])
  refine ⟨?_, fun s hs => ?_, fun s hs => ?_, fun s hs => ?_, fun b hb => ?_⟩
  · simp only [storeWord, setSlab]
    split_ifs <;> rfl
  · simp only [storeWord, setSlab]
    split_ifs <;> simp [Function.update_of_ne (hne hs)]
  · simp only [storeWord, setSlab, Links.setNext, Links.setPrev]
    split_ifs <;> simp [Function.update_of_ne (hne hs)]
  · simp only [storeWord, setSlab, Links.setNext, Links.setPrev]
    split_ifs <;> simp [Function.update_of_ne (hne hs)]
  · exact storeWord_mem h v fun e => hb (by rw [e])

theorem foldl_storeWord_sameOff (l : List Nat) (h : Heap) (hl : ∀ i ∈ l, pageOf (s + 8 * i) = s) :
    SameOff (· = s) h (l.foldl (fun h i => storeWord h (s + 8 * i) 0) h) ∧
      (l.foldl (fun h i => storeWord h (s + 8 * i) 0) h).buddy = h.buddy := by
  induction l generalizing h with
  | nil => exact ⟨SameOff.refl _ _, rfl⟩
  | cons i l ih =>
    obtain ⟨hs, hb⟩ := ih (storeWord h (s + 8 * i) 0) fun j hj => hl j (by simp [hj])
    have hst := storeWord_sameOff h (s + 8 * i) 0
    rw [hl i (by simp)] at hst
    exact ⟨hst.trans hs, hb.trans (storeWord_buddy _ _ _)⟩

theorem zeroPages_sameOff (h : Heap) {p : Nat} (pages : Nat) (hp : pageSize ∣ p) :
    SameOff (fun q => p ≤ q ∧ q < p + pages * pageSize) h (zeroPages h p pages) := by
  -- a run of whole pages holds an address exactly when it holds its page
  have hin : ∀ a, ¬ (p ≤ pageOf a ∧ pageOf a < p + pages * pageSize) →
      ¬ (p ≤ a ∧ a < p + pages * pageSize) := by
    intro a hn ha
    obtain ⟨k, rfl⟩ := hp
    apply hn
    have h1 : k ≤ a / pageSize := (Nat.le_div_iff_mul_le pageSize_pos).mpr
      (by rw [mul_comm]; exact ha.1)
    have h2 := Nat.div_mul_le_self a pageSize
    rw [pageOf]
    exact ⟨by rw [mul_comm]; exact Nat.mul_le_mul_right _ h1, by omega⟩
  exact ⟨rfl, fun s hs => if_neg (hin s hs), fun s hs => if_neg (hin s hs),
    fun s hs => if_neg (hin s hs), fun a ha => if_neg (hin a ha)⟩

theorem foldl_slotLink (hs : 0 < size) (mem : Nat → Nat) (n i : Nat) (hi : i < n) :
    (range n).foldl (slotLink start size total) mem (start + i * size) =
      if i + 1 < total then start + (i + 1) * size else 0 := by
  induction n with
  | zero => omega
  | succ n ih =>
    rw [range_succ, foldl_append, foldl_cons, foldl_nil, slotLink]
    by_cases hin : i = n
    · rw [hin, Function.update_self]
    · rw [Function.update_of_ne, ih (by omega)]
      intro he
      exact hin (Nat.eq_of_mul_eq_mul_right hs (Nat.add_left_cancel he))

theorem foldl_slotLink_off (mem : Nat → Nat) (n : Nat) (ha : ∀ i < n, a ≠ start + i * size) :
    (range n).foldl (slotLink start size total) mem a = mem a := by
  induction n with
  | zero => rfl
  | succ n ih =>
    rw [range_succ, foldl_append, foldl_cons, foldl_nil, slotLink,
      Function.update_of_ne (ha n (by omega)), ih fun i hi => ha i (by omega)]

end Cervus.Slab
