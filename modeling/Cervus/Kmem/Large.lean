import Cervus.Kmem.Calls
import Cervus.Slab.Safety

/-! When `kfree` and `krealloc` take an allocation for a large one, and which requests `kmalloc`
can count. -/

namespace Cervus.Kmem

open Cervus.Lib Cervus.Pmm Cervus.Slab Option Prod Vmalloc

/-! The decision. -/

/-- The word 16 bytes below an object is the magic: a word of the object below it, or, for the
first object of a slab of 8-byte objects, a word of the `freemap`. -/
def Disguised (h : Heap) (p : Nat) : Prop :=
  (pageOf p + slabBytes + largeHdrBytes ≤ p ∧ h.mem (p - largeHdrBytes) = largeAllocMagic) ∨
    (p = pageOf p + slabBytes ∧ objBytes h p = 8 ∧
    ((h.slabs (pageOf p)).freemap 6).toNat = largeAllocMagic)

def Alloc.Disguised (h : Heap) : Alloc → Prop
  | object p => Kmem.Disguised h p
  | block _ => False
  | range _ => False

theorem freemap_ne_magic {sl : SlabT} {mem : Nat → Nat} {c s k : Nat} (h : SlabOk sl mem c s)
    (hk : (sl.freemap k).toNat = largeAllocMagic) : 64 * k + 63 < capacity c := by
  apply h.bits
  have h1 : (64 * k + 63) >>> 6 = k := by
    omega
  have h2 : (64 * k + 63) &&& 63 = 63 := by
    rw [show 63 = 2 ^ 6 - 1 from rfl, Nat.and_two_pow_sub_one_eq_mod]
    omega
  rw [testBit, h1, h2, BitVec.getLsbD, hk]
  decide

theorem capacity_bits :
    ∀ c < slabNumCaches, capacity c ≤ 511 ∧ (447 < capacity c → sizeClass c = 8) := by
  decide +kernel

variable {pool : Finset Nat} {sh : Shape} {w : World} {ok : World → Action → Prop}

/-- The large path is taken for an object exactly when it is disguised. -/
theorem object_decision {h : Heap} {other : Multiset Nat} {live : Finset Nat}
    {empty : Option Nat} (hi : HeapInv pool h sh other live empty) {p : Nat} (hp : p ∈ live) :
    isLargeAlloc h p = true ↔ Disguised h p := by
  obtain ⟨c, s, i, hcs, hic, -, rfl⟩ := (hi.live_iff p).mp hp
  have hc := (hi.bound c s hcs).1
  have hs := hi.aligned hcs
  have h8 : 8 ∣ i * sizeClass c := Dvd.dvd.mul_left (class_layout hc).2.2.1 i
  have hoff := slot_offset hc hic
  rw [Disguised, pageOf_slot hc hs hic, hi.objBytes_eq hcs hic, isLargeAlloc, beq_iff_eq]
  obtain ⟨o, ho⟩ : ∃ o, i * sizeClass c = o := ⟨_, rfl⟩
  have hslot : slot s c i - largeHdrBytes = s + (88 + o) := by
    rw [slot, ho, slabBytes, largeHdrBytes]
    omega
  have hmod : (s + (88 + o)) % pageSize = 88 + o ∧ pageOf (s + (88 + o)) = s := by
    obtain ⟨k, rfl⟩ := hs
    simp only [pageOf, pageSize, slabBytes] at hoff ⊢
    omega
  rw [hslot, show slot s c i = s + slabBytes + o by rw [slot, ho]]
  by_cases hbig : 16 ≤ o
  · rw [loadWord_object (by rw [hmod.1, slabBytes]; omega)]
    constructor
    · exact fun hm => .inl ⟨by rw [largeHdrBytes]; omega, hm⟩
    · rintro (hm | hm)
      · exact hm.2
      · omega
  have hword : ∀ k, 88 + o = freemapOffset + 8 * k →
      loadWord h (s + (88 + o)) = ((h.slabs s).freemap k).toNat := by
    intro k hk
    simp only [loadWord, hmod.1, hmod.2]
    rw [if_neg (by omega), if_neg (by omega), if_neg (by omega), if_neg (by omega),
      if_neg (by rw [freemapOffset]; omega), if_pos (by rw [slabBytes]; omega), hk,
      Nat.add_sub_cancel_left,
      Nat.mul_div_cancel_left _ (by decide)]
  have hbits := capacity_bits c hc
  obtain rfl | rfl : o = 0 ∨ o = 8 := by omega
  · rw [hword 6 rfl]
    constructor
    · exact fun hm => .inr ⟨rfl, hbits.2 (freemap_ne_magic (hi.slab c s hcs) hm), hm⟩
    · rintro (hm | hm)
      · rw [largeHdrBytes] at hm
        omega
      · exact hm.2.2
  · rw [hword 7 rfl]
    constructor
    · intro hm
      have := freemap_ne_magic (hi.slab c s hcs) hm
      omega
    · rintro (hm | hm)
      · rw [largeHdrBytes] at hm
        omega
      · omega

/-- `kfree` and `krealloc` take each allocation for what it is unless it is disguised. -/
def Decides (w : World) : Prop :=
  ∀ x, w.Has x → (isLargeAlloc w.heap x.ptr = x.isLarge ↔ ¬ x.Disguised w.heap)

theorem Inv.decides (h : Inv pool w sh) : Decides w := by
  intro x hx
  cases x with
  | object p =>
    have hp := object_decision h.heap hx
    rw [Alloc.ptr, Alloc.isLarge, Alloc.Disguised, ← hp, Bool.not_eq_true]
  | block r => simp [Alloc.ptr, Alloc.isLarge, Alloc.Disguised, h.large_decision (.inl hx)]
  | range r => simp [Alloc.ptr, Alloc.isLarge, Alloc.Disguised, h.large_decision (.inr hx)]

/-! Runs. -/

/-- No allocation is disguised when it is freed, and `krealloc` is not asked for a size that
wraps. -/
def Careful (w : World) (a : Action) : Prop :=
  Valid w a ∧ match a with
    | .kfree x => ¬ x.Disguised w.heap
    | .krealloc x size s => size + 15 < 2 ^ 64 ∧ (size = 0 → ¬ x.Disguised w.heap) ∧
        ∀ np w', w.copied x size s = some (some np, w') → ¬ x.Disguised w'.heap
    | _ => True

/-- Each call returns and keeps the invariant. -/
theorem call_returns (hlow : Low pool) (h : Inv pool w sh) {a : Action} (ha : Careful w a)
    (hp : ∀ op, a ≠ .page op) :
    ∃ w' sh', next w a = some w' ∧ Inv pool w' sh' := by
  obtain ⟨hv, hc⟩ := ha
  cases a with
  | kmalloc size s =>
    rcases kmalloc_spec hlow h hv s with ⟨u, sh', hk, hi, -⟩ | ⟨x, u, sh', hk, hi, -⟩
    · exact ⟨u, sh', by rw [next, hk]; rfl, hi⟩
    · exact ⟨u, sh', by rw [next, hk]; rfl, hi⟩
  | kfree x =>
    obtain ⟨u, sh', hk, hi⟩ := kfree_spec hlow h hv ((h.decides x hv).mpr hc)
    exact ⟨u, sh', hk, hi⟩
  | krealloc x size s =>
    obtain ⟨hs, h0, hmid⟩ := hc
    obtain ⟨r, u, sh', hk, hi⟩ := krealloc_spec hlow h hv.1 hs (s :=
      s) (fun hz => (h.decides x hv.1).mpr (h0 hz))
      fun np u hu => by
        rcases copied_spec hlow h hv.1 hs s with ⟨u', sh', hk, -⟩ | ⟨np', u', sh', hk, hi, hx⟩
        · rw [hk] at hu
          cases hu
        · rw [hk] at hu
          obtain ⟨-, rfl⟩ := mk.inj (some.inj hu)
          exact (hi.decides x hx).mpr (hmid np' u' hk)
    exact ⟨u, sh', by rw [next, hk]; rfl, hi⟩
  | write a v => exact ⟨_, sh, rfl, h.write hlow hv.2 v⟩
  | page op => exact absurd rfl (hp op)

theorem next_inv {w' : World} (hlow : Low pool) (h : Inv pool w sh) {a : Action}
    (ha : Careful w a) (hn : next w a = some w') : ∃ sh', Inv pool w' sh' := by
  by_cases hp : ∀ op, a ≠ .page op
  · obtain ⟨u, sh', hu, hi⟩ := call_returns hlow h ha hp
    obtain rfl := some.inj (hu.symm.trans hn)
    exact ⟨sh', hi⟩
  · obtain ⟨op, rfl⟩ := not_forall_not.mp hp
    rw [next] at hn
    cases he : exec w.heap.buddy op with
    | ret b r =>
      rw [he] at hn
      cases hn
      exact ⟨sh, h.page ha.1 he⟩
    | panic | hang =>
      rw [he] at hn
      cases hn

/-! Sizes. -/

structure Counted (size : Nat) : Prop where
  pages : size + largeHdrBytes ≤ largePages size * pageSize
  order : ∀ o, pagesToOrder (largePages size) = some (some o) → largePages size ≤ 2 ^ o
  slots : vmallocMinPages ≤ largePages size →
    largePages size * pageSize ≤ slotsFor (largePages size) * granule

/-- A pointer that `kmalloc` returns is that of a new allocation of at least `size` bytes. -/
def Owned (w : World) (size : Nat) (s : Vmalloc.Supply) : Prop :=
  ∀ p w', w.kmalloc size s = some (some p, w') → ∃ x, w'.Has x ∧ ¬ w.Has x ∧ x.ptr = p ∧
    size ≤ x.bytes w'.heap

structure SizeOk (w : World) (size : Nat) (s : Vmalloc.Supply) : Prop where
  returns : w.kmalloc size s ≠ none
  terminates : pagesToOrder (largePages size) ≠ none
  counted : slabMaxSize < size → Counted size
  owned : Owned w size s

theorem counted_iff {size : Nat} (hs : size < 2 ^ 64) (hbig : slabMaxSize < size) :
    Counted size ↔ size + largeHdrBytes + granule ≤ 2 ^ 64 := by
  constructor
  · intro h
    have h1 := h.pages
    have h2 := h.slots
    simp only [largePages, slotsFor, vmallocMinPages, largeHdrBytes, pageSize, granule, slabMaxSize]
      at *
    omega
  · intro h
    refine ⟨?_, fun o ho => le_of_pagesToOrder ho, fun _ => ?_⟩
    · simp only [largePages, largeHdrBytes, pageSize, granule] at *
      omega
    · simp only [largePages, slotsFor, largeHdrBytes, pageSize, granule] at *
      omega

theorem Inv.bytes_lt (h : Inv pool w sh) {x : Alloc} (hx : w.Has x) : x.bytes w.heap < 2 ^ 63 := by
  cases x with
  | object p =>
    obtain ⟨c, s, i, hcs, hic, -, rfl⟩ := (h.heap.live_iff p).mp hx
    rw [Alloc.bytes, h.heap.objBytes_eq hcs hic]
    exact lt_trans (class_layout (h.heap.bound c s hcs).1).2.1 (by decide)
  | block r =>
    have ho := pagesToOrder_le (h.block r hx).order
    have hp : 2 ^ blockOrder r.2 ≤ 2 ^ maxOrder := Nat.pow_le_pow_right (by decide) ho
    rw [Alloc.bytes, blockBytes_eq]
    simp only [pageSize, maxOrder] at hp ⊢
    omega
  | range r =>
    have hpl := h.vm.placed r hx
    have hroom := hpl.room
    have hin := hpl.inside
    rw [Alloc.bytes]
    simp only [granule, slotCount] at hroom hin
    omega

theorem Inv.owned_iff (hlow : Low pool) (h : Inv pool w sh) {size : Nat}
    (hs : size < 2 ^ 64) (s : Vmalloc.Supply) :
    Owned w size s ↔ size + 15 < 2 ^ 64 ∨ ∃ w', w.kmalloc size s = some (none, w') := by
  rcases kmalloc_spec hlow h hs s with ⟨u, sh', hk, -⟩ | ⟨x, u, sh', hk, hi, hx⟩
  · refine ⟨fun _ => .inr ⟨u, hk⟩, fun _ p w' hp => ?_⟩
    rw [hk] at hp
    cases hp
  constructor
  · intro ho
    obtain ⟨y, hy, -, -, hle⟩ := ho x.ptr u hk
    have := hi.bytes_lt hy
    exact .inl (by omega)
  · rintro (h15 | ⟨w', hn⟩)
    · intro p w' hp
      rw [hk] at hp
      obtain ⟨hptr, rfl⟩ := mk.inj (some.inj hp)
      exact ⟨x, hx.has, hx.fresh, some.inj hptr, hx.room h15⟩
    · rw [hk] at hn
      cases hn

theorem low_pool {mmap : List BootMmapEntry} (hd : UsableDisjoint mmap)
    (hlow : maxPhys mmap ≤ vmallocBase) : Low (Pmm.pool hd) := by
  intro q hq
  have hb := page_le_maxPhys hq
  rw [add_mul, one_mul] at hb
  exact lt_of_lt_of_le (Nat.lt_add_of_pos_right pageSize_pos) (hb.trans hlow)

section Runs
variable {mmap : List BootMmapEntry} (hd : UsableDisjoint mmap) (hf : (fstatePhys mmap).isSome)
    (hlow : maxPhys mmap ≤ vmallocBase)
  {b : Buddy} {out : Finset Nat} (hb : Pmm.Reach mmap b out) {links : Links} {slabs : Nat →
    SlabT} {mem : Nat → Nat}
  {ready : Bool} {kpm : Nat → Option Nat} {w : World}
include hd hf hlow hb

theorem reach_inv (h : (system b out links slabs mem ready kpm).Reach Careful w) :
    ∃ sh, Inv (Pmm.pool hd) w sh := by
  refine System.Reach.invariant (I := fun w => ∃ sh, Inv (Pmm.pool hd) w sh) ?_ ?_ h
  · have hi := slabInit_inv hd hf hb links slabs mem
    rw [← zero_add out.val] at hi
    have hvm : Vmalloc.Inv (Vmalloc.system ready kpm).init := Vmalloc.reach_inv System.Reach.start
    refine ⟨_, ⟨hi, hvm, fun r hr => nomatch hr⟩, fun r hr => ?_⟩
    exact hr.elim (fun hr => nomatch hr) (fun hr => nomatch hr)
  · rintro w a w' - ⟨sh, hi⟩ ha hn
    exact next_inv (low_pool hd hlow) hi ha hn

/-- In every run in which no disguised object is freed, no byte belongs to two live allocations,
and every further call returns. -/
theorem heap_safe (h : (system b out links slabs mem ready kpm).Reach Careful w) :
    (∀ x y a, w.Has x → w.Has y → x.Spans w.heap a → y.Spans w.heap a → x = y) ∧
      ∀ a, Careful w a → (∀ op, a ≠ .page op) → (next w a).isSome := by
  obtain ⟨sh, hi⟩ := reach_inv hd hf hlow hb h
  refine ⟨fun x y a hx hy => hi.toLayout.apart (low_pool hd hlow) hx hy, fun a ha hp => ?_⟩
  obtain ⟨u, sh', hu, -⟩ := call_returns (low_pool hd hlow) hi ha hp
  rw [hu, isSome_some]

/-- In every run in which no disguised object is freed, the large path is taken for exactly the
large allocations and the disguised objects, at every call and at the `kfree` inside every
`krealloc`. -/
theorem large_path_iff (h : (system b out links slabs mem ready kpm).Reach Careful w) :
    Decides w ∧ ∀ x size s np w', w.Has x → size + 15 < 2 ^ 64 →
      w.copied x size s = some (some np, w') → Decides w' := by
  obtain ⟨sh, hi⟩ := reach_inv hd hf hlow hb h
  refine ⟨hi.decides, fun x size s np w' hx hs hc => ?_⟩
  rcases copied_spec (low_pool hd hlow) hi hx hs s with ⟨u, sh', hk, -⟩ | ⟨np', u, sh', hk, hi', -⟩
  · rw [hk] at hc
    cases hc
  · rw [hk] at hc
    cases hc
    exact hi'.decides

/-- The counts are right exactly up to 2 MiB and a header below `2 ^ 64` bytes. A pointer to
less than was asked for is returned only for the last 15 sizes. -/
theorem kmalloc_size_iff (h : (system b out links slabs mem ready kpm).Reach Careful w) {size : Nat}
    (hs : size < 2 ^ 64) (s : Vmalloc.Supply) :
    (SizeOk w size s ↔ size + largeHdrBytes + granule ≤ 2 ^ 64) ∧
      (Owned w size s ↔ size + 15 < 2 ^ 64 ∨ ∃ w', w.kmalloc size s = some (none, w')) := by
  obtain ⟨sh, hi⟩ := reach_inv hd hf hlow hb h
  have howned := hi.owned_iff (low_pool hd hlow) hs s
  refine ⟨⟨fun ho => ?_, fun hle => ⟨?_, largePages_order hs, fun hbig =>
    (counted_iff hs hbig).mpr hle, ?_⟩⟩, howned⟩
  · by_cases hbig : slabMaxSize < size
    · exact (counted_iff hs hbig).mp (ho.counted hbig)
    · simp only [slabMaxSize, largeHdrBytes, granule] at hbig ⊢
      omega
  · rcases kmalloc_spec (low_pool hd hlow) hi hs s with ⟨u, sh', hk, -⟩ | ⟨x, u, sh', hk, -⟩
    · rw [hk]
      exact Option.some_ne_none _
    · rw [hk]
      exact Option.some_ne_none _
  · refine howned.mpr (.inl ?_)
    simp only [largeHdrBytes, granule] at hle
    omega

end Runs

/-! A machine of two pages, one of which holds `g_fstate`. -/

def noSupply : Vmalloc.Supply := ⟨fun _ => 0, 0, by decide⟩

def boot : System World Action :=
  system (pmmInit twoPages) ∅ ⟨fun _ => 0, fun _ => 0⟩ (fun _ => ⟨0, 0, 0, 0, 0, 0, fun _ => 0⟩)
    (fun _ => 0) false fun _ => none

def oneOut : World := (boot.next boot.init (.kmalloc 32 noSupply)).getD boot.init
def twoOut : World := (boot.next oneOut (.kmalloc 32 noSupply)).getD oneOut

theorem oneOut_reach (hok : ∀ w, ok w (.kmalloc 32 noSupply)) : boot.Reach ok oneOut :=
  System.Reach.start.stepD (hok _) (by decide +kernel)

theorem twoOut_reach (hok : ∀ w, ok w (.kmalloc 32 noSupply)) : boot.Reach ok twoOut :=
  (oneOut_reach hok).stepD (hok _) (by decide +kernel)

theorem large_path_iff_twoPages : twoOut.objects = {0x101068, 0x101088} ∧ Decides twoOut ∧
    ∀ x size s np w', twoOut.Has x → size + 15 < 2 ^ 64 →
    twoOut.copied x size s = some (some np, w') → Decides w' := by
  have hr : boot.Reach Careful twoOut := twoOut_reach fun _ => ⟨show 32 < 2 ^ 64 by decide, trivial⟩
  exact ⟨by decide +kernel,
    large_path_iff twoPages_disjoint twoPages_placed (by decide +kernel) .init hr⟩

theorem heap_safe_twoPages : twoOut.objects = {0x101068, 0x101088} ∧
    ∀ x y a, twoOut.Has x → twoOut.Has y → x.Spans twoOut.heap a → y.Spans twoOut.heap a →
    x = y := by
  have hr : boot.Reach Careful twoOut := twoOut_reach fun _ => ⟨show 32 < 2 ^ 64 by decide, trivial⟩
  exact ⟨by decide +kernel,
    (heap_safe twoPages_disjoint twoPages_placed (by decide +kernel) .init hr).1⟩

/-- The owner of the first object writes the magic into its last 16 bytes: the second object is
then taken for a large allocation. -/
theorem object_taken_for_large : ∃ w x, boot.Reach Valid w ∧ w.Has x ∧ x.isLarge = false ∧
    isLargeAlloc w.heap x.ptr = true := by
  have hr : boot.Reach Valid twoOut := twoOut_reach fun _ => show 32 < 2 ^ 64 by decide
  have hbytes : objBytes twoOut.heap 0x101068 = 32 := by decide +kernel
  have hout : 0x101068 ∈ twoOut.objects ∧ 0x101088 ∈ twoOut.objects := by decide +kernel
  have hword : isLargeAlloc (storeWord twoOut.heap 0x101078 largeAllocMagic) 0x101088 = true := by
    decide +kernel
  generalize twoOut = w at hr hbytes hout hword
  have hown : MayWrite w 0x101078 :=
    .inl ⟨.object 0x101068, hout.1, by decide, by rw [Alloc.bytes, hbytes]; decide⟩
  exact ⟨_, .object 0x101088, hr.step (a := .write 0x101078 largeAllocMagic) ⟨by decide, hown⟩ rfl,
    hout.2, rfl, hword⟩

theorem kmalloc_size_iff_twoPages : SizeOk oneOut 5000 noSupply ∧
    (Owned oneOut 5000 noSupply ↔ 5000 + 15 < 2 ^ 64 ∨
    ∃ w', oneOut.kmalloc 5000 noSupply = some (none, w')) := by
  have hr : boot.Reach Careful oneOut := oneOut_reach fun _ => ⟨show 32 < 2 ^ 64 by decide, trivial⟩
  have h := kmalloc_size_iff twoPages_disjoint twoPages_placed (by decide +kernel) .init hr
    (show 5000 < 2 ^ 64 by decide) noSupply
  exact ⟨h.1.mpr (by decide), h.2⟩

/-- The largest size gets one page. -/
theorem kmalloc_wraps :
    ∃ w p w', boot.Reach Valid w ∧ w.kmalloc (2 ^ 64 - 1) noSupply = some (some p, w') ∧
    ∀ x, w'.Has x → x.bytes w'.heap ≤ 4080 := by
  have hk : (boot.init.kmalloc (2 ^ 64 - 1) noSupply).map
    (fun r => (r.1, r.2.objects, r.2.blocks, r.2.vm.live)) =
      some (some 0x101010, ∅, [(0x101000, 1)], []) := by decide +kernel
  obtain ⟨⟨r, w'⟩, hw, he⟩ := Option.map_eq_some_iff.mp hk
  simp only [mk.injEq] at he
  obtain ⟨rfl, hobj, hblk, hlive⟩ := he
  refine ⟨_, _, w', System.Reach.start, hw, fun x hx => ?_⟩
  cases x with
  | object p =>
    rw [World.Has, hobj] at hx
    exact absurd hx (Finset.notMem_empty p)
  | block r =>
    rw [World.Has, hblk, List.mem_singleton] at hx
    rw [hx]
    show blockBytes (blockOrder 1) - largeHdrBytes ≤ 4080
    decide
  | range r =>
    rw [World.Has, hlive] at hx
    exact absurd hx List.not_mem_nil

end Cervus.Kmem
