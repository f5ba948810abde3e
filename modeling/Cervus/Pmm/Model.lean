import Mathlib.Algebra.BigOperators.Group.Finset.Defs
import Mathlib.Algebra.GroupWithZero.Nat
import Cervus.Lib.Outcome

/-! The physical page allocator of `kernel/src/memory/pmm.c`: binary buddies over
fourteen free lists with the side array `g_fstate`. Pointers into the direct map
are written as the physical addresses they stand for, since the code only adds
and subtracts `hhdm_offset`; `none` is `NULL`, and the result `-1` of
`_pages_to_order`. The doubly linked free lists are lists of blocks. -/

namespace Cervus.Pmm

open Cervus.Lib Function

def pageSize : Nat := 4096
def pageShift : Nat := 12
def maxOrder : Nat := 13
def freeMinPhys : Nat := 0x100000

inductive BootMemType
  | usable | reserved | acpiReclaimable | acpiNvs | bad | bootloaderReclaimable | kernel
  | framebuffer
  deriving DecidableEq

/-- An entry of the boot memory map: a physical range, whose end and the end of
the page it falls in are addresses. -/
structure BootMmapEntry where
  base : Nat
  length : Nat
  type : BootMemType
  fits : base + length + pageSize ≤ 2 ^ 64

/-- `pmm_free_list_t`: the blocks from `head.next` on, by physical address. -/
structure FreeList where
  blocks : List Nat
  count : Nat
  deriving DecidableEq

structure Buddy where
  memStart : Nat
  memEnd : Nat
  totalPages : Nat
  usablePages : Nat
  freePages : Nat
  orders : Nat → FreeList
  fstate : Option (Nat → Nat)
  blockOrder : Nat → Int

def blockBytes (order : Nat) : Nat := pageSize <<< order

def alignUp (v a : Nat) : Nat := (v + a - 1) / a * a

/-- The loop of `_pages_to_order`. The capacity is a 64-bit word, so a request
above `2 ^ 63` pages never leaves it; `none` is that case. -/
def orderLoop (pages : Nat) : Nat → Nat → Nat → Option Nat
  | 0, _, _ => none
  | fuel + 1, cap, order =>
    if cap < pages then orderLoop pages fuel (cap <<< 1 % 2 ^ 64) (order + 1) else some order

def pagesToOrder (pages : Nat) : Option (Option Nat) :=
  (orderLoop pages 65 1 0).map fun order => if order > maxOrder then none else some order

def setFstate (s : Buddy) (phys v : Nat) : Option (Nat → Nat) :=
  s.fstate.map fun f => update f (phys >>> pageShift) v

def flPush (s : Buddy) (order b : Nat) : Buddy :=
  { s with
    fstate := setFstate s b (order + 1)
    blockOrder := update s.blockOrder b order
    orders := update s.orders order
      ⟨b :: (s.orders order).blocks, (s.orders order).count + 1⟩ }

def flDel (s : Buddy) (order b : Nat) : Buddy :=
  { s with
    fstate := setFstate s b 0
    blockOrder := update s.blockOrder b (-1)
    orders := update s.orders order
      ⟨(s.orders order).blocks.erase b, (s.orders order).count - 1⟩ }

def flFirst (fl : FreeList) : Option Nat := fl.blocks.head?

def blockPtrValid (s : Buddy) : Option Nat → Bool
  | none => true
  | some phys => !(phys < s.memStart || phys ≥ s.memEnd) && phys % pageSize == 0

def flWalk (s : Buddy) (phys : Nat) : List Nat → Nat → Option Nat
  | [], _ => none
  | b :: rest, limit =>
    if !blockPtrValid s (some b) then none
    else if b = phys then some b
    else if !blockPtrValid s rest.head? then none
    else match limit with
      | 0 => none
      | limit + 1 => flWalk s phys rest limit

def flFind (s : Buddy) (order phys : Nat) : Option Nat :=
  match s.fstate with
  | some f =>
    if phys < s.memStart ∨ phys ≥ s.memEnd then none
    else if f (phys >>> pageShift) = order + 1 then some phys else none
  | none => flWalk s phys (s.orders order).blocks (s.totalPages + 16)

/-- The splitting loop shared by the allocation paths: `found` counts down from
`order + k` to `order`, each step freeing the upper half. -/
def splitDown (phys order : Nat) : Nat → Buddy → Buddy
  | 0, s => s
  | k + 1, s => splitDown phys order k (flPush s (order + k) (phys + blockBytes (order + k)))

def dropFreePages (s : Buddy) (order : Nat) : Buddy :=
  { s with freePages := (s.freePages + 2 ^ 64 - 1 <<< order) % 2 ^ 64 }

def addFreePages (s : Buddy) (order : Nat) : Buddy :=
  { s with freePages := min (s.freePages + 1 <<< order) s.usablePages }

def findOrder (s : Buddy) : Nat → Nat → Option Nat
  | 0, _ => none
  | k + 1, o => if (flFirst (s.orders o)).isSome then some o else findOrder s k (o + 1)

def buddyAllocOrder (s : Buddy) (order : Nat) : Buddy × Option Nat :=
  match findOrder s (maxOrder + 1 - order) order with
  | none => (s, none)
  | some found =>
    match (s.orders found).blocks with
    | [] => (s, none)
    | b :: rest =>
      -- the first block's `prev` is the list head, which is always valid
      if !blockPtrValid s rest.head? then
        ({ s with orders := update s.orders found ⟨[], 0⟩ }, none)
      else
        (dropFreePages (splitDown b order (found - order) (flDel s found b)) order, some b)

def coalesce : Nat → Buddy → Nat → Nat → Buddy × Nat × Nat
  | 0, s, phys, order => (s, phys, order)
  | fuel + 1, s, phys, order =>
    let buddyPhys := phys ^^^ blockBytes order
    if buddyPhys < freeMinPhys then (s, phys, order)
    else if buddyPhys < s.memStart ∨ buddyPhys ≥ s.memEnd then (s, phys, order)
    else match flFind s order buddyPhys with
      | none => (s, phys, order)
      | some b =>
        if s.blockOrder b ≠ order then (s, phys, order)
        else coalesce fuel (flDel s order b) (if buddyPhys < phys then buddyPhys else phys)
          (order + 1)

def buddyFreeOrder (s : Buddy) (phys order : Nat) : Buddy :=
  if phys < freeMinPhys then s
  else
    let (s', phys', order') := coalesce (maxOrder - order) s phys order
    addFreePages (flPush s' order' phys') order'

def pageIsFreeFrom (s : Buddy) (f : Nat → Nat) (phys : Nat) : Nat → Nat → Bool
  | 0, _ => false
  | k + 1, o =>
    let head := phys / blockBytes o * blockBytes o
    (!(head < s.memStart || head ≥ s.memEnd) && f (head >>> pageShift) == o + 1) ||
      pageIsFreeFrom s f phys k (o + 1)

def pageIsFree (s : Buddy) (phys : Nat) : Bool :=
  match s.fstate with
  | none => false
  | some f => pageIsFreeFrom s f phys (maxOrder + 1) 0

def buddyFreeNocoalesce (s : Buddy) (phys : Nat) : Buddy := addFreePages (flPush s 0 phys) 0

def pmmAlloc (s : Buddy) (pages : Nat) : Outcome Buddy (Option Nat) :=
  if pages = 0 then .ret s none
  else match pagesToOrder pages with
    | none => .hang
    | some none => .ret s none
    | some (some order) =>
      match buddyAllocOrder s order with
      | (s', none) => .ret s' none
      | (s', some phys) => .ret s' (if phys < freeMinPhys then none else some phys)

def roundLoop (alignment : Nat) : Nat → Nat → Option Nat
  | 0, _ => none
  | fuel + 1, a => if a < alignment then roundLoop alignment fuel (a <<< 1 % 2 ^ 64) else some a

def roundAlignment (alignment : Nat) : Option Nat :=
  let a := if alignment < pageSize then pageSize else alignment
  if a &&& (a - 1) ≠ 0 then roundLoop a 65 1 else some a

def pmmAllocAligned (s : Buddy) (pages alignment : Nat) : Outcome Buddy (Option Nat) :=
  if pages = 0 then .ret s none
  else match roundAlignment alignment with
    | none => .hang
    | some a =>
      match pagesToOrder (if pages > a / pageSize then pages else a / pageSize) with
      | none => .hang
      | some none => .ret s none
      | some (some order) =>
        match buddyAllocOrder s order with
        | (s', none) => .ret s' none
        | (s', some phys) =>
          if phys &&& (a - 1) ≠ 0 then .ret (buddyFreeOrder s' phys order) none
          else .ret s' (some phys)

def belowBlock (s : Buddy) (span maxPhys o : Nat) : Option Nat :=
  (s.orders o).blocks.find? fun bp => decide (¬ bp < freeMinPhys ∧ ¬ bp + span > maxPhys)

def belowFrom (s : Buddy) (span maxPhys : Nat) : Nat → Nat → Option (Nat × Nat)
  | 0, _ => none
  | k + 1, o =>
    match belowBlock s span maxPhys o with
    | some b => some (o, b)
    | none => belowFrom s span maxPhys k (o + 1)

def pmmAllocBelow (s : Buddy) (pages maxPhys : Nat) : Outcome Buddy (Option Nat) :=
  if pages = 0 then .ret s none
  else match pagesToOrder pages with
    | none => .hang
    | some none => .ret s none
    | some (some order) =>
      match belowFrom s (blockBytes order) maxPhys (maxOrder + 1 - order) order with
      | none => .ret s none
      | some (o, b) =>
        .ret (dropFreePages (splitDown b order (o - order) (flDel s o b)) order) (some b)

def pmmFree (s : Buddy) (addr : Option Nat) (pages : Nat) : Outcome Buddy Unit :=
  match addr with
  | none => .ret s ()
  | some phys =>
    if pages = 0 then .ret s ()
    else if phys < s.memStart ∨ phys ≥ s.memEnd then .ret s ()
    else if phys < freeMinPhys then .ret s ()
    else match pagesToOrder pages with
      | none => .hang
      | some none => .ret s ()
      | some (some order) =>
        if pageIsFree s phys || pageIsFree s (phys + (1 <<< order - 1) * pageSize) then .panic
        else .ret (buddyFreeOrder s phys order) ()

def pmmFreeSingle (s : Buddy) (addr : Option Nat) : Outcome Buddy Unit :=
  match addr with
  | none => .ret s ()
  | some phys =>
    if phys < s.memStart ∨ phys ≥ s.memEnd then .ret s ()
    else if pageIsFree s phys then .panic
    else .ret (buddyFreeNocoalesce s phys) ()

def pmmGetFreePages (s : Buddy) : Nat :=
  ∑ o ∈ Finset.range (maxOrder + 1), (s.orders o).count <<< o

def usable (mmap : List BootMmapEntry) : List BootMmapEntry :=
  mmap.filter fun e => e.type = .usable

def entryBase (e : BootMmapEntry) : Nat := max (alignUp e.base pageSize) freeMinPhys
def entryEnd (e : BootMmapEntry) : Nat := (e.base + e.length) / pageSize * pageSize

def maxPhys (mmap : List BootMmapEntry) : Nat :=
  alignUp ((usable mmap).foldl (fun m e => max m (e.base + e.length)) 0) pageSize

def fstateBytes (mmap : List BootMmapEntry) : Nat :=
  alignUp (maxPhys mmap >>> pageShift) pageSize

def fstatePhys (mmap : List BootMmapEntry) : Option Nat :=
  ((usable mmap).find? fun e =>
    decide (entryEnd e > entryBase e ∧ entryEnd e - entryBase e ≥ fstateBytes mmap)).map entryBase

def pickOrder (base rem : Nat) : Nat → Nat
  | 0 => 0
  | order + 1 =>
    if base % (1 <<< (order + 1) * pageSize) = 0 ∧ rem ≥ 1 <<< (order + 1) then order + 1
    else pickOrder base rem order

def pushRange (stop : Nat) : Nat → Nat → Buddy → Buddy
  | 0, _, s => s
  | fuel + 1, base, s =>
    if base < stop then
      let order := pickOrder base ((stop - base) >>> pageShift) maxOrder
      let s' := flPush s order base
      pushRange stop fuel (base + pageSize <<< order)
        { s' with freePages := s'.freePages + 1 <<< order }
    else s

def initEntry (fphys : Option Nat) (fbytes : Nat) (s : Buddy) (e : BootMmapEntry) : Buddy :=
  let base := if fphys = some (entryBase e) then entryBase e + fbytes else entryBase e
  pushRange (entryEnd e) ((entryEnd e - base) >>> pageShift) base s

def pmmInit (mmap : List BootMmapEntry) : Buddy :=
  (usable mmap).foldl (initEntry (fstatePhys mmap) (fstateBytes mmap))
    { memStart := 0
      memEnd := maxPhys mmap
      totalPages := maxPhys mmap >>> pageShift
      usablePages := ((usable mmap).map fun e => e.length / pageSize).sum
      freePages := 0
      orders := fun _ => ⟨[], 0⟩
      fstate := (fstatePhys mmap).map fun _ _ => 0
      blockOrder := fun _ => 0 }

end Cervus.Pmm
