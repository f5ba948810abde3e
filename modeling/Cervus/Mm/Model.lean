import Cervus.Lib.DList
import Cervus.Lib.Search

/-! The address spaces of `kernel/src/memory/mm.c`: the list of mappings with its
index and cache, and the operations on it. `P` is the state of the page tables and
frames, which the operations reach through `PageOps`. Addresses are 64-bit words. -/

namespace Cervus.Mm

open Cervus.Lib

def pg : Nat := 4096
def userTop : Nat := 0x0000800000000000
def mmapTopInit : Nat := 0x0000700000000000
def gapFloor : Nat := 0x10000000
def initialCap : Nat := 64

def eperm : Int := -1
def enomem : Int := -12
def eacces : Int := -13
def efault : Int := -14
def einval : Int := -22

def vmRead : BitVec 32 := 0x0001
def vmWrite : BitVec 32 := 0x0002
def vmExec : BitVec 32 := 0x0004
def vmShared : BitVec 32 := 0x0008
def vmGrowsdown : BitVec 32 := 0x0010
def vmPfnmap : BitVec 32 := 0x0020
def vmFile : BitVec 32 := 0x0040
def vmHeap : BitVec 32 := 0x0100
def vmDontcopy : BitVec 32 := 0x0200
def vmLocked : BitVec 32 := 0x0400
def vmProtMask : BitVec 32 := vmRead ||| vmWrite ||| vmExec

def add64 (a b : Nat) : Nat := (a + b) % 2 ^ 64
def pdown (a : Nat) : Nat := a / pg * pg
def pup (a : Nat) : Nat := pdown (add64 a (pg - 1))

/-- A `vm_area_t` without its list links; `stop` is its `end`. Pointers to other
objects are numbers, `0` for none. -/
structure Area where
  start : Nat
  stop : Nat
  flags : BitVec 32
  pteExtra : Nat
  vnode : Nat
  offset : Nat
  pfn : Nat
  openHook : Nat
  closeHook : Nat
  priv : Nat
  privId : Nat
  deriving DecidableEq

def Area.has (v : Area) (f : BitVec 32) : Bool := v.flags &&& f != 0

/-- The part of an `mm_t` that describes the mappings. `area` and `links` are the
memory of the `vm_area_t` objects, `owned` those allocated, `vidx` the first `vn`
entries of the index. -/
structure MmT where
  area : Nat → Area
  links : Links
  vmas : Nat
  vidx : List Nat
  vcap : Nat
  vbad : Bool
  vcache : Nat
  brkStart : Nat
  brk : Nat
  mmapTop : Nat
  owned : List Nat

/-- How the kernel allocator behaves during one call: `pick` answers `kzalloc` of a
mapping given those allocated, `grow` the `krealloc` of the index. -/
structure Allocator where
  pick : List Nat → Option Nat
  grow : Nat → Bool
  fresh : ∀ owned p, pick owned = some p → p ≠ 0 ∧ p ∉ owned

structure PageOps (P : Type) where
  zap : Area → Nat → Nat → P → P
  protect : Area → P → P
  prepare : Nat → Nat → P → Option P
  move : Nat → Nat → Nat → P → P
  settled : Nat → Bool → P → Bool
  fault : Area → Nat → Bool → P → P × Int
  fork : Area → P → P × Bool

structure St (P : Type) where
  mm : MmT
  pages : P

def MmT.setArea (mm : MmT) (v : Nat) (a : Area) : MmT :=
  { mm with area := Function.update mm.area v a }

def vidxUpper (mm : MmT) (addr : Nat) : Nat :=
  searchUpper (fun i => decide ((mm.area (mm.vidx.getD i 0)).start ≤ addr)) mm.vidx.length 0
    mm.vidx.length

def walkWhile (mm : MmT) (skip : Nat → Bool) : Nat → Nat → Nat → Option (Nat × Nat)
  | 0, _, _ => none
  | fuel + 1, prev, v =>
    if v ≠ 0 ∧ skip v then walkWhile mm skip fuel v (mm.links.next v) else some (prev, v)

def MmT.walk (mm : MmT) (skip : Nat → Bool) (v : Nat) : Option (Nat × Nat) :=
  walkWhile mm skip (mm.owned.length + 1) 0 v

def vmaFirstEndingAfter (mm : MmT) (addr : Nat) : Option Nat :=
  if mm.vbad then
    (mm.walk (fun v => decide ((mm.area v).stop ≤ addr)) mm.vmas).map Prod.snd
  else
    let i := vidxUpper mm addr
    if i > 0 ∧ (mm.area (mm.vidx.getD (i - 1) 0)).stop > addr then some (mm.vidx.getD (i - 1) 0)
    else some (mm.vidx.getD i 0)

def mmFindVma (mm : MmT) (addr : Nat) : Option (MmT × Nat) :=
  let c := mm.vcache
  if c ≠ 0 ∧ (mm.area c).start ≤ addr ∧ addr < (mm.area c).stop then some (mm, c)
  else do
    let v ← vmaFirstEndingAfter mm addr
    if v = 0 ∨ addr < (mm.area v).start then some (mm, 0)
    else some ({ mm with vcache := v }, v)

def linkPosition (mm : MmT) (start : Nat) : Option (Nat × Nat × Nat) :=
  if mm.vbad then
    (mm.walk (fun v => decide ((mm.area v).start < start)) mm.vmas).map fun w => (0, w.1, w.2)
  else
    let i := vidxUpper mm start
    let prev := if i ≠ 0 then mm.vidx.getD (i - 1) 0 else 0
    some (i, prev, if prev ≠ 0 then mm.links.next prev else mm.vmas)

def vmaLink (A : Allocator) (mm : MmT) (n : Nat) : Option MmT := do
  let (i, prev, cur) ← linkPosition mm (mm.area n).start
  let mm' := { mm with
    links := mm.links.insert prev n cur
    vmas := if prev ≠ 0 then mm.vmas else n }
  if mm.vbad then some mm'
  else if mm.vidx.length = mm.vcap then
    let ncap := if mm.vcap ≠ 0 then mm.vcap * 2 else initialCap
    if A.grow ncap then some { mm' with vcap := ncap, vidx := mm.vidx.insertIdx i n }
    else some { mm' with vbad := true }
  else some { mm' with vidx := mm.vidx.insertIdx i n }

def vmaUnlink (mm : MmT) (v : Nat) : MmT :=
  let mm' := { mm with
    vmas := mm.links.headAfter mm.vmas v
    links := mm.links.unlink v
    vcache := if mm.vcache = v then 0 else mm.vcache }
  if mm.vbad then mm'
  else
    let i := vidxUpper mm (mm.area v).start
    if i ≥ 1 ∧ mm.vidx.getD (i - 1) 0 = v then { mm' with vidx := mm.vidx.eraseIdx (i - 1) }
    else mm'

def MmT.addObject (mm : MmT) (n : Nat) (a : Area) : MmT :=
  { mm.setArea n a with owned := n :: mm.owned }

def vmaNew (A : Allocator) (mm : MmT) (a : Area) : MmT × Nat :=
  match A.pick mm.owned with
  | none => (mm, 0)
  | some n => (mm.addObject n a, n)

def vmaRelease (mm : MmT) (v : Nat) : MmT := { mm with owned := mm.owned.erase v }

def Area.above (v : Area) (at' : Nat) : Area :=
  { v with
    start := at'
    offset := if v.has (vmFile ||| vmPfnmap) then add64 v.offset (at' - v.start) else v.offset }

def Area.below (v : Area) (at' : Nat) : Area := { v with stop := at' }

def vmaSplit (A : Allocator) (mm : MmT) (v at' : Nat) : Option (MmT × Nat) :=
  let (mm₁, n) := vmaNew A mm ((mm.area v).above at')
  if n = 0 then some (mm₁, 0)
  else do
    let mm₂ ← vmaLink A (mm₁.setArea v ((mm₁.area v).below at')) n
    some (mm₂, n)

def vmaMergeable (a b : Area) : Bool :=
  if a.stop ≠ b.start ∨ a.flags ≠ b.flags ∨ a.pteExtra ≠ b.pteExtra then false
  else if a.vnode ≠ b.vnode ∨ a.priv ≠ b.priv ∨ a.privId ≠ b.privId then false
  else if a.pfn ≠ 0 ∨ b.pfn ≠ 0 ∨ a.openHook ≠ 0 ∨ b.openHook ≠ 0 ∨ a.closeHook ≠ 0 ∨
      b.closeHook ≠ 0 then false
  else decide (a.vnode = 0) || decide (add64 a.offset (a.stop - a.start) = b.offset)

def mergeLoop (stop : Nat) : Nat → MmT → Nat → Option MmT
  | 0, _, _ => none
  | fuel + 1, mm, v =>
    if v ≠ 0 ∧ (mm.area v).start ≤ stop then
      let n := mm.links.next v
      if n ≠ 0 ∧ vmaMergeable (mm.area v) (mm.area n) then
        let mm₁ := mm.setArea v { mm.area v with stop := (mm.area n).stop }
        mergeLoop stop fuel (vmaRelease (vmaUnlink mm₁ n) n) v
      else mergeLoop stop fuel mm n
    else some mm

def vmaMergeRange (mm : MmT) (start stop : Nat) : Option MmT := do
  let v ← vmaFirstEndingAfter mm (start - 1)
  mergeLoop stop (mm.owned.length + 1) mm v

def rangeFree (mm : MmT) (start stop : Nat) : Option Bool := do
  let v ← vmaFirstEndingAfter mm start
  some (decide (v = 0 ∨ (mm.area v).start ≥ stop))

def tailLoop (mm : MmT) : Nat → Nat → Option Nat
  | 0, _ => none
  | fuel + 1, v =>
    if v ≠ 0 ∧ mm.links.next v ≠ 0 then tailLoop mm fuel (mm.links.next v) else some v

def gapLoop (mm : MmT) (floor len : Nat) : Nat → Nat → Nat → Option Nat
  | 0, _, _ => none
  | fuel + 1, v, curEnd =>
    if v = 0 then some (if curEnd > floor ∧ curEnd - floor ≥ len then curEnd - len else 0)
    else
      let a := mm.area v
      if a.start ≥ curEnd then gapLoop mm floor len fuel (mm.links.prev v) curEnd
      else
        let lo := if a.stop > floor then a.stop else floor
        if a.stop ≤ curEnd ∧ curEnd > lo ∧ curEnd - lo ≥ len then some (curEnd - len)
        else if a.start ≤ floor then some 0
        else gapLoop mm floor len fuel (mm.links.prev v) a.start

def findGap (mm : MmT) (len : Nat) : Option Nat := do
  let floor := if mm.brk ≠ 0 then add64 (pup mm.brk) gapFloor else gapFloor
  let tail ← tailLoop mm (mm.owned.length + 1) mm.vmas
  gapLoop mm floor len (mm.owned.length + 1) tail mm.mmapTop

section

variable {P : Type} (A : Allocator) (W : PageOps P)

def unmapLoop (start stop : Nat) : Nat → St P → Nat → Option (St P × Int)
  | 0, _, _ => none
  | fuel + 1, s, v =>
    let a := s.mm.area v
    if v = 0 ∨ stop ≤ a.start then some (s, 0)
    else if a.start < start then do
      let (mm, n) ← vmaSplit A s.mm v start
      if n = 0 then some ({ s with mm := mm }, enomem)
      else unmapLoop start stop fuel { s with mm := mm } n
    else do
      let (mm, n) ← if a.stop > stop then vmaSplit A s.mm v stop else some (s.mm, v)
      if n = 0 then some ({ s with mm := mm }, enomem)
      else
        let next := mm.links.next v
        let pages := W.zap (mm.area v) (mm.area v).start (mm.area v).stop s.pages
        unmapLoop start stop fuel ⟨vmaRelease (vmaUnlink mm v) v, pages⟩ next

def unmapLocked (s : St P) (start stop : Nat) : Option (St P × Int) := do
  let v ← vmaFirstEndingAfter s.mm start
  unmapLoop A W start stop (s.mm.owned.length + 3) s v

def mapPlace (s : St P) (addr len : Nat) (fixed : Bool) : Option (St P × Except Int Nat) :=
  let at' := pdown addr
  if fixed then
    if add64 at' len > userTop ∨ add64 at' len < at' then some (s, .error enomem)
    else if at' < 0x1000 then some (s, .error eperm)
    else do
      let (s, r) ← unmapLocked A W s at' (add64 at' len)
      some (s, if r < 0 then .error r else .ok at')
  else do
    let free ← rangeFree s.mm at' (add64 at' len)
    if at' = 0 ∨ add64 at' len > userTop ∨ at' < 0x10000 ∨ free = false then
      let gap ← findGap s.mm len
      some (s, if gap = 0 then .error enomem else .ok gap)
    else some (s, .ok at')

def mapTemplate (s : St P) (addr len : Nat) (fixed : Bool) (tpl : Area) : Option (St P × Int) :=
  if len = 0 then some (s, einval)
  else
    let len := pup len
    if fixed ∧ addr % pg ≠ 0 then some (s, einval)
    else
      let (mm, v) := vmaNew A s.mm tpl
      if v = 0 then some ({ s with mm := mm }, enomem)
      else do
        let (s, place) ← mapPlace A W { s with mm := mm } addr len fixed
        match place with
        | .error r => some ({ s with mm := vmaRelease s.mm v }, r)
        | .ok at' =>
          let mm := s.mm.setArea v { tpl with start := at', stop := add64 at' len }
          let mm ← vmaLink A mm v
          let mm ← vmaMergeRange mm at' (add64 at' len)
          some ({ s with mm := mm }, at')

def blankArea : Area := ⟨0, 0, 0, 0, 0, 0, 0, 0, 0, 0, 0⟩

def mmMapAnon (s : St P) (addr len : Nat) (flags : BitVec 32) (fixed : Bool) :
    Option (St P × Int) :=
  mapTemplate A W s addr len fixed { blankArea with flags := flags &&& ~~~(vmFile ||| vmPfnmap) }

def mmMapFile (s : St P) (addr len : Nat) (flags : BitVec 32) (fixed : Bool) (vnode offset : Nat) :
    Option (St P × Int) :=
  if vnode = 0 ∨ offset % pg ≠ 0 then some (s, einval)
  else mapTemplate A W s addr len fixed { blankArea with
    flags := (flags &&& ~~~vmPfnmap) ||| vmFile
    vnode := vnode
    offset := offset }

/-- `dev` gives the hooks, private fields, vnode and offset of the mapping. -/
def mmMapPfn (s : St P) (addr len : Nat) (flags : BitVec 32) (fixed : Bool) (dev : Area) :
    Option (St P × Int) :=
  mapTemplate A W s addr len fixed { dev with flags := (flags &&& ~~~vmFile) ||| vmPfnmap }

def mmUnmap (s : St P) (addr len : Nat) : Option (St P × Int) :=
  let stop := add64 addr (pup len)
  if addr % pg ≠ 0 ∨ len = 0 then some (s, einval)
  else if stop < addr ∨ stop > userTop then some (s, einval)
  else unmapLocked A W s addr stop

def coveredLoop (stop : Nat) : Nat → MmT → Nat → Option (MmT × Bool)
  | 0, _, _ => none
  | fuel + 1, mm, cur =>
    if cur < stop then do
      let (mm, v) ← mmFindVma mm cur
      if v = 0 then some (mm, false) else coveredLoop stop fuel mm (mm.area v).stop
    else some (mm, true)

/-- The second loop: the mappings in `[start, stop)`, cut at its ends, are changed one
by one by `f`, which may stop with an error. -/
def changeLoop (f : St P → Nat → Option (St P × Int)) (start stop : Nat) :
    Nat → St P → Nat → Option (St P × Int)
  | 0, _, _ => none
  | fuel + 1, s, v =>
    let a := s.mm.area v
    if v = 0 ∨ stop ≤ a.start then some (s, 0)
    else if a.start < start then do
      let (mm, n) ← vmaSplit A s.mm v start
      if n = 0 then some ({ s with mm := mm }, 0)
      else changeLoop f start stop fuel { s with mm := mm } n
    else do
      let (mm, n) ← if a.stop > stop then vmaSplit A s.mm v stop else some (s.mm, v)
      if n = 0 then some ({ s with mm := mm }, 0)
      else
        let (s, r) ← f { s with mm := mm } v
        if r < 0 then some (s, r) else changeLoop f start stop fuel s (s.mm.links.next v)

def changeRange (f : St P → Nat → Option (St P × Int)) (s : St P) (start stop : Nat) :
    Option (St P × Int) := do
  let (mm, covered) ← coveredLoop stop (s.mm.owned.length + 1) s.mm start
  if covered = false then some ({ s with mm := mm }, enomem)
  else
    let v ← vmaFirstEndingAfter mm start
    let (s, r) ← changeLoop A f start stop (mm.owned.length + 3) { s with mm := mm } v
    if r < 0 then some (s, r)
    else
      let mm ← vmaMergeRange s.mm start stop
      some ({ s with mm := mm }, 0)

/-- `readonly vnode` says that the file of a mapping has no `write` operation. -/
def protectArea (readonly : Nat → Bool) (prot : BitVec 32) (s : St P) (v : Nat) :
    Option (St P × Int) :=
  let a := s.mm.area v
  if prot &&& vmWrite ≠ 0 ∧ a.has vmShared ∧ a.has vmFile ∧ a.vnode ≠ 0 ∧ readonly a.vnode then
    some (s, eacces)
  else
    let a := { a with flags := (a.flags &&& ~~~vmProtMask) ||| (prot &&& vmProtMask) }
    some (⟨s.mm.setArea v a, W.protect a s.pages⟩, 0)

def mmProtect (readonly : Nat → Bool) (s : St P) (addr len : Nat) (prot : BitVec 32) :
    Option (St P × Int) :=
  let stop := add64 addr (pup len)
  if addr % pg ≠ 0 then some (s, einval)
  else if len = 0 then some (s, 0)
  else if stop < addr ∨ stop > userTop then some (s, einval)
  else changeRange A (protectArea W readonly prot) s addr stop

structure How where
  write : Bool
  exec : Bool

def faultLocked (s : St P) (addr : Nat) (how : How) : Option (St P × Int) := do
  let (mm, v) ← mmFindVma s.mm addr
  let a := mm.area v
  if v = 0 then some ({ s with mm := mm }, efault)
  else if how.write ∧ !a.has vmWrite then some ({ s with mm := mm }, efault)
  else if how.exec ∧ !a.has vmExec then some ({ s with mm := mm }, efault)
  else if !a.has vmProtMask then some ({ s with mm := mm }, efault)
  else
    let (pages, r) := W.fault a (pdown addr) how.write s.pages
    some (⟨mm, pages⟩, r)

def mmFault (s : St P) (addr : Nat) (how : How) : Option (St P × Int) :=
  if addr ≥ userTop then some (s, efault) else faultLocked W s addr how

def populateLoop (write : Bool) : Nat → St P → Nat → Option (St P)
  | 0, s, _ => some s
  | n + 1, s, p =>
    if W.settled p write s.pages then populateLoop write n s (p + pg)
    else do
      let (s, r) ← faultLocked W s p ⟨write, false⟩
      if r < 0 then some s else populateLoop write n s (p + pg)

def populateLockedVma (s : St P) (v : Nat) : Option (St P) :=
  let a := s.mm.area v
  if a.has vmPfnmap then some s
  else populateLoop W (a.has vmWrite && !a.has vmShared) ((a.stop - a.start) / pg) s a.start

def lockArea (lock : Bool) (s : St P) (v : Nat) : Option (St P × Int) :=
  let a := s.mm.area v
  if lock then do
    let s := { s with mm := s.mm.setArea v { a with flags := a.flags ||| vmLocked } }
    let s ← populateLockedVma W s v
    some (s, 0)
  else some ({ s with mm := s.mm.setArea v { a with flags := a.flags &&& ~~~vmLocked } }, 0)

def mmMlock (s : St P) (addr len : Nat) (lock : Bool) : Option (St P × Int) :=
  let start := pdown addr
  let stop := add64 addr len
  if stop < addr ∨ stop > userTop then some (s, enomem)
  else
    let stop := pup stop
    if start = stop then some (s, 0) else changeRange A (lockArea W lock) s start stop

def remapMaymove : BitVec 32 := 1
def remapFixed : BitVec 32 := 2
def remapDontunmap : BitVec 32 := 4

def remapPlace (s : St P) (v old newLen : Nat) (fixed : Bool) (newAddr : Nat) :
    Option (St P × Except Int (Nat × Nat)) :=
  if fixed then do
    let (s, r) ← unmapLocked A W s newAddr (add64 newAddr newLen)
    if r < 0 then some (s, .error r)
    else
      let (mm, v) ← mmFindVma s.mm old
      some ({ s with mm := mm }, .ok (newAddr, v))
  else do
    let gap ← findGap s.mm newLen
    some (s, if gap = 0 then .error enomem else .ok (gap, v))

def splitIf (cut : Bool) (mm : MmT) (v at' : Nat) : Option (MmT × Nat) :=
  if cut then vmaSplit A mm v at' else some (mm, v)

/-- Cuts `v` so that it is `[old, stop)`; `0` when there is no memory. -/
def cutOut (mm : MmT) (v old stop : Nat) : Option (MmT × Nat) := do
  let (mm, v) ← splitIf A (decide ((mm.area v).start < old)) mm v old
  if v = 0 then some (mm, 0)
  else
    let (mm, n) ← splitIf A (decide ((mm.area v).stop > stop)) mm v stop
    some (mm, if n = 0 then 0 else v)

def populateIfLocked (s : St P) (v : Nat) : Option (St P) :=
  if (s.mm.area v).has vmLocked then populateLockedVma W s v else some s

def remapCommit (s : St P) (v n old dest oldLen : Nat) (keep : Bool) : Option (St P × Int) := do
  let pages := W.move old dest oldLen s.pages
  let mm ← vmaLink A (if keep then s.mm else vmaRelease (vmaUnlink s.mm v) v) n
  let s ← populateIfLocked W ⟨mm, pages⟩ n
  some (s, dest)

def remapMove (s : St P) (v old oldLen newLen : Nat) (fixed keep : Bool) (newAddr : Nat) :
    Option (St P × Int) := do
  let (s, place) ← remapPlace A W s v old newLen fixed newAddr
  match place with
  | .error r => some (s, r)
  | .ok (dest, v) =>
    let (mm, v) ← cutOut A s.mm v old (add64 old oldLen)
    if v = 0 then some ({ s with mm := mm }, enomem)
    else match W.prepare dest (add64 dest oldLen) s.pages with
      | none => some ({ s with mm := mm }, enomem)
      | some pages =>
        let (mm, n) := vmaNew A mm { mm.area v with start := dest, stop := add64 dest newLen }
        if n = 0 then some (⟨mm, pages⟩, enomem)
        else remapCommit A W ⟨mm, pages⟩ v n old dest oldLen keep

/-- The part of `mm_remap` that resizes in place; `none` inside when it must move. -/
def remapInPlace (s : St P) (v old oldLen newLen : Nat) : Option (St P × Option Int) :=
  let a := s.mm.area v
  let stop := add64 old oldLen
  if newLen = oldLen then some (s, some old)
  else if newLen < oldLen then do
    let (s, r) ← unmapLocked A W s (add64 old newLen) stop
    some (s, some (if r = 0 then old else r))
  else do
    let free ← rangeFree s.mm stop (add64 old newLen)
    if stop = a.stop ∧ !a.has vmGrowsdown ∧ add64 old newLen ≤ userTop ∧ free then
      let s ← populateIfLocked W
        { s with mm := s.mm.setArea v { a with stop := add64 old newLen } } v
      some (s, some old)
    else some (s, none)

def remapLocked (s : St P) (old oldLen newLen : Nat) (maymove fixed keep : Bool) (newAddr : Nat) :
    Option (St P × Int) := do
  let (mm, v) ← mmFindVma s.mm old
  let s := { s with mm := mm }
  if v = 0 ∨ add64 old oldLen > (mm.area v).stop then some (s, efault)
  else if fixed ∨ keep then remapMove A W s v old oldLen newLen fixed keep newAddr
  else
    let (s, r) ← remapInPlace A W s v old oldLen newLen
    match r with
    | some r => some (s, r)
    | none =>
      if maymove then remapMove A W s v old oldLen newLen fixed keep newAddr
      else some (s, enomem)

def mmRemap (s : St P) (old oldLen newLen : Nat) (flags : BitVec 32) (newAddr : Nat) :
    Option (St P × Int) :=
  let maymove := flags &&& remapMaymove != 0
  let fixed := flags &&& remapFixed != 0
  let keep := flags &&& remapDontunmap != 0
  if old % pg ≠ 0 ∨ newLen = 0 ∨ oldLen = 0 then some (s, einval)
  else if flags &&& ~~~(remapMaymove ||| remapFixed ||| remapDontunmap) ≠ 0 then some (s, einval)
  else if (fixed ∨ keep) ∧ !maymove then some (s, einval)
  else
    let oldLen := pup oldLen
    let newLen := pup newLen
    if keep ∧ oldLen ≠ newLen then some (s, einval)
    else if add64 old oldLen < old ∨ add64 old oldLen > userTop then some (s, einval)
    else if fixed ∧ (newAddr % pg ≠ 0 ∨ newAddr < 0x1000 ∨ add64 newAddr newLen < newAddr ∨
        add64 newAddr newLen > userTop) then some (s, einval)
    else if fixed ∧ newAddr < add64 old oldLen ∧ old < add64 newAddr newLen then some (s, einval)
    else remapLocked A W s old oldLen newLen maymove fixed keep newAddr

def discardLoop (addr stop : Nat) : Nat → St P → Nat → Option (St P)
  | 0, _, _ => none
  | fuel + 1, s, v =>
    let a := s.mm.area v
    if v = 0 ∨ stop ≤ a.start then some s
    else if a.stop ≤ addr ∨ a.has (vmShared ||| vmPfnmap) then
      discardLoop addr stop fuel s (s.mm.links.next v)
    else
      let lo := if a.start > addr then a.start else addr
      let hi := if a.stop < stop then a.stop else stop
      discardLoop addr stop fuel { s with pages := W.zap a lo hi s.pages } (s.mm.links.next v)

def mmDiscard (s : St P) (addr len : Nat) : Option (St P × Int) :=
  if addr % pg ≠ 0 then some (s, einval)
  else do
    let v ← vmaFirstEndingAfter s.mm addr
    let s ← discardLoop W addr (add64 addr (pup len)) (s.mm.owned.length + 1) s v
    some (s, 0)

def mmInitHeap (s : St P) (start : Nat) : St P :=
  { s with mm := { s.mm with brkStart := pup start, brk := pup start } }

def growHeap (mm : MmT) (oldEnd newEnd : Nat) : Option (MmT × Bool) := do
  let heap ← mm.walk (fun v => !((mm.area v).has vmHeap && decide ((mm.area v).stop = oldEnd)))
    mm.vmas
  if heap.2 ≠ 0 then some (mm.setArea heap.2 { mm.area heap.2 with stop := newEnd }, true)
  else
    let (mm, v) := vmaNew A mm { blankArea with
      start := oldEnd
      stop := newEnd
      flags := vmRead ||| vmWrite ||| vmHeap }
    if v = 0 then some (mm, false)
    else
      let mm ← vmaLink A mm v
      some (mm, true)

def mmSetBrk (s : St P) (newBrk : Nat) : Option (St P × Nat) :=
  let cur := s.mm.brk
  if newBrk = 0 ∨ newBrk < s.mm.brkStart then some (s, cur)
  else
    let oldEnd := pup cur
    let newEnd := pup newBrk
    if newEnd > oldEnd then do
      let free ← rangeFree s.mm oldEnd newEnd
      if newEnd > s.mm.mmapTop ∨ free = false then some (s, cur)
      else
        let (mm, ok) ← growHeap A s.mm oldEnd newEnd
        if ok then some ({ s with mm := { mm with brk := newBrk } }, newBrk)
        else some ({ s with mm := mm }, cur)
    else do
      let (s, _) ← if newEnd < oldEnd then unmapLocked A W s newEnd oldEnd else some (s, 0)
      some ({ s with mm := { s.mm with brk := newBrk } }, newBrk)

def mmCreate : MmT where
  area := fun _ => blankArea
  links := ⟨fun _ => 0, fun _ => 0⟩
  vmas := 0
  vidx := []
  vcap := 0
  vbad := false
  vcache := 0
  brkStart := 0
  brk := 0
  mmapTop := mmapTopInit
  owned := []

def putLoop (mm : MmT) : Nat → P → Nat → Option P
  | 0, _, _ => none
  | fuel + 1, pages, v =>
    if v = 0 then some pages
    else
      let a := mm.area v
      putLoop mm fuel (W.zap a a.start a.stop pages) (mm.links.next v)

def mmPut (mm : MmT) (pages : P) : Option P :=
  putLoop W mm (mm.owned.length + 1) pages mm.vmas

def forkLoop (parent : MmT) : Nat → MmT → P → Nat → Option (MmT × P × Bool)
  | 0, _, _, _ => none
  | fuel + 1, child, pages, v =>
    if v = 0 then some (child, pages, true)
    else if (parent.area v).has vmDontcopy then forkLoop parent fuel child pages
      (parent.links.next v)
    else
      let (child, n) := vmaNew A child (parent.area v)
      if n = 0 then some (child, pages, false)
      else do
        let child ← vmaLink A child n
        let (pages, ok) := W.fork (parent.area v) pages
        if ok then forkLoop parent fuel child pages (parent.links.next v)
        else some (child, pages, false)

/-- `W'` are the page operations of the child. -/
def mmFork (W' : PageOps P) (parent : St P) : Option (Option MmT × P) := do
  let child := { mmCreate with
    brkStart := parent.mm.brkStart
    brk := parent.mm.brk
    mmapTop := parent.mm.mmapTop }
  let (child, pages, ok) ←
    forkLoop A W parent.mm (parent.mm.owned.length + 1) child parent.pages parent.mm.vmas
  if ok then some (some child, pages)
  else
    let pages ← mmPut W' child pages
    some (none, pages)

end

end Cervus.Mm
