import Cervus.Lib.DList
import Cervus.Mm.PageCache

/-! The page cache call by call: its hash chains, its LRU list and its counter, and the
references it takes on frames. -/

namespace Cervus.Pc

open Function (update)
open Lib (Links chainFind chainDetach)
open PageCache (Byte pageSize dropBatch)

abbrev U64 := BitVec 64

def pcBuckets : Nat := 4096
def pmmFreeMinPhys : Nat := 0x100000

def eio : Int := 5
def enoent : Int := 2
def enomem : Int := 12

structure Entry where
  fs : U64
  id : U64
  index : U64
  phys : Nat

def Entry.is (fs id index : U64) (e : Entry) : Bool := e.fs == fs && e.id == id && e.index == index

def Entry.isFrom (fs id fromIndex : U64) (e : Entry) : Bool :=
  e.fs == fs && e.id == id && decide (fromIndex ≤ e.index)

/-- A node, what its `cache_id` answers if it has one that succeeds, and whether it can be read. -/
structure Vnode where
  addr : U64
  cacheId : Option (U64 × U64)
  readable : Bool

def keyOf (vn : Vnode) : U64 × U64 × Bool :=
  match vn.cacheId with
  | some (fs, id) => (fs, id, true)
  | none => (vn.addr, 0, false)

def bucket (fs id index : U64) : Nat :=
  let h := fs * 0x9E3779B97F4A7C15#64
  let h := h ^^^ (id * 0xC2B2AE3D27D4EB4F#64)
  let h := h ^^^ (index * 0x165667B19E3779F9#64)
  let h := h ^^^ (h >>> 29)
  h.toNat % pcBuckets

def Entry.bucket (e : Entry) : Nat := Pc.bucket e.fs e.id e.index

/-- What `g_lock` protects, and `heap` for the entries that `kzalloc` gave and `kfree` did
not take back. -/
structure Table where
  hash : Nat → Nat
  hnext : Nat → Nat
  lru : Links
  lruHead : Nat
  lruTail : Nat
  count : Nat
  entry : Nat → Entry
  heap : Nat → Bool

namespace Table

def findLocked (t : Table) (fs id index : U64) : Nat :=
  chainFind t.hnext (fun e => (t.entry e).is fs id index) t.count (t.hash (bucket fs id index))

def lruUnlink (t : Table) (e : Nat) : Table :=
  { t with
    lruHead := t.lru.headAfter t.lruHead e
    lruTail := if t.lru.next e ≠ 0 then t.lruTail else t.lru.prev e
    lru := t.lru.unlink e }

def lruPushFront (t : Table) (e : Nat) : Table :=
  { t with
    lru := t.lru.push t.lruHead e
    lruTail := if t.lruHead ≠ 0 then t.lruTail else e
    lruHead := e }

def hashRemove (t : Table) (e : Nat) : Table :=
  let b := (t.entry e).bucket
  let r := chainDetach t.hnext t.count (t.hash b) e
  let t := { t with hnext := r.2, hash := update t.hash b r.1 }.lruUnlink e
  { t with count := (t.count + (2 ^ 64 - 1)) % 2 ^ 64 }

def kfree (t : Table) (e : Nat) : Table := { t with heap := update t.heap e false }

def discard (t : Table) (e : Nat) : Table := (t.hashRemove e).kfree e

def kzalloc (t : Table) (ne : Nat) (x : Entry) : Table :=
  { t with heap := update t.heap ne true, entry := update t.entry ne x }

def enter (t : Table) (ne : Nat) : Table :=
  let b := (t.entry ne).bucket
  let t :=
    { t with hnext := update t.hnext ne (t.hash b), hash := update t.hash b ne }.lruPushFront ne
  { t with count := (t.count + 1) % 2 ^ 64 }

def dropChain (p : Entry → Bool) : Nat → Nat → Table → List Nat → Table × List Nat
  | 0, _, t, freed => (t, freed)
  | fuel + 1, e, t, freed =>
    if e ≠ 0 ∧ freed.length < dropBatch then
      if p (t.entry e) then dropChain p fuel (t.hnext e) (t.discard e) (freed ++ [(t.entry e).phys])
      else dropChain p fuel (t.hnext e) t freed
    else (t, freed)

def dropBuckets (p : Entry → Bool) : List Nat → Table → List Nat → Table × List Nat
  | [], t, freed => (t, freed)
  | b :: bs, t, freed =>
    if freed.length < dropBatch then
      let r := dropChain p t.count (t.hash b) t freed
      dropBuckets p bs r.1 r.2
    else (t, freed)

end Table

/-- The frames by physical address: the counters of the first `gFrames` of them, which of them
are free, their bytes, and the references that callers hold. -/
structure Frames where
  gFrames : Nat
  refs : Nat → Nat
  free : Nat → Bool
  mem : Nat → Nat → Byte
  held : Nat → Nat

namespace Frames

/-- `slot` finds a counter. `pageref_init` leaves none when the table of counters is not
allocated. -/
abbrev slot (F : Frames) (f : Nat) : Prop := f / pageSize < F.gFrames

def pageRef (F : Frames) (f : Nat) : Frames :=
  if F.slot f then { F with refs := update F.refs f ((F.refs f + 1) % 2 ^ 32) } else F

def pageUnref (F : Frames) (f : Nat) : Frames :=
  if F.slot f then
    if F.refs f = 1 then
      { F with
        refs := update F.refs f 0
        free := if pmmFreeMinPhys ≤ f then update F.free f true else F.free }
    else if F.refs f = 0 then F
    else { F with refs := update F.refs f (F.refs f - 1) }
  else F

def pageRefcount (F : Frames) (f : Nat) : Nat := if F.slot f then F.refs f else 0

def pmmAlloc (F : Frames) (f : Nat) : Option Frames :=
  if f = 0 then some F
  else if F.free f then some { F with free := update F.free f false }
  else none

def setMem (F : Frames) (f : Nat) (page : Nat → Byte) : Frames :=
  { F with mem := update F.mem f page }

def fresh (F : Frames) (f : Nat) : Frames :=
  { F.setMem f fun _ => 0 with refs := if F.slot f then update F.refs f 1 else F.refs }

def hand (F : Frames) (f : Nat) : Frames := { F with held := update F.held f (F.held f + 1) }

def back (F : Frames) (f : Nat) : Frames := { F with held := update F.held f (F.held f - 1) }

end Frames

structure State where
  table : Table
  frames : Frames

namespace State

def victim (s : State) : Nat :=
  chainFind s.table.lru.prev (fun e => s.frames.pageRefcount (s.table.entry e).phys == 1)
    s.table.count s.table.lruTail

def pagecacheShrink : Nat → State → State × Nat
  | 0, s => (s, 0)
  | want + 1, s =>
    let e := s.victim
    if e = 0 then (s, 0)
    else
      let phys := (s.table.entry e).phys
      let t := s.table.discard e
      if phys = 0 then (⟨t, s.frames⟩, 0)
      else
        let r := pagecacheShrink want ⟨t, s.frames.pageUnref phys⟩
        (r.1, r.2 + 1)

def pageAllocUser (s : State) (f₁ f₂ : Nat) : Option (State × Nat) := do
  let F ← s.frames.pmmAlloc f₁
  if f₁ ≠ 0 then return (⟨s.table, F.fresh f₁⟩, f₁)
  let s := (pagecacheShrink 256 s).1
  let F ← s.frames.pmmAlloc f₂
  if f₂ ≠ 0 then return (⟨s.table, F.fresh f₂⟩, f₂)
  return (s, 0)

end State

def fill : List (Except Int (List Byte)) → Nat → (Nat → Byte) → Except Int (Nat → Byte)
  | [], _, page => .ok page
  | r :: reads, got, page =>
    if got < pageSize then
      match r with
      | .error e => .error e
      | .ok bs =>
        let bs := bs.take (pageSize - got)
        if bs.isEmpty then .ok page else fill reads (got + bs.length) (Disk.write page got bs)
    else .ok page

/-- What a call of `pagecache_get` meets: the physical allocator, the reads and `kzalloc`. -/
structure Meets where
  first : Nat
  second : Nat
  reads : List (Except Int (List Byte))
  ne : Nat

namespace State

/-- `pagecache_get` from its `kzalloc` on. -/
def getEnd (s : State) (fs id index : U64) (phys ne : Nat) : Option (State × Except Int Nat) :=
  if ne = 0 then some (⟨s.table, s.frames.hand phys⟩, .ok phys)
  else if s.table.heap ne ∨ 2 ^ 64 ≤ ne then none
  else
    let t := s.table.kzalloc ne ⟨fs, id, index, phys⟩
    let e := t.findLocked fs id index
    if e ≠ 0 then
      let g := (t.entry e).phys
      some (⟨t.kfree ne, ((s.frames.pageRef g).hand g).pageUnref phys⟩, .ok g)
    else some (⟨t.enter ne, (s.frames.pageRef phys).hand phys⟩, .ok phys)

def pagecacheGet (s : State) (vn : Option Vnode) (index : U64) (o : Meets) :
    Option (State × Except Int Nat) :=
  match vn with
  | none => some (s, .error (-eio))
  | some vn =>
    if vn.readable then
      let (fs, id, _) := keyOf vn
      let e := s.table.findLocked fs id index
      if e ≠ 0 then
        let phys := (s.table.entry e).phys
        some (⟨(s.table.lruUnlink e).lruPushFront e, (s.frames.pageRef phys).hand phys⟩, .ok phys)
      else
        (s.pageAllocUser o.first o.second).bind fun (s, phys) =>
          if phys = 0 then some (s, .error (-enomem))
          else
            match fill o.reads 0 (s.frames.mem phys) with
            | .error r => some (⟨s.table, s.frames.pageUnref phys⟩, .error r)
            | .ok page => getEnd ⟨s.table, s.frames.setMem phys page⟩ fs id index phys o.ne
    else some (s, .error (-eio))

def pagecachePeek (s : State) (vn : Option Vnode) (index : U64) : State × Except Int Nat :=
  match vn with
  | none => (s, .error (-enoent))
  | some vn =>
    let (fs, id, _) := keyOf vn
    let e := s.table.findLocked fs id index
    if e ≠ 0 then
      let phys := (s.table.entry e).phys
      (⟨s.table, (s.frames.pageRef phys).hand phys⟩, .ok phys)
    else (s, .error (-enoent))

/-- One page of `pagecache_wrote`: `size` bytes of `src` at `at'`. A copy that would leave the
page or the buffer has no result here. -/
def copyIn (s : State) (fs id : U64) (pg at' size : Nat) (src : List Byte) : Option State :=
  let e := s.table.findLocked fs id (BitVec.ofNat 64 pg)
  if e = 0 then some s
  else
    let phys := (s.table.entry e).phys
    let F := s.frames.pageRef phys
    if phys = 0 then some ⟨s.table, F⟩
    else if at' + size ≤ pageSize ∧ size ≤ src.length then
      some ⟨s.table, (F.setMem phys (Disk.write (F.mem phys) at' (src.take size))).pageUnref phys⟩
    else none

def wroteLoop (fs id : U64) (offset stop : Nat) (buf : List Byte) : Nat → Nat → State → Option State
  | 0, _, _ => none
  | fuel + 1, pg, s =>
    let pstart := pg * pageSize % 2 ^ 64
    if pstart < stop then
      let cs := if pstart < offset then offset else pstart
      let pend := (pstart + pageSize) % 2 ^ 64
      let ce := if stop < pend then stop else pend
      let size := (ce + 2 ^ 64 - cs) % 2 ^ 64
      (s.copyIn fs id pg (cs - pstart) size (buf.drop (cs - offset))).bind
        (wroteLoop fs id offset stop buf fuel ((pg + 1) % 2 ^ 64))
    else some s

def pagecacheWrote (s : State) (vn : Option Vnode) (offset : U64) (buf : List Byte) :
    Option State :=
  match vn with
  | none => some s
  | some vn =>
    if buf.isEmpty then some s
    else
      let (fs, id, _) := keyOf vn
      wroteLoop fs id offset.toNat ((offset.toNat + buf.length) % 2 ^ 64) buf
        (buf.length / pageSize + 3)
        (offset.toNat / pageSize) s

def dropLoop (p : Entry → Bool) : Nat → State → Option State
  | 0, _ => none
  | fuel + 1, s =>
    let r := Table.dropBuckets p (List.range pcBuckets) s.table []
    let s := ⟨r.1, r.2.foldl Frames.pageUnref s.frames⟩
    if r.2.length < dropBatch then some s else dropLoop p fuel s

def dropMatching (s : State) (fs id fromIndex : U64) : Option State :=
  dropLoop (Entry.isFrom fs id fromIndex) (s.table.count / dropBatch + 1) s

def zeroTail (s : State) (fs id : U64) (newSize : Nat) : State :=
  if newSize % pageSize = 0 then s
  else
    let e := s.table.findLocked fs id (BitVec.ofNat 64 (newSize / pageSize))
    if e = 0 then s
    else
      let phys := (s.table.entry e).phys
      let F := s.frames.pageRef phys
      if phys = 0 then ⟨s.table, F⟩
      else
        let zeros := List.replicate (pageSize - newSize % pageSize) 0
        ⟨s.table, (F.setMem phys (Disk.write (F.mem phys) (newSize % pageSize) zeros)).pageUnref
          phys⟩

def pagecacheTruncated (s : State) (vn : Option Vnode) (newSize : U64) : Option State :=
  match vn with
  | none => some s
  | some vn =>
    let (fs, id, _) := keyOf vn
    let keep := BitVec.ofNat 64 ((newSize.toNat + pageSize - 1) % 2 ^ 64 / pageSize)
    (s.dropMatching fs id keep).map fun s => s.zeroTail fs id newSize.toNat

def pagecacheInvalidateKey (s : State) (fs id : U64) : Option State :=
  if s.table.count = 0 then some s else s.dropMatching fs id 0

def pagecacheInvalidate (s : State) (vn : Option Vnode) : Option State :=
  match vn with
  | none => some s
  | some vn => s.dropMatching (keyOf vn).1 (keyOf vn).2.1 0

def pagecacheVnodeReleased (s : State) (vn : Option Vnode) : Option State :=
  match vn with
  | none => some s
  | some vn =>
    let (fs, id, keyed) := keyOf vn
    if keyed then some s else if s.table.count = 0 then some s else s.dropMatching fs id 0

end State

inductive Act
  | get (vn : Option Vnode) (index : U64) (o : Meets)
  | peek (vn : Option Vnode) (index : U64)
  | wrote (vn : Option Vnode) (offset : U64) (buf : List Byte)
  | truncated (vn : Option Vnode) (newSize : U64)
  | invalidateKey (fs id : U64)
  | invalidate (vn : Option Vnode)
  | vnodeReleased (vn : Option Vnode)
  | shrink (want : Nat)
  | allocate (f₁ f₂ : Nat)
  | share (f : Nat)
  | release (f : Nat)

open State in
def next (s : State) : Act → Option State
  | .get vn index o => (s.pagecacheGet vn index o).map (·.1)
  | .peek vn index => some (s.pagecachePeek vn index).1
  | .wrote vn offset buf => s.pagecacheWrote vn offset buf
  | .truncated vn newSize => s.pagecacheTruncated vn newSize
  | .invalidateKey fs id => s.pagecacheInvalidateKey fs id
  | .invalidate vn => s.pagecacheInvalidate vn
  | .vnodeReleased vn => s.pagecacheVnodeReleased vn
  | .shrink want => some (pagecacheShrink want s).1
  | .allocate f₁ f₂ => (s.pageAllocUser f₁ f₂).map fun (s, f) =>
    if f = 0 then s else ⟨s.table, s.frames.hand f⟩
  | .share f => if s.frames.held f = 0 then none else some ⟨s.table, (s.frames.pageRef f).hand f⟩
  | .release f => if s.frames.held f = 0 then none
    else some ⟨s.table, (s.frames.back f).pageUnref f⟩

def start (gFrames : Nat) (pool : Nat → Bool) : State where
  table :=
    { hash := fun _ => 0, hnext := fun _ => 0, lru := ⟨fun _ => 0, fun _ => 0⟩
      lruHead := 0, lruTail := 0, count := 0, entry := fun _ => ⟨0, 0, 0, 0⟩, heap := fun _ => false }
  frames := { gFrames, refs := fun _ => 0, free := pool, mem := fun _ _ => 0, held := fun _ => 0 }

def cache (gFrames : Nat) (pool : Nat → Bool) : System State Act where
  init := start gFrames pool
  next := next

end Cervus.Pc
