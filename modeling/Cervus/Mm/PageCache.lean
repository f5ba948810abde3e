import Cervus.Lib.Disk
import Cervus.Lib.Run

/-! The page cache of file data: pages are read without the lock and put in place under
it, and a write to the file brings the cached pages up to date afterwards. -/

namespace Cervus.PageCache

open List Disk
open Function (forall_update_iff update update_eq_self update_of_ne update_self)

abbrev Byte := BitVec 8

def pageSize : Nat := 4096
def dropBatch : Nat := 64

structure Key where
  fs : Nat
  id : Nat
  deriving DecidableEq

structure File where
  size : Nat
  data : Nat → Byte

def File.byte (f : File) (a : Nat) : Byte := if a < f.size then f.data a else 0

def File.write (f : File) (off : Nat) (buf : List Byte) : File :=
  ⟨max f.size (off + buf.length), Disk.write f.byte off buf⟩

def File.truncate (f : File) (n : Nat) : File := ⟨n, f.byte⟩

/-- What a task does: the read loop of `pagecache_get` and the frame it fills,
`pagecache_wrote` before and after its look for a page, and the three parts of
`pagecache_truncated`. -/
inductive Op
  | idle
  | fill (k : Key) (index frame got : Nat)
  | filled (k : Key) (index frame : Nat)
  | wrote (k : Key) (off : Nat) (buf : List Byte) (pg : Nat)
  | copy (k : Key) (off : Nat) (buf : List Byte) (pg frame : Nat)
  | drop (k : Key) (size : Nat)
  | tail (k : Key) (size : Nat)
  | zero (k : Key) (size frame : Nat)

structure Entry where
  key : Key
  index : Nat
  frame : Nat

/-- The files, the entries of the hash table in some order, the frames, and what each
task does. A frame with a reference is not used again, so that a new one has a new
number. -/
structure State where
  file : Key → File
  table : List Entry
  frame : Nat → Nat → Byte
  next : Nat
  op : Nat → Op

def State.setOp (s : State) (t : Nat) (o : Op) : State := { s with op := update s.op t o }

def State.setFrame (s : State) (f : Nat) (b : Nat → Byte) : State :=
  { s with frame := update s.frame f b }

def State.setFile (s : State) (k : Key) (f : File) : State := { s with file := update s.file k f }

def State.find (s : State) (k : Key) (index : Nat) : Option Entry :=
  s.table.find? fun e => e.key == k && e.index == index

def get (s : State) (t : Nat) (k : Key) (index : Nat) : State :=
  match s.find k index with
  | some _ => s
  | none =>
    { s.setFrame s.next fun _ => 0 with next := s.next + 1 }.setOp t (.fill k index s.next 0)

/-- One `ops->read`; it returns 0 at the end of the file only. -/
def read (s : State) (t r : Nat) : Option State :=
  match s.op t with
  | .fill k index f got =>
    let off := index * pageSize + got
    if r = 0 then if (s.file k).size ≤ off then some (s.setOp t (.filled k index f)) else none
    else if r ≤ pageSize - got ∧ off + r ≤ (s.file k).size then
      let s' := s.setFrame f (Disk.write (s.frame f) got (Disk.read (s.file k).byte off r))
      some (s'.setOp t (if got + r < pageSize then .fill k index f (got + r)
        else .filled k index f))
    else none
  | _ => none

def insert (s : State) (t pos : Nat) : Option State :=
  match s.op t with
  | .filled k index f =>
    match s.find k index with
    | some _ => some (s.setOp t .idle)
    | none =>
      some ({ s with table := s.table.take pos ++
        (⟨k, index, f⟩ : Entry) :: s.table.drop pos }.setOp t .idle)
  | _ => none

def look (s : State) (t : Nat) : Option State :=
  match s.op t with
  | .wrote k off buf pg =>
    if pg * pageSize < off + buf.length then
      match s.find k pg with
      | some e => some (s.setOp t (.copy k off buf pg e.frame))
      | none => some (s.setOp t (.wrote k off buf (pg + 1)))
    else some (s.setOp t .idle)
  | _ => none

def copy (s : State) (t : Nat) : Option State :=
  match s.op t with
  | .copy k off buf pg f =>
    let pstart := pg * pageSize
    let cs := max off pstart
    let ce := min (off + buf.length) (pstart + pageSize)
    let s' :=
      s.setFrame f (Disk.write (s.frame f) (cs - pstart) ((buf.drop (cs - off)).take (ce - cs)))
    some (s'.setOp t (.wrote k off buf (pg + 1)))
  | _ => none

def keepPages (size : Nat) : Nat := (size + pageSize - 1) % 2 ^ 64 / pageSize

def dropFirst (p : Entry → Bool) : Nat → List Entry → List Entry
  | 0, es => es
  | _, [] => []
  | n + 1, e :: es => if p e then dropFirst p n es else e :: dropFirst p (n + 1) es

def drop (s : State) (t : Nat) : Option State :=
  match s.op t with
  | .drop k size =>
    let left :=
      dropFirst (fun e => e.key == k && decide (keepPages size ≤ e.index)) dropBatch s.table
    let s' := { s with table := left }
    if s.table.length - left.length < dropBatch then
      some (s'.setOp t (if size % pageSize ≠ 0 then .tail k size else .idle))
    else some s'
  | _ => none

def lookTail (s : State) (t : Nat) : Option State :=
  match s.op t with
  | .tail k size =>
    match s.find k (size / pageSize) with
    | some e => some (s.setOp t (.zero k size e.frame))
    | none => some (s.setOp t .idle)
  | _ => none

def zeroTail (s : State) (t : Nat) : Option State :=
  match s.op t with
  | .zero _ size f =>
    some ((s.setFrame f fun j => if size % pageSize ≤ j then 0 else s.frame f j).setOp t .idle)
  | _ => none

inductive Action
  | get (t : Nat) (k : Key) (index : Nat)
  | read (t r : Nat)
  | giveUp (t : Nat)
  | insert (t pos : Nat)
  | write (t : Nat) (k : Key) (off : Nat) (buf : List Byte)
  | look (t : Nat)
  | copy (t : Nat)
  | truncate (t : Nat) (k : Key) (size : Nat)
  | drop (t : Nat)
  | lookTail (t : Nat)
  | zeroTail (t : Nat)
  | evict (n : Nat)

def Op.isIdle : Op → Bool
  | .idle => true
  | _ => false

def Op.fills (k : Key) : Op → Bool
  | .fill k' _ _ _ | .filled k' _ _ => k' == k
  | _ => false

def Op.changes (k : Key) : Op → Bool
  | .wrote k' _ _ _ | .copy k' _ _ _ _ | .drop k' _ | .tail k' _ | .zero k' _ _ => k' == k
  | _ => false

/-- The steps of the tasks. `giveUp` is a read that fails or no memory for the entry, and
`evict` stands for the shrinker and the invalidations. No file has bytes in the last page
of the offsets, where the sums of `pagecache_wrote` would wrap. -/
def next (s : State) : Action → Option State
  | .get t k index => if (s.op t).isIdle then some (get s t k index) else none
  | .read t r => read s t r
  | .giveUp t =>
    match s.op t with
    | .fill _ _ _ _ | .filled _ _ _ => some (s.setOp t .idle)
    | _ => none
  | .insert t pos => insert s t pos
  | .write t k off buf =>
    if (s.op t).isIdle ∧ buf ≠ [] ∧ off + buf.length ≤ 2 ^ 64 - pageSize then
      some ((s.setFile k ((s.file k).write off buf)).setOp t (.wrote k off buf (off / pageSize)))
    else none
  | .look t => look s t
  | .copy t => copy s t
  | .truncate t k size =>
    if (s.op t).isIdle then some ((s.setFile k ((s.file k).truncate size)).setOp t (.drop k size))
      else none
  | .drop t => drop s t
  | .lookTail t => lookTail s t
  | .zeroTail t => zeroTail s t
  | .evict n => some { s with table := s.table.eraseIdx n }

def cacheSystem (file : Key → File) : System State Action where
  init := ⟨file, [], fun _ _ => 0, 0, fun _ => .idle⟩
  next := next

/-- A file changes only while no get of it is between its look and its insertion and no
other change of it is being brought to the cache. -/
def ChangeOk (s : State) : Action → Prop
  | .write _ k _ _ | .truncate _ k _ => ∀ t, (s.op t).fills k = false ∧ (s.op t).changes k = false
  | _ => True

def Quiet (s : State) : Prop := ∀ t, (s.op t).isIdle = true

def Coherent (s : State) : Prop :=
  ∀ e ∈ s.table, ∀ j < pageSize, s.frame e.frame j = (s.file e.key).byte (e.index * pageSize + j)

/-- The frame that a task holds a reference to. -/
def Op.held : Op → Option Nat
  | .fill _ _ f _ | .filled _ _ f | .copy _ _ _ _ f | .zero _ _ f => some f
  | _ => none

def Op.filling : Op → Bool
  | .fill _ _ _ _ | .filled _ _ _ => true
  | _ => false

/-- The byte at `a` of the file is still to be put into the cached page. -/
def Op.Owes : Op → Entry → Nat → Prop
  | .wrote k off buf pg, e, a => e.key = k ∧ pg ≤ e.index ∧ off ≤ a ∧ a < off + buf.length
  | .copy k off buf pg f, e, a =>
    e.key = k ∧ (pg < e.index ∨ e.index = pg ∧ e.frame = f) ∧ off ≤ a ∧ a < off + buf.length
  | .drop k size, e, a => e.key = k ∧ size ≤ a
  | .tail k size, e, a => e.key = k ∧ e.index = size / pageSize ∧ size ≤ a
  | .zero k size f, e, a => e.key = k ∧ e.index = size / pageSize ∧ e.frame = f ∧ size ≤ a
  | _, _, _ => False

def Page (s : State) (k : Key) (index f : Nat) : Prop :=
  ∀ j < pageSize, s.frame f j = (s.file k).byte (index * pageSize + j)

def OnlyFor (s : State) (k : Key) (index f : Nat) : Prop :=
  ∀ e ∈ s.table, e.frame = f → e.key = k ∧ e.index = index

def Holds (s : State) (k : Key) (off : Nat) (buf : List Byte) : Prop :=
  ∀ n (h : n < buf.length), (s.file k).byte (off + n) = buf[n]

def Ends (s : State) (k : Key) (size : Nat) : Prop := ∀ a, size ≤ a → (s.file k).byte a = 0

def OpOk (s : State) : Op → Prop
  | .idle => True
  | .fill k index f got => got < pageSize ∧
      ∀ j < pageSize, s.frame f j = if j < got then (s.file k).byte (index * pageSize + j) else 0
  | .filled k index f => Page s k index f
  | .wrote k off buf _ => Holds s k off buf
  | .copy k off buf pg f => Holds s k off buf ∧ OnlyFor s k pg f
  | .drop k size | .tail k size => Ends s k size
  | .zero k size f => Ends s k size ∧ OnlyFor s k (size / pageSize) f

structure Shape (s : State) : Prop where
  fresh : ∀ e ∈ s.table, e.frame < s.next
  heldFresh : ∀ t, ∀ f ∈ (s.op t).held, f < s.next
  pages : ∀ e ∈ s.table, ∀ e' ∈ s.table, e.key = e'.key → e.index = e'.index → e = e'
  frames : ∀ e ∈ s.table, ∀ e' ∈ s.table, e.frame = e'.frame → e = e'
  own : ∀ t, (s.op t).filling = true → ∀ f ∈ (s.op t).held,
    (∀ e ∈ s.table, e.frame ≠ f) ∧ ∀ t', t' ≠ t → (s.op t').held ≠ some f
  one : ∀ k t t', (s.op t).changes k = true → (s.op t').changes k = true → t = t'

def Fits (s : State) (e : Entry) (j : Nat) : Prop :=
  s.frame e.frame j = (s.file e.key).byte (e.index * pageSize + j)

structure Inv (s : State) : Prop extends Shape s where
  bytes : ∀ e ∈ s.table, ∀ j < pageSize, Fits s e j ∨ ∃ t, (s.op t).Owes e (e.index * pageSize + j)
  ops : ∀ t, OpOk s (s.op t)

theorem Inv.coherent {s : State} (h : Inv s) (hq : Quiet s) : Coherent s := by
  intro e he j hj
  refine (h.bytes e he j hj).resolve_right ?_
  rintro ⟨t, ht⟩
  have hi := hq t
  revert ht hi
  cases s.op t <;> simp [Op.isIdle, Op.Owes]

section
variable {d : Nat → Byte} {off p j n : Nat} {buf : List Byte}

def copied (d : Nat → Byte) (off p : Nat) (buf : List Byte) : Nat → Byte :=
  Disk.write d (max off p - p)
    ((buf.drop (max off p - off)).take (min (off + buf.length) (p + pageSize) - max off p))

theorem copied_inside (hj : j < pageSize) (hn : p + j = off + n) (hl : n < buf.length) :
    copied d off p buf j = buf[n] := by
  obtain ⟨i, rfl⟩ : ∃ i, j = max off p - p + i := ⟨j - (max off p - p), by omega⟩
  rw [copied, write_inside (by rw [length_take, length_drop]; omega)]
  simp only [getElem_take, getElem_drop]
  congr 1
  omega

theorem copied_outside (h : ¬(off ≤ p + j ∧ p + j < off + buf.length)) :
    copied d off p buf j = d j := by
  refine write_outside ?_
  rw [length_take, length_drop]
  omega

end

section
variable {s : State} {t : Nat} {o : Op} {k : Key}

theorem setOp_self : (s.setOp t o).op t = o := update_self ..

variable {f index j off size u : Nat} {b : Nat → Byte} {s' : State} {es l : List Entry}
    {buf : List Byte}

theorem setOp_ne (h : u ≠ t) : (s.setOp t o).op u = s.op u := update_of_ne h ..

theorem Shape.setOp (h : Shape s)
    (hf : ∀ f ∈ o.held, f < s.next ∧ ∀ u, u ≠ t → (s.op u).filling = true → (s.op u).held ≠ some f)
    (hfill : o.filling = true → ∀ f ∈ o.held, (∀ e ∈ s.table, e.frame ≠ f) ∧ ∀ u, u ≠ t →
    (s.op u).held ≠ some f)
    (hc : ∀ k, o.changes k = true → ∀ u, (s.op u).changes k = true → u = t) :
    Shape (s.setOp t o) := by
  refine ⟨h.fresh, (forall_update_iff s.op fun _ o => ∀ f ∈ o.held, f < s.next).mpr
    ⟨fun f hu => (hf f hu).1, fun u _ => h.heldFresh u⟩, h.pages, h.frames, fun u hu f hf' => ?_,
    fun k u u' hu hu' => ?_⟩
  · by_cases hut : u = t
    · subst hut
      rw [setOp_self] at hu hf'
      obtain ⟨h3, h4⟩ := hfill hu f hf'
      refine ⟨h3, fun u' hne => ?_⟩
      rw [setOp_ne hne]
      exact h4 u' hne
    · rw [setOp_ne hut] at hu hf'
      obtain ⟨h3, h4⟩ := h.own u hu f hf'
      refine ⟨h3, fun u' hne he => ?_⟩
      by_cases hu't : u' = t
      · subst hu't
        rw [setOp_self] at he
        exact (hf f he).2 u hut hu hf'
      · rw [setOp_ne hu't] at he
        exact h4 u' hne he
  · by_cases hut : u = t
    · by_cases hu't : u' = t
      · rw [hut, hu't]
      · rw [hut, setOp_self] at hu
        rw [setOp_ne hu't] at hu'
        exact absurd (hc k hu u' hu') hu't
    · rw [setOp_ne hut] at hu
      by_cases hu't : u' = t
      · rw [hu't, setOp_self] at hu'
        exact absurd (hc k hu' u hu) hut
      · rw [setOp_ne hu't] at hu'
        exact h.one k u u' hu hu'

theorem Shape.setOp_found (h : Shape s) (hfill : o.filling = false)
    (hf : ∀ f ∈ o.held, ∃ e ∈ s.table, e.frame = f)
    (hc : ∀ k, o.changes k = true → ∀ u, (s.op u).changes k = true → u = t) :
    Shape (s.setOp t o) := by
  refine h.setOp (fun f hfo => ?_) (fun h1 => ?_) hc
  · obtain ⟨e, he, rfl⟩ := hf f hfo
    exact ⟨h.fresh e he, fun u _ hu hfu => (h.own u hu _ hfu).1 e he rfl⟩
  · rw [hfill] at h1
    cases h1

theorem Shape.setOp_inv (h : Shape (s.setOp t o)) (ho : OpOk s o)
    (hops : ∀ u, u ≠ t → OpOk s (s.op u))
    (hb : ∀ e ∈ s.table, ∀ j < pageSize, Fits s e j ∨ o.Owes e (e.index * pageSize + j) ∨
    ∃ u, u ≠ t ∧ (s.op u).Owes e (e.index * pageSize + j)) :
    Inv (s.setOp t o) := by
  refine ⟨h, fun e he j hj => ?_, (forall_update_iff s.op fun _ => OpOk s).mpr ⟨ho, hops⟩⟩
  rcases hb e he j hj with h1 | h1 | ⟨u, hut, hu⟩
  · exact .inl h1
  · exact .inr ⟨t, by rwa [setOp_self]⟩
  · exact .inr ⟨u, by rwa [setOp_ne hut]⟩

theorem OpOk.setFrame (h : OpOk s o) (hne : o.filling = true → o.held ≠ some f) :
    OpOk (s.setFrame f b) o := by
  cases o with
  | fill k index f' got =>
    have hf : f' ≠ f := fun he => hne rfl (congrArg some he)
    refine ⟨h.1, fun j hj => ?_⟩
    rw [show (s.setFrame f b).frame f' = s.frame f' from update_of_ne hf ..]
    exact h.2 j hj
  | filled k index f' =>
    have hf : f' ≠ f := fun he => hne rfl (congrArg some he)
    intro j hj
    rw [show (s.setFrame f b).frame f' = s.frame f' from update_of_ne hf ..]
    exact h j hj
  | _ => exact h

theorem OpOk.setFile {f : File} (h : OpOk s o) (hf : o.fills k = false) (hc : o.changes k = false) :
    OpOk (s.setFile k f) o := by
  have hk {k' : Key} (hne : (k' == k) = false) : (s.setFile k f).file k' = s.file k' :=
    update_of_ne (by simpa using hne) ..
  cases o with
  | idle => exact h
  | fill k' index f' got =>
    simp only [OpOk, hk hf]
    exact h
  | filled k' index f' =>
    simp only [OpOk, Page, hk hf]
    exact h
  | wrote k' off buf pg | copy k' off buf pg f' =>
    simp only [OpOk, Holds, hk hc]
    exact h
  | drop k' size | tail k' size | zero k' size f' =>
    simp only [OpOk, Ends, hk hc]
    exact h

theorem find_none (h : s.find k t = none) (e : Entry) (he : e ∈ s.table) :
    ¬(e.key = k ∧ e.index = t) := by
  intro hc
  have := List.find?_eq_none.mp h e he
  simp [hc.1, hc.2] at this

theorem find_some {e : Entry} (h : s.find k t = some e) :
    e ∈ s.table ∧ e.key = k ∧ e.index = t := by
  refine ⟨mem_of_find?_eq_some h, ?_⟩
  have := List.find?_some h
  simpa using this

theorem Shape.found (h : Shape s) {e₀ : Entry} (hfind : s.find k index = some e₀) :
    OnlyFor s k index e₀.frame ∧ (∀ f ∈ some e₀.frame, ∃ e ∈ s.table, e.frame = f) ∧
      ∀ e ∈ s.table, e.key = k → e.index = index → e.frame = e₀.frame := by
  obtain ⟨he₀, rfl, rfl⟩ := find_some hfind
  refine ⟨fun e he hf => ?_, ?_, fun e he hk hi => ?_⟩
  · rw [h.frames e he e₀ he₀ hf]
    exact ⟨rfl, rfl⟩
  · rintro f ⟨⟩
    exact ⟨e₀, he₀, rfl⟩
  · rw [h.pages e he e₀ he₀ hk hi]

theorem isIdle_eq (h : o.isIdle = true) : o = .idle := by
  cases o <;> simp_all [Op.isIdle]

theorem Shape.fresh_own (h : Shape s) : (s.op u).held ≠ some s.next :=
  fun hu => lt_irrefl _ (h.heldFresh u _ hu)

theorem dropFirst_sublist {p : Entry → Bool} {n : Nat} : (dropFirst p n es).Sublist es := by
  induction es generalizing n with
  | nil => cases n <;> exact .refl _
  | cons x es ih =>
    cases n with
    | zero => exact .refl _
    | succ n =>
      rw [dropFirst]
      split
      · exact .cons _ ih
      · exact .cons_cons _ ih

theorem dropFirst_short {p : Entry → Bool} {n : Nat}
    (h : es.length - (dropFirst p n es).length < n) : ∀ e ∈ dropFirst p n es, p e = false := by
  induction es generalizing n with
  | nil => cases n <;> simp [dropFirst]
  | cons x es ih =>
    cases n with
    | zero => exact absurd h (Nat.not_lt_zero _)
    | succ n =>
      by_cases hx : p x = true
      · have hle : (dropFirst p n es).length ≤ es.length := dropFirst_sublist.length_le
        rw [dropFirst, if_pos hx] at h ⊢
        rw [length_cons] at h
        exact ih (by omega)
      · rw [dropFirst, if_neg hx] at h ⊢
        rw [length_cons, length_cons, Nat.add_sub_add_right] at h
        intro e he
        rcases mem_cons.mp he with rfl | he
        · simpa using hx
        · exact ih h e he

theorem File.byte_write {f : File} {a : Nat} :
    (f.write off buf).byte a = Disk.write f.byte off buf a := by
  unfold File.write
  rw [File.byte]
  split
  · rfl
  · dsimp only at *
    rw [write_outside (.inr (by omega)), File.byte, if_neg (by omega)]

theorem kept_page (hi : index < keepPages size) (hj : j < pageSize)
    (ha : size ≤ index * pageSize + j) : index = size / pageSize ∧ size % pageSize ≠ 0 := by
  have hle : keepPages size ≤ (size + pageSize - 1) / pageSize :=
    Nat.div_le_div_right (Nat.mod_le ..)
  unfold pageSize at *
  omega

variable (h : Inv s)
include h

theorem Inv.owes_next {e : Entry} (he : e ∈ s.table) (hj : j < pageSize)
    (howe : (s.op t).Owes e (e.index * pageSize + j) → Fits s e j ∨
    o.Owes e (e.index * pageSize + j)) :
    Fits s e j ∨ o.Owes e (e.index * pageSize + j) ∨
      ∃ u, u ≠ t ∧ (s.op u).Owes e (e.index * pageSize + j) := by
  rcases h.bytes e he j hj with h1 | ⟨u, hu⟩
  · exact .inl h1
  · by_cases hut : u = t
    · subst hut
      exact (howe hu).imp_right .inl
    · exact .inr (.inr ⟨u, hut, hu⟩)

/-! The steps of `pagecache_get`. -/

theorem Inv.quit (hc : ∀ e a, ¬(s.op t).Owes e a) : Inv (s.setOp t .idle) :=
  (h.setOp_found rfl (by simp [Op.held]) (by simp [Op.changes])).setOp_inv trivial
    (fun u _ => h.ops u)
    (fun e he _ hj => h.owes_next he hj fun ho => absurd ho (hc e _))

theorem Inv.get (hidle : (s.op t).isIdle = true) : Inv (get s t k index) := by
  unfold PageCache.get
  split
  · exact h
  have hs : Shape { s.setFrame s.next fun _ => 0 with next := s.next + 1 } :=
    ⟨fun e he => Nat.lt_succ_of_lt (h.fresh e he), fun u f hu =>
      Nat.lt_succ_of_lt (h.heldFresh u f hu),
      h.pages, h.frames, h.own, h.one⟩
  have hnew : ∀ e ∈ s.table, e.frame ≠ s.next := fun e he => Nat.ne_of_lt (h.fresh e he)
  refine (hs.setOp ?_ ?_ (by simp [Op.changes])).setOp_inv ⟨by decide, fun j _ => ?_⟩
    (fun u _ => ?_) (fun e he j hj => ?_)
  · rintro f ⟨⟩
    exact ⟨Nat.lt_succ_self _, fun u _ _ => h.fresh_own⟩
  · rintro - f ⟨⟩
    exact ⟨hnew, fun u _ => h.fresh_own⟩
  · show update s.frame s.next _ s.next j = _
    rw [update_self, if_neg (Nat.not_lt_zero j)]
  · exact (h.ops u).setFrame fun _ => h.fresh_own
  · show update s.frame s.next _ e.frame j = _ ∨ _
    rw [update_of_ne (hnew e he)]
    refine h.owes_next he hj fun ho => ?_
    rw [isIdle_eq hidle] at ho
    exact ho.elim

theorem Inv.fill_own (hfill : (s.op t).filling = true) (hf : (s.op t).held = some f)
    (ho : OpOk (s.setFrame f b) o) (hof : o.held = some f) (hofill : o.filling = true) :
    Inv ((s.setFrame f b).setOp t o) := by
  obtain ⟨hnew, hother⟩ := h.own t hfill f hf
  have hs : Shape (s.setFrame f b) := ⟨h.fresh, h.heldFresh, h.pages, h.frames, h.own, h.one⟩
  have hnc : ∀ k, o.changes k = true → False := by
    cases o <;> simp_all [Op.changes, Op.filling]
  refine (hs.setOp ?_ ?_ fun k hk => (hnc k hk).elim).setOp_inv ho (fun u hut => ?_)
    (fun e he j hj => ?_)
  · intro f' hf'
    rw [hof] at hf'
    cases hf'
    exact ⟨h.heldFresh t f hf, fun u hut _ => hother u hut⟩
  · intro _ f' hf'
    rw [hof] at hf'
    cases hf'
    exact ⟨hnew, hother⟩
  · exact (h.ops u).setFrame fun _ => hother u hut
  · unfold Fits State.setFrame
    dsimp only
    rw [update_of_ne (hnew e he)]
    refine h.owes_next he hj fun hu => ?_
    revert hfill hu
    cases s.op t <;> simp [Op.filling, Op.Owes]

/-- Reading the file fills a frame that nobody else has. -/
theorem Inv.read {r : Nat} (hn : read s t r = some s') : Inv s' := by
  unfold PageCache.read at hn
  split at hn
  · rename_i k index f got hop
    obtain ⟨hgot, hfr⟩ : OpOk s (.fill k index f got) := hop ▸ h.ops t
    have hfill : (s.op t).filling = true := by rw [hop]; rfl
    have hheld : (s.op t).held = some f := by rw [hop]; rfl
    dsimp only at hn
    split at hn
    · split at hn
      · rename_i hend
        cases hn
        have hown := h.fill_own hfill hheld (b := s.frame f) (o :=
          .filled k index f) (fun j hj => ?_) rfl rfl
        · have hsame : s.setFrame f (s.frame f) = s := by
            rw [State.setFrame, update_eq_self]
          rwa [hsame] at hown
        · show update s.frame f _ f j = _
          rw [update_self, hfr j hj]
          split
          · rfl
          · rw [File.byte, if_neg (by simp only [State.setFrame]; omega)]
      · cases hn
    · split at hn
      · rename_i hr0 hr
        cases hn
        -- the bytes read so far, and the rest of the frame as it was
        have hbytes : ∀ j < pageSize, Disk.write (s.frame f) got
            (Disk.read (s.file k).byte (index * pageSize + got) r) j =
            if j < got + r then (s.file k).byte (index * pageSize + j) else 0 := by
          intro j hj
          by_cases h1 : j < got
          · rw [write_outside (.inl h1), hfr j hj, if_pos h1, if_pos (by omega)]
          · by_cases h2 : j < got + r
            · obtain ⟨i, rfl⟩ : ∃ i, j = got + i := ⟨j - got, by omega⟩
              rw [write_inside (by rw [length_read]; omega), if_pos h2]
              simp [Disk.read, Nat.add_assoc]
            · rw [write_outside (.inr (by rw [length_read]; omega)), hfr j hj, if_neg h1, if_neg h2]
        have hset : ∀ {b : Nat → Byte}, (s.setFrame f b).frame f = b := update_self ..
        split
        · rename_i hlt
          refine h.fill_own hfill hheld ⟨hlt, fun j hj => ?_⟩ rfl rfl
          rw [hset, hbytes j hj]
          rfl
        · refine h.fill_own hfill hheld (fun j hj => ?_) rfl rfl
          rw [hset, hbytes j hj, if_pos (by omega)]
          rfl
      · cases hn
  · cases hn

/-- Inserting a frame that holds the bytes of its page. -/
theorem Inv.add (hl : ∀ e, e ∈ l ↔ e = ⟨k, index, f⟩ ∨ e ∈ s.table) (hfresh : f < s.next)
    (hnew : ∀ e ∈ s.table, e.frame ≠ f) (hheld : ∀ u, (s.op u).held ≠ some f)
    (hnone : s.find k index = none) (hpage : Page s k index f) : Inv { s with table := l } := by
  refine ⟨⟨fun e he => ?_, h.heldFresh, fun e he e' he' hk hi => ?_, fun e he e' he' hf => ?_,
    fun u hu f' hf' => ⟨fun e he => ?_, (h.own u hu f' hf').2⟩, h.one⟩, fun e he j hj =>
      ?_, fun u => ?_⟩
  · rcases (hl e).mp he with rfl | he
    · exact hfresh
    · exact h.fresh e he
  · rcases (hl e).mp he with rfl | he <;> rcases (hl e').mp he' with rfl | he'
    · rfl
    · exact absurd ⟨hk.symm, hi.symm⟩ (find_none hnone e' he')
    · exact absurd ⟨hk, hi⟩ (find_none hnone e he)
    · exact h.pages e he e' he' hk hi
  · rcases (hl e).mp he with rfl | he <;> rcases (hl e').mp he' with rfl | he'
    · rfl
    · exact absurd hf.symm (hnew e' he')
    · exact absurd hf (hnew e he)
    · exact h.frames e he e' he' hf
  · rcases (hl e).mp he with rfl | he
    · rintro rfl
      exact hheld u hf'
    · exact (h.own u hu f' hf').1 e he
  · rcases (hl e).mp he with rfl | he
    · exact .inl (hpage j hj)
    · exact h.bytes e he j hj
  · have hu := h.ops u
    have honly : ∀ {k' i' f'}, (s.op u).held = some f' → OnlyFor s k' i' f' →
        OnlyFor { s with table := l } k' i' f' := by
      intro k' i' f' h1 h2 e he hef
      rcases (hl e).mp he with rfl | he
      · cases hef
        exact absurd h1 (hheld u)
      · exact h2 e he hef
    revert hu honly
    cases s.op u with
    | copy k' off buf pg f' | zero k' size f' => exact fun hu ho => ⟨hu.1, ho rfl hu.2⟩
    | _ => exact fun hu _ => hu

theorem Inv.insert {pos : Nat} (hn : insert s t pos = some s') : Inv s' := by
  unfold PageCache.insert at hn
  split at hn
  · rename_i k index f hop
    have hq : Inv (s.setOp t .idle) := h.quit (by rw [hop]; exact fun _ _ => id)
    split at hn
    · cases hn
      exact hq
    rename_i hnone
    cases hn
    have hfill : (s.op t).filling = true := by rw [hop]; rfl
    have hheld : (s.op t).held = some f := by rw [hop]; rfl
    obtain ⟨hnew, hother⟩ := h.own t hfill f hheld
    have hpage : OpOk s (.filled k index f) := hop ▸ h.ops t
    refine hq.add (fun e => ?_) (h.heldFresh t f hheld) hnew (fun u => ?_) hnone hpage
    · conv_rhs => rw [← take_append_drop pos (s.setOp t .idle).table]
      simp only [mem_append, mem_cons]
      tauto
    · by_cases hut : u = t
      · rw [hut, setOp_self]
        nofun
      · rw [setOp_ne hut]
        exact hother u hut
  · cases hn

/-! Entries leave the table. -/

theorem Inv.sub (hl : ∀ e ∈ l, e ∈ s.table) : Inv { s with table := l } := by
  refine ⟨⟨fun e he => h.fresh e (hl e he), h.heldFresh, fun e he e' he' =>
    h.pages e (hl e he) e' (hl e' he'),
    fun e he e' he' => h.frames e (hl e he) e' (hl e' he'),
    fun u hu f hf => ⟨fun e he => (h.own u hu f hf).1 e (hl e he), (h.own u hu f hf).2⟩, h.one⟩,
    fun e he => h.bytes e (hl e he), fun u => ?_⟩
  have hu := h.ops u
  revert hu
  cases s.op u with
  | copy k' off buf pg f' | zero k' size f' => exact fun hu => ⟨hu.1, fun e he => hu.2 e (hl e he)⟩
  | _ => exact id

/-! The steps that change a file and bring the cache up to date. -/

section
variable (hidle : (s.op t).isIdle = true) (hk : ∀ u, (s.op u).fills k = false ∧
    (s.op u).changes k = false)
include hidle hk

theorem Inv.change {f : File} (ho : OpOk (s.setFile k f) o)
    (hfill : o.filling = false) (hheld : o.held = none) (hc : ∀ k', o.changes k' = true → k' = k)
    (howe : ∀ e ∈ s.table, e.key = k → ∀ j < pageSize,
      f.byte (e.index * pageSize + j) = (s.file k).byte (e.index * pageSize + j) ∨
      o.Owes e (e.index * pageSize + j)) : Inv ((s.setFile k f).setOp t o) := by
  have hs : Shape (s.setFile k f) := ⟨h.fresh, h.heldFresh, h.pages, h.frames, h.own, h.one⟩
  refine (hs.setOp_found hfill (by simp [hheld]) fun k' hk' u hu => ?_).setOp_inv ho
    (fun u _ => (h.ops u).setFile (hk u).1 (hk u).2) (fun e he j hj => ?_)
  · have hu' := (hk u).2
    rw [← hc k' hk'] at hu'
    cases hu'.symm.trans hu
  have hb := h.owes_next (t := t) (o := o) he hj fun hu => by
    rw [isIdle_eq hidle] at hu
    exact hu.elim
  show s.frame e.frame j = (update s.file k f e.key).byte _ ∨ _
  by_cases hek : e.key = k
  · rw [hek, update_self]
    rcases howe e he hek j hj with h1 | h1
    · rw [h1, ← hek]
      exact hb
    · exact .inr (.inl h1)
  · rw [update_of_ne hek]
    exact hb

theorem Inv.write :
    Inv ((s.setFile k ((s.file k).write off buf)).setOp t (.wrote k off buf (off / pageSize))) := by
  refine h.change hidle hk (fun n hn => ?_) rfl rfl (by simp [Op.changes]) (fun e _ hek j hj => ?_)
  · show (update s.file k _ k).byte _ = _
    rw [update_self, File.byte_write, write_inside hn]
  · rw [File.byte_write]
    by_cases hin : off ≤ e.index * pageSize + j ∧ e.index * pageSize + j < off + buf.length
    · refine .inr ⟨hek, ?_, hin⟩
      unfold pageSize at *
      omega
    · exact .inl (write_outside (by omega))

theorem Inv.truncate : Inv ((s.setFile k ((s.file k).truncate size)).setOp t (.drop k size)) := by
  refine h.change hidle hk (fun a ha => ?_) rfl rfl (by simp [Op.changes]) (fun e _ hek j hj => ?_)
  · show (update s.file k _ k).byte _ = _
    rw [update_self]
    exact if_neg (Nat.not_lt.mpr ha)
  · by_cases hin : e.index * pageSize + j < size
    · exact .inl (if_pos hin)
    · exact .inr ⟨hek, Nat.not_lt.mp hin⟩

end

theorem Inv.goOn (ho : OpOk s o) (hfill : o.filling = false)
    (hf : ∀ f ∈ o.held, ∃ e ∈ s.table, e.frame = f)
    (hc : ∀ k, o.changes k = true → (s.op t).changes k = true)
    (howe : ∀ e ∈ s.table, ∀ j < pageSize, (s.op t).Owes e (e.index * pageSize + j) → Fits s e j ∨
    o.Owes e (e.index * pageSize + j)) :
    Inv (s.setOp t o) :=
  (h.setOp_found hfill hf fun k hk u hu => h.one k u t hu (hc k hk)).setOp_inv ho
    (fun u _ => h.ops u)
    (fun e he j hj => h.owes_next he hj (howe e he j hj))

theorem Inv.patch (hheld : (s.op t).held = some f) (ho : OpOk (s.setFrame f b) o)
    (hofill : o.filling = false) (hoheld : o.held = none)
    (hc : ∀ k, o.changes k = true → (s.op t).changes k = true)
    (hb : ∀ e ∈ s.table, e.frame = f → ∀ j < pageSize,
    b j = (s.file e.key).byte (e.index * pageSize + j) ∨ b j = s.frame f j ∧
    ((s.op t).Owes e (e.index * pageSize + j) → o.Owes e (e.index * pageSize + j)))
    (howe : ∀ e ∈ s.table, e.frame ≠ f → ∀ a, (s.op t).Owes e a → o.Owes e a) :
    Inv ((s.setFrame f b).setOp t o) := by
  have hs : Shape (s.setFrame f b) := ⟨h.fresh, h.heldFresh, h.pages, h.frames, h.own, h.one⟩
  refine (hs.setOp_found hofill (by simp [hoheld]) fun k hk u hu =>
    h.one k u t hu (hc k hk)).setOp_inv ho
    (fun u hut => (h.ops u).setFrame fun hu huf => (h.own u hu f huf).2 t (Ne.symm hut) hheld)
    (fun e he j hj => ?_)
  show update s.frame f b e.frame j = _ ∨ _
  by_cases hef : e.frame = f
  · rw [hef, update_self]
    rcases hb e he hef j hj with h1 | ⟨h1, h2⟩
    · exact .inl h1
    · rw [h1, ← hef]
      exact h.owes_next he hj fun hu => .inr (h2 hu)
  · rw [update_of_ne hef]
    exact h.owes_next he hj fun hu => .inr (howe e he hef _ hu)

theorem Inv.look (hn : look s t = some s') : Inv s' := by
  unfold PageCache.look at hn
  split at hn
  · rename_i k off buf pg hop
    have hholds : OpOk s (.wrote k off buf pg) := hop ▸ h.ops t
    split at hn
    · split at hn
      · rename_i e0 hfind
        cases hn
        obtain ⟨honly, hin, hsame⟩ := h.found hfind
        refine h.goOn ⟨hholds, honly⟩ rfl hin (by rw [hop]; exact fun _ => id)
          (fun e he j _ hu => ?_)
        rw [hop] at hu
        obtain ⟨h1, h2, h3⟩ := hu
        rcases Nat.lt_or_eq_of_le h2 with h2 | h2
        · exact .inr ⟨h1, .inl h2, h3⟩
        · exact .inr ⟨h1, .inr ⟨h2.symm, hsame e he h1 h2.symm⟩, h3⟩
      · rename_i hfind
        cases hn
        refine h.goOn hholds rfl (by simp [Op.held]) (by rw [hop]; exact fun _ => id)
          (fun e he j _ hu => ?_)
        rw [hop] at hu
        obtain ⟨h1, h2, h3⟩ := hu
        have hne : e.index ≠ pg := fun hi => find_none hfind e he ⟨h1, hi⟩
        exact .inr ⟨h1, by omega, h3⟩
    · rename_i hend
      cases hn
      refine h.goOn trivial rfl (by simp [Op.held]) (by simp [Op.changes]) (fun e he j _ hu => ?_)
      rw [hop] at hu
      obtain ⟨-, h2, h3, h4⟩ := hu
      have := Nat.mul_le_mul_right pageSize h2
      omega
  · cases hn

theorem Inv.copy (hn : copy s t = some s') : Inv s' := by
  unfold PageCache.copy at hn
  split at hn
  · rename_i k off buf pg f hop
    obtain ⟨hholds, honly⟩ : OpOk s (.copy k off buf pg f) := hop ▸ h.ops t
    cases hn
    refine h.patch (by rw [hop]; rfl) hholds rfl rfl (by rw [hop]; exact fun _ => id)
      (fun e he hef j hj => ?_) (fun e he hef a hu => ?_)
    · obtain ⟨hk, hi⟩ := honly e he hef
      rw [hk, hi]
      by_cases hin : off ≤ pg * pageSize + j ∧ pg * pageSize + j < off + buf.length
      · left
        obtain ⟨n, hn⟩ : ∃ n, pg * pageSize + j = off + n := ⟨pg * pageSize + j - off, by omega⟩
        have hnl : n < buf.length := by omega
        rw [hn, hholds n hnl]
        exact copied_inside hj hn hnl
      · refine .inr ⟨copied_outside hin, fun hu => ?_⟩
        rw [hop] at hu
        exact absurd hu.2.2 hin
    · rw [hop] at hu
      obtain ⟨h1, h2, h3⟩ := hu
      refine ⟨h1, ?_, h3⟩
      rcases h2 with h2 | ⟨_, h2⟩
      · omega
      · exact absurd h2 hef
  · cases hn

theorem Inv.drop (hn : drop s t = some s') : Inv s' := by
  unfold PageCache.drop at hn
  split at hn
  · rename_i k size hop
    have hends : OpOk s (.drop k size) := hop ▸ h.ops t
    dsimp only at hn
    generalize hl : dropFirst (fun e => e.key == k && decide (keepPages size ≤ e.index)) dropBatch
      s.table = l at hn
    have hi : Inv { s with table := l } := h.sub fun e he => dropFirst_sublist.subset (hl ▸ he)
    split at hn
    · rename_i hshort
      cases hn
      have hkept : ∀ e ∈ l, e.key = k → e.index < keepPages size := by
        intro e he hk
        have := dropFirst_short (hl ▸ hshort) e (hl ▸ he)
        simpa [hk] using this
      split
      · refine hi.goOn hends rfl (by simp [Op.held]) (by rw [hop]; exact fun _ => id)
          (fun e he j hj hu => ?_)
        obtain ⟨h1, h2⟩ : Op.Owes (.drop k size) e _ := hop ▸ hu
        exact .inr ⟨h1, (kept_page (hkept e he h1) hj h2).1, h2⟩
      · rename_i hfull
        refine hi.goOn trivial rfl (by simp [Op.held]) (by simp [Op.changes])
          (fun e he j hj hu => ?_)
        obtain ⟨h1, h2⟩ : Op.Owes (.drop k size) e _ := hop ▸ hu
        exact absurd (kept_page (hkept e he h1) hj h2).2 hfull
    · cases hn
      exact hi
  · cases hn

theorem Inv.lookTail (hn : lookTail s t = some s') : Inv s' := by
  unfold PageCache.lookTail at hn
  split at hn
  · rename_i k size hop
    have hends : OpOk s (.tail k size) := hop ▸ h.ops t
    split at hn
    · rename_i e0 hfind
      cases hn
      obtain ⟨honly, hin, hsame⟩ := h.found hfind
      refine h.goOn ⟨hends, honly⟩ rfl hin (by rw [hop]; exact fun _ => id) (fun e he j _ hu => ?_)
      rw [hop] at hu
      obtain ⟨h1, h2, h3⟩ := hu
      exact .inr ⟨h1, h2, hsame e he h1 h2, h3⟩
    · rename_i hfind
      cases hn
      refine h.goOn trivial rfl (by simp [Op.held]) (by simp [Op.changes]) (fun e he j _ hu => ?_)
      rw [hop] at hu
      exact absurd ⟨hu.1, hu.2.1⟩ (find_none hfind e he)
  · cases hn

theorem Inv.zeroTail (hn : zeroTail s t = some s') : Inv s' := by
  unfold PageCache.zeroTail at hn
  split at hn
  · rename_i k size f hop
    obtain ⟨hends, honly⟩ : OpOk s (.zero k size f) := hop ▸ h.ops t
    cases hn
    have hsize := Nat.div_add_mod' size pageSize
    refine h.patch (by rw [hop]; rfl) trivial rfl rfl (by simp [Op.changes])
      (fun e he hef j hj => ?_) (fun e he hef a hu => ?_)
    · obtain ⟨hk, hi⟩ := honly e he hef
      split_ifs with hin
      · rw [hk, hends _ (by rw [hi]; omega)]
        exact .inl rfl
      · refine .inr ⟨rfl, fun hu => ?_⟩
        rw [hop] at hu
        have := hu.2.2.2
        rw [hi] at this
        omega
    · rw [hop] at hu
      exact absurd hu.2.2.1 hef
  · cases hn

/-- Each step that meets the condition keeps the pages coherent. -/
theorem Inv.next {a : Action} (hok : ChangeOk s a) (hn : next s a = some s') : Inv s' := by
  cases a with
  | get t k index =>
    obtain ⟨hc, rfl⟩ := of_guard hn
    exact h.get hc
  | read t r => exact h.read hn
  | giveUp t =>
    rw [PageCache.next] at hn
    split at hn
    · cases hn
      exact h.quit (by simp [*, Op.Owes])
    · cases hn
      exact h.quit (by simp [*, Op.Owes])
    · cases hn
  | insert t pos => exact h.insert hn
  | write t k off buf =>
    obtain ⟨hc, rfl⟩ := of_guard hn
    exact h.write hc.1 hok
  | look t => exact h.look hn
  | copy t => exact h.copy hn
  | truncate t k size =>
    obtain ⟨hc, rfl⟩ := of_guard hn
    exact h.truncate hc hok
  | drop t => exact h.drop hn
  | lookTail t => exact h.lookTail hn
  | zeroTail t => exact h.zeroTail hn
  | evict n =>
    cases hn
    exact h.sub fun e he => mem_of_mem_eraseIdx he

end

theorem inv_init {file : Key → File} : Inv (cacheSystem file).init :=
  ⟨⟨nofun, nofun, nofun, nofun, nofun, nofun⟩, nofun, fun _ => trivial⟩

/-- Whenever nothing is under way, the cache has what the files have, if no file was
changed while it was read into a frame or while another change was being carried over. -/
theorem cache_coherent {file : Key → File} {s : State} (h : (cacheSystem file).Reach ChangeOk s)
    (hq : Quiet s) : Coherent s :=
  (h.invariant inv_init fun _ _ _ _ hi hok hn => hi.next hok hn).coherent hq

def oneFile : Key := ⟨0, 0⟩

def readBack : State :=
  (cacheSystem fun _ => ⟨0, fun _ => 0⟩).final
    [.write 1 oneFile 0 [1], .look 1, .look 1, .get 0 oneFile 0, .read 0 1, .read 0 0, .insert 0 0]

theorem cache_coherent_readBack :
    (cacheSystem fun _ => ⟨0, fun _ => 0⟩).Reach ChangeOk readBack ∧ Quiet readBack ∧
      readBack.table.length = 1 ∧ Coherent readBack := by
  have hr : (cacheSystem fun _ => ⟨0, fun _ => 0⟩).Reach ChangeOk readBack := by
    refine System.Reach.final ⟨fun _ => ⟨rfl, rfl⟩, fun _ _ => ?_⟩ (by decide +kernel)
    exact ⟨trivial, fun _ _ =>
      ⟨trivial, fun _ _ => ⟨trivial, fun _ _ => ⟨trivial, fun _ _ => ⟨trivial,
      fun _ _ => ⟨trivial, fun _ _ => trivial⟩⟩⟩⟩⟩⟩
  have hq : Quiet readBack
    | 0 | 1 => by decide +kernel
    | _ + 2 => rfl
  exact ⟨hr, hq, by decide +kernel, cache_coherent hr hq⟩

/-- The page is read before the byte is written and put in place after the write has
looked for it. -/
def stale : State :=
  (cacheSystem fun _ => ⟨1, fun _ => 0⟩).final
    [.get 0 oneFile 0, .read 0 1, .read 0 0, .write 1 oneFile 0 [1], .look 1, .look 1, .insert 0 0]

/-- The cache holds a byte that the file no longer has. -/
theorem stale_page :
    (cacheSystem fun _ => ⟨1, fun _ => 0⟩).Reach System.anyStep stale ∧
    Quiet stale ∧ ¬Coherent stale := by
  refine ⟨System.Reach.final System.runOk_any (by decide +kernel), ?_, fun hc => ?_⟩
  · rintro (_ | _ | _)
    · decide +kernel
    · decide +kernel
    · rfl
  · have htable : (⟨oneFile, 0, 0⟩ : Entry) ∈ stale.table := by
      have : stale.table.head? = some ⟨oneFile, 0, 0⟩ := rfl
      exact mem_of_mem_head? this
    have hbytes : stale.frame 0 0 = 0 ∧ (stale.file oneFile).byte 0 = 1 := by decide +kernel
    have := hc _ htable 0 (by decide)
    exact absurd this (by decide)

end Cervus.PageCache
