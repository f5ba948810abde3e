import Cervus.Lib.Disk
import Cervus.Lib.Run

/-! Speculative execution: a worker runs on a copy of a region while main goes
on with the master, and the pages the worker changed are merged afterwards. A
worker whose launch was aborted goes on until it ends by itself. -/

namespace Cervus.Sched

open List Disk

abbrev Byte := BitVec 8

def specPage : Nat := 4096
def specMaxRegion : Nat := 16 * 1024 * 1024

inductive SpecState
  | idle | running | done | committed | aborted
  deriving DecidableEq

/-- The bytes a worker stores, from the copy it works on. -/
abbrev Worker := (Nat → Byte) → Nat → Option Byte

structure Region where
  master : Nat → Byte
  shadow : Nat → Byte
  base : Nat → Byte
  len : Nat
  npages : Nat
  fn : Worker
  done : Bool
  readLo : Nat
  readHi : Nat
  workerDirty : Nat
  mainDirty : Nat
  conflicts : Nat
  rawConflicts : Nat
  merged : Nat
  state : SpecState

def Worker.run (f : Worker) (s : Nat → Byte) : Nat → Byte := fun i => (f s i).getD (s i)

def chunkAt (r : Region) (page : Nat) : Nat :=
  let rem := r.len - page * specPage
  if rem < specPage then rem else specPage

/-- `mem` tells whether the two buffers could be allocated. -/
def specRegionCreate (master : Nat → Byte) (len : Nat) (mem : Bool) : Option Region :=
  if len = 0 ∨ len > specMaxRegion ∨ mem = false then none
  else some
    { master := master, shadow := fun _ => 0, base := fun _ => 0, len := len
      npages := (len + specPage - 1) / specPage, fn := fun _ _ => none, done := false
      readLo := 0, readHi := 0, workerDirty := 0, mainDirty := 0, conflicts := 0, rawConflicts := 0, merged := 0, state := .idle }

/-- `task` tells whether the worker task could be created. -/
def specLaunch (r : Region) (f : Worker) (readLo readHi : Nat) (task : Bool) : Int × Region :=
  if r.state = .running then (-1, r)
  else
    let r := { r with
      base := write r.base 0 (Disk.read r.master 0 r.len)
      shadow := write r.shadow 0 (Disk.read r.master 0 r.len)
      fn := f, done := false
      workerDirty := 0, mainDirty := 0, conflicts := 0, rawConflicts := 0, merged := 0
      readLo := readLo, readHi := min readHi r.len, state := .running }
    if task then (0, r) else (-1, { r with state := .idle })

/-- `spec_worker_entry` once it has taken `f` from the region. -/
def specWorkerEntry (f : Worker) (r : Region) : Region :=
  { r with shadow := f.run r.shadow, done := true }

def specPoll (r : Region) : Int × Region :=
  if r.done then (1, if r.state = .running then { r with state := .done } else r) else (0, r)

/-- `spec_wait`; it times out where `done` is not set. -/
def specWait (r : Region) : Int × Region :=
  if r.done then (0, { r with state := .done }) else (-1, r)

def specAbort (r : Region) : Int × Region := (0, { r with state := .aborted })

def wdirty (r : Region) (p : Nat) : Bool :=
  Disk.read r.shadow (p * specPage) (chunkAt r p) != Disk.read r.base (p * specPage) (chunkAt r p)

def mdirty (r : Region) (p : Nat) : Bool :=
  Disk.read r.master (p * specPage) (chunkAt r p) != Disk.read r.base (p * specPage) (chunkAt r p)

def wread (r : Region) (p : Nat) : Bool :=
  r.readHi > p * specPage && r.readLo < p * specPage + chunkAt r p

def scanPage (r : Region) (p : Nat) : Region :=
  let conflict := mdirty r p && (wdirty r p || wread r p)
  { r with
    workerDirty := r.workerDirty + if wdirty r p then 1 else 0
    mainDirty := r.mainDirty + if mdirty r p then 1 else 0
    conflicts := r.conflicts + if conflict then 1 else 0
    rawConflicts := r.rawConflicts + if conflict && (wread r p && !wdirty r p) then 1 else 0 }

def mergePage (r : Region) (p : Nat) : Region :=
  if wdirty r p then
    { r with
      master := write r.master (p * specPage) (Disk.read r.shadow (p * specPage) (chunkAt r p))
      merged := r.merged + 1 }
  else r

/-- The conversion of a counter to `int`. -/
def toInt32 (n : Nat) : Int := (BitVec.ofNat 32 n).toInt

def specCommit (r : Region) : Int × Region :=
  if r.state ≠ .done then (-1, r)
  else
    let r := (range r.npages).foldl scanPage r
    if r.conflicts > 0 then (-toInt32 r.conflicts, r)
    else
      let r := (range r.npages).foldl mergePage r
      (toInt32 r.merged, { r with state := .committed })

/-- A region, its worker tasks that have not begun, and the functions of those that
have and are not at their end. -/
structure Spec where
  region : Region
  created : Nat
  running : List Worker

inductive SpecAction
  | launch (f : Worker) (readLo readHi : Nat) (task : Bool)
  | begin
  | finish (k : Nat)
  | main (m : Nat → Byte)
  | poll
  | wait
  | commit
  | abort

def specNext (s : Spec) : SpecAction → Option Spec
  | .launch f lo hi task =>
    let r := specLaunch s.region f lo hi task
    some { s with region := r.2, created := s.created + if r.1 = 0 then 1 else 0 }
  | .begin =>
    if 0 < s.created then
      some { s with created := s.created - 1, running := s.region.fn :: s.running }
    else none
  | .finish k =>
    s.running[k]?.map fun f =>
      { s with region := specWorkerEntry f s.region, running := s.running.eraseIdx k }
  | .main m => some { s with region := { s.region with master := m } }
  | .poll => some { s with region := (specPoll s.region).2 }
  | .wait => some { s with region := (specWait s.region).2 }
  | .commit => some { s with region := (specCommit s.region).2 }
  | .abort => some { s with region := (specAbort s.region).2 }

def specSystem (r : Region) : System Spec SpecAction := ⟨⟨r, 0, []⟩, specNext⟩

/-- The worker's stores depend only on the bytes of the region in `[lo, hi)`. -/
def ReadsOnly (f : Worker) (lo hi len : Nat) : Prop :=
  ∀ s t : Nat → Byte, (∀ i, lo ≤ i → i < hi → i < len → s i = t i) → f s = f t

/-- A region is launched again only when the worker of an aborted launch has ended, and
workers read what their launch says. -/
def SpecOk (s : Spec) : SpecAction → Prop
  | .launch f lo hi _ => s.created = 0 ∧ s.running = [] ∧ ReadsOnly f lo hi s.region.len
  | _ => True

structure Region.Ok (r : Region) : Prop where
  pos : 0 < r.len
  max : r.len ≤ specMaxRegion
  pages : r.npages = (r.len + specPage - 1) / specPage

theorem specRegionCreate_ok {master : Nat → Byte} {len : Nat} {mem : Bool} {r : Region}
    (h : specRegionCreate master len mem = some r) :
    r.Ok ∧ r.fn = (fun _ _ => none) ∧ r.done = false ∧ r.state = .idle := by
  unfold specRegionCreate at h
  split_ifs at h with hl
  push Not at hl
  cases h
  exact ⟨⟨Nat.pos_of_ne_zero hl.1, hl.2.1, rfl⟩, rfl, rfl, rfl⟩

/-- A commit that succeeds leaves what main and then the worker would, one that
fails leaves what main did. -/
def Serializable (f : Worker) (m : Nat → Byte) (r : Region) : Prop :=
  (0 ≤ (specCommit r).1 → ∀ i < r.len, (specCommit r).2.master i = f.run m i) ∧
  ((specCommit r).1 < 0 → (specCommit r).2.master = m)

section
variable {r : Region} {i p : Nat}

theorem Region.Ok.page_lt (h : r.Ok) (hi : i < r.len) : i / specPage < r.npages := by
  rw [h.pages]
  unfold specPage
  omega

theorem chunkAt_eq : chunkAt r p = min (r.len - p * specPage) specPage := by
  unfold chunkAt
  rcases lt_or_ge (r.len - p * specPage) specPage with h | h
  · rw [if_pos h, min_eq_left h.le]
  · rw [if_neg (not_lt.mpr h), min_eq_right h]

theorem mem_chunk :
    p * specPage ≤ i ∧ i < p * specPage + chunkAt r p ↔ i < r.len ∧ i / specPage = p := by
  rw [chunkAt_eq, specPage]
  omega

/-- The comparison of two copies of a page. -/
theorem chunk_ne_eq_false {x y : Nat → Byte} :
    (Disk.read x (p * specPage) (chunkAt r p) != Disk.read y (p * specPage) (chunkAt r p)) = false ↔
      ∀ i < r.len, i / specPage = p → x i = y i := by
  rw [bne_eq_false_iff_eq, read_eq_iff]
  refine forall_congr' fun i => ?_
  rw [← and_imp, ← and_imp, mem_chunk]

theorem wdirty_eq_false :
    wdirty r p = false ↔ ∀ i < r.len, i / specPage = p → r.shadow i = r.base i :=
  chunk_ne_eq_false

theorem mdirty_eq_false :
    mdirty r p = false ↔ ∀ i < r.len, i / specPage = p → r.master i = r.base i :=
  chunk_ne_eq_false

theorem wread_of_mem (hi : i < r.len) (h1 : r.readLo ≤ i) (h2 : i < r.readHi) :
    wread r (i / specPage) = true := by
  have hc := (mem_chunk (r := r) (p := i / specPage)).mpr ⟨hi, rfl⟩
  simp only [wread, Bool.and_eq_true, decide_eq_true_eq]
  omega

def conflictAt (r : Region) (p : Nat) : Bool := mdirty r p && (wdirty r p || wread r p)

theorem foldl_scanPage (l : List Nat) (r : Region) : ∃ a b c, l.foldl scanPage r =
    { r with workerDirty := a, mainDirty := b, conflicts := r.conflicts + l.countP (conflictAt r),
             rawConflicts := c } := by
  induction l generalizing r with
  | nil => exact ⟨r.workerDirty, r.mainDirty, r.rawConflicts, rfl⟩
  | cons p l ih =>
    obtain ⟨a, b, c, h⟩ := ih (scanPage r p)
    refine ⟨a, b, c, ?_⟩
    have hf : conflictAt (scanPage r p) = conflictAt r := rfl
    rw [foldl_cons, h, hf, countP_cons]
    have hc : (scanPage r p).conflicts = r.conflicts + if conflictAt r p then 1 else 0 := rfl
    rw [hc, add_assoc, add_comm (ite _ _ _)]
    rfl

/-- What the pages of a commit leave alone. -/
structure SameLaunch (r q : Region) : Prop where
  len : q.len = r.len
  npages : q.npages = r.npages
  fn : q.fn = r.fn
  readLo : q.readLo = r.readLo
  readHi : q.readHi = r.readHi
  shadow : q.shadow = r.shadow
  base : q.base = r.base
  done : q.done = r.done

theorem SameLaunch.rfl : SameLaunch r r :=
  ⟨Eq.refl _, Eq.refl _, Eq.refl _, Eq.refl _, Eq.refl _, Eq.refl _, Eq.refl _, Eq.refl _⟩

theorem SameLaunch.trans {q q' : Region} (h : SameLaunch r q) (h' : SameLaunch q q') :
    SameLaunch r q' :=
  ⟨h'.len.trans h.len, h'.npages.trans h.npages, h'.fn.trans h.fn, h'.readLo.trans h.readLo,
    h'.readHi.trans h.readHi, h'.shadow.trans h.shadow, h'.base.trans h.base, h'.done.trans h.done⟩

theorem SameLaunch.foldl {f : Region → Nat → Region} (hf : ∀ r p, SameLaunch r (f r p))
    (l : List Nat) (r : Region) : SameLaunch r (l.foldl f r) := by
  induction l generalizing r with
  | nil => exact .rfl
  | cons p l ih => exact (hf r p).trans (ih _)

theorem mergePage_same (r : Region) (p : Nat) : SameLaunch r (mergePage r p) := by
  unfold mergePage
  split_ifs <;> exact ⟨rfl, rfl, rfl, rfl, rfl, rfl, rfl, rfl⟩

theorem specCommit_same (r : Region) : SameLaunch r (specCommit r).2 := by
  have hscan := SameLaunch.foldl (f := scanPage)
    (fun _ _ => ⟨rfl, rfl, rfl, rfl, rfl, rfl, rfl, rfl⟩)
    (range r.npages) r
  unfold specCommit
  split_ifs with hs
  · exact .rfl
  · dsimp only
    split_ifs
    · exact hscan
    · exact (hscan.trans (.foldl mergePage_same _ _)).trans ⟨rfl, rfl, rfl, rfl, rfl, rfl, rfl, rfl⟩

theorem wdirty_congr {r' : Region} (h : SameLaunch r r') : wdirty r' = wdirty r := by
  funext p
  unfold wdirty chunkAt
  rw [h.shadow, h.base, h.len]

theorem mergePage_master (hi : i < r.len) : (mergePage r p).master i =
    if i / specPage = p ∧ wdirty r p = true then r.shadow i else r.master i := by
  unfold mergePage
  by_cases hw : wdirty r p = true
  · simp only [hw, if_true, and_true]
    by_cases hp : i / specPage = p
    · obtain ⟨h1, h2⟩ := (mem_chunk (r := r)).mpr ⟨hi, hp⟩
      obtain ⟨k, rfl⟩ := Nat.exists_eq_add_of_le h1
      rw [if_pos hp, write_inside (by rw [length_read]; omega)]
      simp only [Disk.read, getElem_map, getElem_range]
    · rw [if_neg hp, write_outside]
      have hn : ¬(p * specPage ≤ i ∧ i < p * specPage + chunkAt r p) :=
        fun h => hp (mem_chunk.mp h).2
      rw [length_read]
      omega
  · simp [hw]

theorem foldl_mergePage {r : Region} (l : List Nat) (hi : i < r.len) :
    (l.foldl mergePage r).master i =
      if i / specPage ∈ l ∧ wdirty r (i / specPage) = true then r.shadow i else r.master i := by
  induction l generalizing r with
  | nil => simp
  | cons p l ih =>
    have hsame := mergePage_same r p
    rw [foldl_cons, ih (by rw [hsame.len]; exact hi), wdirty_congr hsame, hsame.shadow,
      mergePage_master hi]
    by_cases hp : i / specPage = p
    · subst hp
      by_cases hw : wdirty r (i / specPage) = true <;> simp [hw]
    · simp [hp]

end

/-- Some page that main changed was also changed by the worker or is in its read set. -/
def Conflict (r : Region) : Prop := ∃ p < r.npages, conflictAt r p = true

theorem toInt32_of_le {n : Nat} (h : n ≤ 4096) : toInt32 n = n := by
  rw [toInt32, BitVec.toInt_eq_toNat_of_lt] <;> rw [BitVec.toNat_ofNat] <;> omega

theorem Region.Ok.pages_le {r : Region} (h : r.Ok) : r.npages ≤ 4096 := by
  have := h.max
  rw [h.pages]
  unfold specMaxRegion at this
  unfold specPage
  omega

theorem foldl_mergePage_merged (l : List Nat) (r : Region) :
    (l.foldl mergePage r).merged ≤ r.merged + l.length := by
  induction l generalizing r with
  | nil => exact le_refl _
  | cons p l ih =>
    have hp : (mergePage r p).merged ≤ r.merged + 1 := by
      unfold mergePage
      split_ifs <;> simp
    have := ih (mergePage r p)
    rw [foldl_cons, length_cons]
    omega

/-- No commit since the launch has counted anything. -/
def Fresh (r : Region) : Prop := r.conflicts = 0 ∧ r.merged = 0

section
variable {r : Region} (hok : r.Ok) (hs : r.state = .done) (h0 : Fresh r)
include hok hs h0

theorem specCommit_of_conflict (h : Conflict r) :
    (specCommit r).1 < 0 ∧ (specCommit r).2.master = r.master := by
  obtain ⟨p, hp, hc⟩ := h
  obtain ⟨a, b, c, hf⟩ := foldl_scanPage (range r.npages) r
  have hpos : 0 < (range r.npages).countP (conflictAt r) :=
    countP_pos_iff.mpr ⟨p, mem_range.mpr hp, hc⟩
  have hle : (range r.npages).countP (conflictAt r) ≤ 4096 := by
    have := countP_le_length (p := conflictAt r) (l := range r.npages)
    rw [length_range] at this
    exact this.trans hok.pages_le
  simp only [specCommit, hs, ne_eq, not_true_eq_false, if_false, hf, h0.1, zero_add]
  rw [if_pos hpos, toInt32_of_le hle]
  exact ⟨by simpa using hpos, rfl⟩

theorem specCommit_of_noConflict (h : ¬Conflict r) :
    0 ≤ (specCommit r).1 ∧ ∀ i < r.len, (specCommit r).2.master i =
      if wdirty r (i / specPage) = true then r.shadow i else r.master i := by
  obtain ⟨a, b, c, hf⟩ := foldl_scanPage (range r.npages) r
  have hzero : (range r.npages).countP (conflictAt r) = 0 := by
    rw [countP_eq_zero]
    exact fun p hp hc => h ⟨p, mem_range.mp hp, hc⟩
  simp only [specCommit, hs, ne_eq, not_true_eq_false, if_false, hf, h0.1, hzero, zero_add,
    gt_iff_lt, lt_irrefl]
  have hpage := hok.pages_le
  have hmem : ∀ i < r.len, i / specPage ∈ range r.npages :=
    fun i hi => mem_range.mpr (hok.page_lt hi)
  generalize hq : ({ r with
    state := .done, workerDirty := a, mainDirty := b, conflicts := 0, rawConflicts := c } :
      Region) = q
  have hm : q.merged = 0 := by rw [← hq]; exact h0.2
  have hle := foldl_mergePage_merged (range r.npages) q
  rw [hm, length_range] at hle
  refine ⟨?_, fun i hi => ?_⟩
  · rw [toInt32_of_le (by omega)]
    exact Int.natCast_nonneg _
  · have hl : i < q.len := by rw [← hq]; exact hi
    simp only [foldl_mergePage _ hl, hmem i hi, true_and]
    subst hq
    rfl

end

/-- What the steps keep: a worker that has not ended is the only one and finds the copy
made at the launch, and `done` says that it has ended. -/
structure SpecInv (s : Spec) : Prop where
  ok : s.region.Ok
  reads : ReadsOnly s.region.fn s.region.readLo s.region.readHi s.region.len
  one : s.created + s.running.length ≤ 1
  own : ∀ f ∈ s.running, f = s.region.fn
  copy : 0 < s.created + s.running.length → s.region.done = false ∧
    ∀ i < s.region.len, s.region.shadow i = s.region.base i
  ended : s.region.done = true →
    ∀ i < s.region.len, s.region.shadow i = s.region.fn.run s.region.base i
  done : s.region.state = .done → s.region.done = true

theorem launch_copy {r : Region} (d : Nat → Byte) {i : Nat} (h : i < r.len) :
    write d 0 (Disk.read r.master 0 r.len) i = r.master i := by
  have hi : i < (Disk.read r.master 0 r.len).length := by rwa [length_read]
  have hw : write d 0 (Disk.read r.master 0 r.len) (0 + i) = _ := write_inside hi
  rw [zero_add] at hw
  rw [hw]
  simp only [Disk.read, getElem_map, getElem_range, zero_add]

section
variable {s t : Spec} {r : Region}

/-- A step that leaves the workers, the copies and the launch alone. -/
theorem SpecInv.keep (h : SpecInv s) (hr : SameLaunch s.region r)
    (hd : r.state = .done → r.done = true) : SpecInv { s with region := r } := by
  refine ⟨⟨?_, ?_, ?_⟩, ?_, h.one, ?_, ?_, ?_, hd⟩
  · simp only [hr.len, h.ok.pos]
  · simp only [hr.len, h.ok.max]
  · simp only [hr.npages, hr.len, h.ok.pages]
  · simp only [hr.fn, hr.readLo, hr.readHi, hr.len]
    exact h.reads
  · simp only [hr.fn]
    exact h.own
  · simp only [hr.done, hr.len, hr.shadow, hr.base]
    exact h.copy
  · simp only [hr.done, hr.len, hr.fn, hr.shadow, hr.base]
    exact h.ended

theorem SpecInv.launch (h : SpecInv s) {f : Worker} {lo hi : Nat} (task : Bool)
    (hc : s.created = 0) (hr : s.running = []) (hf : ReadsOnly f lo hi s.region.len) :
    SpecInv { s with
      region := (specLaunch s.region f lo hi task).2
      created := s.created + if (specLaunch s.region f lo hi task).1 = 0 then 1 else 0 } := by
  unfold specLaunch
  split_ifs with hrun htask <;> try contradiction
  · exact h.keep .rfl h.done
  all_goals
    have hcopy : ∀ d d' : Nat → Byte, ∀ i < s.region.len,
        write d 0 (Disk.read s.region.master 0 s.region.len) i =
          write d' 0 (Disk.read s.region.master 0 s.region.len) i :=
      fun d d' i hi => (launch_copy d hi).trans (launch_copy d' hi).symm
    have hreads : ReadsOnly f lo (min hi s.region.len) s.region.len :=
      fun u v huv => hf u v fun i h1 h2 h3 => huv i h1 (by omega) h3
    refine ⟨⟨h.ok.pos, h.ok.max, h.ok.pages⟩, hreads, ?_, ?_, ?_, nofun, nofun⟩
    · simp [hc, hr]
    · simp [hr]
    · exact fun _ => ⟨rfl, hcopy _ _⟩

theorem SpecInv.begin (h : SpecInv s) (hc : 0 < s.created) :
    SpecInv { s with created := s.created - 1, running := s.region.fn :: s.running } := by
  have hone := h.one
  refine ⟨h.ok, h.reads, ?_, ?_, fun _ => h.copy (by omega), h.ended, h.done⟩
  · simp only [length_cons]
    omega
  · intro f hf
    rcases mem_cons.mp hf with rfl | hf
    · rfl
    · exact h.own f hf

theorem SpecInv.finish (h : SpecInv s) {k : Nat} {f : Worker} (hk : s.running[k]? = some f) :
    SpecInv { s with region := specWorkerEntry f s.region, running := s.running.eraseIdx k } := by
  have hone := h.one
  obtain ⟨hlt, hget⟩ := List.getElem?_eq_some_iff.mp hk
  obtain ⟨-, hcopy⟩ := h.copy (by omega)
  have hown : f = s.region.fn := h.own f (hget ▸ getElem_mem hlt)
  have hlen : (s.running.eraseIdx k).length = 0 := by
    rw [length_eraseIdx_of_lt hlt]
    omega
  have hempty : s.running.eraseIdx k = [] := eq_nil_of_length_eq_zero hlen
  refine ⟨⟨h.ok.pos, h.ok.max, h.ok.pages⟩, h.reads, ?_, ?_, ?_, ?_, fun _ => rfl⟩
  · simp only [hempty, length_nil]
    omega
  · simp [hempty]
  · simp only [hempty, length_nil]
    omega
  · intro _ i hi
    have hw : f s.region.shadow = f s.region.base := by
      rw [hown]
      exact h.reads _ _ fun j _ _ hj => hcopy j hj
    show f.run s.region.shadow i = s.region.fn.run s.region.base i
    rw [Worker.run, Worker.run, hw, hcopy i hi, hown]

theorem specCommit_state (r : Region) : (specCommit r).2.state = .done → r.state = .done := by
  unfold specCommit
  split_ifs with hs
  · exact id
  · exact fun _ => not_not.mp hs

/-- Each step that meets the condition keeps what a launch has recorded. -/
theorem SpecInv.next (h : SpecInv s) {a : SpecAction} (hok : SpecOk s a)
    (hn : specNext s a = some t) : SpecInv t := by
  cases a with
  | launch f lo hi task =>
    cases hn
    exact h.launch task hok.1 hok.2.1 hok.2.2
  | begin =>
    obtain ⟨hc, rfl⟩ := of_guard hn
    exact h.begin hc
  | finish k =>
    obtain ⟨f, hk, rfl⟩ := Option.map_eq_some_iff.mp hn
    exact h.finish hk
  | main m =>
    cases hn
    exact h.keep ⟨rfl, rfl, rfl, rfl, rfl, rfl, rfl, rfl⟩ h.done
  | poll =>
    cases hn
    unfold specPoll
    split_ifs with hd hs
    · exact h.keep ⟨rfl, rfl, rfl, rfl, rfl, rfl, rfl, rfl⟩ fun _ => hd
    · exact h.keep .rfl h.done
    · exact h.keep .rfl h.done
  | wait =>
    cases hn
    unfold specWait
    split_ifs with hd
    · exact h.keep ⟨rfl, rfl, rfl, rfl, rfl, rfl, rfl, rfl⟩ fun _ => hd
    · exact h.keep .rfl h.done
  | commit =>
    cases hn
    refine h.keep (specCommit_same _) fun hd => ?_
    rw [(specCommit_same _).done]
    exact h.done (specCommit_state _ hd)
  | abort =>
    cases hn
    exact h.keep ⟨rfl, rfl, rfl, rfl, rfl, rfl, rfl, rfl⟩ nofun

theorem specInv_of_reach {master : Nat → Byte} {len : Nat}
    (hr : specRegionCreate master len true = some r) (h : (specSystem r).Reach SpecOk s) :
    SpecInv s := by
  obtain ⟨hok, hfn, hdone, hstate⟩ := specRegionCreate_ok hr
  have hinit : SpecInv ⟨r, 0, []⟩ := by
    refine ⟨hok, ?_, Nat.zero_le 1, nofun, nofun, ?_, ?_⟩
    · rw [hfn]
      exact fun _ _ _ => rfl
    · rw [hdone]
      exact nofun
    · rw [hstate]
      exact nofun
  exact h.invariant hinit fun _ _ _ _ hi hok hn => hi.next hok hn

end

section
variable {s : Spec} (hi : SpecInv s) (hc : ¬Conflict s.region)
include hi hc

theorem SpecInv.clean_page {i : Nat} (hl : i < s.region.len)
    (hp : wdirty s.region (i / specPage) = true ∨ wread s.region (i / specPage) = true) :
    s.region.master i = s.region.base i := by
  have hm : mdirty s.region (i / specPage) = false := by
    by_contra hm
    refine hc ⟨_, hi.ok.page_lt hl, ?_⟩
    rw [conflictAt, Bool.eq_true_of_not_eq_false hm, Bool.true_and, Bool.or_eq_true]
    exact hp
  exact mdirty_eq_false.mp hm i hl rfl

theorem SpecInv.same_stores : s.region.fn s.region.master = s.region.fn s.region.base :=
  hi.reads _ _ fun _ h1 h2 h3 => hi.clean_page hc h3 (.inr (wread_of_mem h3 h1 h2))

theorem SpecInv.byte_iff (hs : s.region.state = .done) (h0 : Fresh s.region) {i : Nat}
    (hl : i < s.region.len) :
    (specCommit s.region).2.master i = s.region.fn.run s.region.master i ↔
      ((s.region.fn s.region.base i).isSome → s.region.master i = s.region.base i) := by
  have hshadow := hi.ended (hi.done hs) i hl
  rw [(specCommit_of_noConflict hi.ok hs h0 hc).2 i hl, hshadow]
  simp only [Worker.run, hi.same_stores hc]
  by_cases hw : wdirty s.region (i / specPage) = true
  · rw [if_pos hw, hi.clean_page hc hl (.inl hw)]
    exact ⟨fun _ _ => rfl, fun _ => rfl⟩
  -- the page is as it was at the launch, so a store there put back the byte it found
  have hsame := wdirty_eq_false.mp (Bool.eq_false_of_not_eq_true hw) i hl rfl
  rw [hshadow, Worker.run] at hsame
  rw [if_neg hw]
  cases hv : s.region.fn s.region.base i with
  | none => simp
  | some v =>
    rw [hv] at hsame
    simp only [Option.getD_some] at hsame
    simp [hsame]

end

/-- As long as no worker outlives its abort into the next launch, the first commit of a
launch is serializable unless the worker stores into a byte that main changed and
leaves its page as it was. -/
theorem speculation_serializable_iff {master : Nat → Byte} {len : Nat} {r : Region} {s : Spec}
    (hr : specRegionCreate master len true = some r) (h : (specSystem r).Reach SpecOk s)
    (h0 : Fresh s.region) : Serializable s.region.fn s.region.master s.region ↔
      (s.region.state = .done → ¬Conflict s.region → ∀ i < s.region.len,
        (s.region.fn s.region.base i).isSome → s.region.master i = s.region.base i) := by
  have hi := specInv_of_reach hr h
  by_cases hs : s.region.state = .done
  swap
  · have hc : specCommit s.region = (-1, s.region) := if_pos hs
    simp [Serializable, hc, hs]
  by_cases hc : Conflict s.region
  · obtain ⟨hneg, hm⟩ := specCommit_of_conflict hi.ok hs h0 hc
    simp only [hc, not_true_eq_false, false_implies, implies_true, iff_true]
    exact ⟨fun h => absurd h (not_le.mpr hneg), fun _ => hm⟩
  · have hpos := (specCommit_of_noConflict hi.ok hs h0 hc).1
    simp only [Serializable, hpos, not_lt.mpr hpos, hc, hs, forall_const, false_implies, and_true,
      not_false_eq_true]
    exact forall₂_congr fun i hl => hi.byte_iff hc hs h0 hl

def storeAt (a : Nat) (v : Byte) : Worker := fun _ i => if i = a then some v else none

theorem storeAt_readsOnly (a : Nat) (v : Byte) (lo hi len : Nat) :
    ReadsOnly (storeAt a v) lo hi len :=
  fun _ _ _ => rfl

def oneByte : Region :=
  { master := fun _ => 0, shadow := fun _ => 0, base := fun _ => 0, len := 1, npages := 1
    fn := fun _ _ => none, done := false, readLo := 0, readHi := 0, workerDirty := 0, mainDirty := 0
    conflicts := 0, rawConflicts := 0, merged := 0, state := .idle }

theorem oneByte_created : specRegionCreate (fun _ => 0) 1 true = some oneByte := rfl

/-- A launch is aborted and its worker ends before the next one. -/
def secondLaunch : List SpecAction :=
  [.launch (storeAt 0 9) 0 1 true, .begin, .abort, .finish 0,
    .launch (storeAt 0 7) 0 1 true, .begin, .main fun _ => 0, .finish 0, .wait]

theorem secondLaunch_ok : (specSystem oneByte).RunOk SpecOk ⟨oneByte, 0, []⟩ secondLaunch := by
  refine ⟨⟨rfl, rfl, storeAt_readsOnly _ _ _ _ _⟩, ?_⟩
  rintro _ ⟨⟩
  refine ⟨trivial, ?_⟩
  rintro _ ⟨⟩
  refine ⟨trivial, ?_⟩
  rintro _ ⟨⟩
  refine ⟨trivial, ?_⟩
  rintro _ ⟨⟩
  refine ⟨⟨rfl, rfl, storeAt_readsOnly _ _ _ _ _⟩, fun _ _ => ?_⟩
  exact ⟨trivial, fun _ _ => ⟨trivial, fun _ _ =>
    ⟨trivial, fun _ _ => ⟨trivial, fun _ _ => trivial⟩⟩⟩⟩

theorem speculation_serializable_second :
    let q := ((specSystem oneByte).final secondLaunch).region
    Serializable q.fn q.master q ∧ (specCommit q).1 = 1 ∧ (specCommit q).2.master 0 = 7 := by
  refine ⟨(speculation_serializable_iff oneByte_created
    (.final secondLaunch_ok (by decide +kernel)) ?_).mpr fun _ _ i hi _ => ?_,
    by decide +kernel, by decide +kernel⟩
  · exact ⟨by decide +kernel, by decide +kernel⟩
  · obtain rfl := Nat.lt_one_iff.mp hi
    decide +kernel

/-- A worker that stores the 0 it finds at the only byte, and main's write to that
byte meanwhile: the store is lost. -/
def silentStore : List SpecAction :=
  [.launch (storeAt 0 0) 0 0 true, .begin, .finish 0, .main fun _ => 1, .wait]

/-- The worker of an aborted launch ends in the next one, before the new worker has
begun: its stores are merged. -/
def outlivedAbort : List SpecAction :=
  [.launch (storeAt 0 9) 0 1 true, .begin, .abort, .launch (storeAt 0 7) 0 1 true, .finish 0, .wait]

/-- Two commits that return 0 and are not serializable. -/
theorem speculation_not_serializable :
    (∀ as ∈ [silentStore, outlivedAbort], ((specSystem oneByte).run ⟨oneByte, 0, []⟩ as).isSome) ∧
    ∀ as ∈ [silentStore, outlivedAbort],
      let q := ((specSystem oneByte).final as).region
      ¬Serializable q.fn q.master q := by
  refine ⟨by decide +kernel, ?_⟩
  intro as has q h
  simp only [mem_cons, not_mem_nil, or_false] at has
  rcases has with rfl | rfl
  · exact absurd (h.1 (by decide +kernel) 0 (by decide +kernel)) (by decide +kernel)
  · exact absurd (h.1 (by decide +kernel) 0 (by decide +kernel)) (by decide +kernel)

end Cervus.Sched
