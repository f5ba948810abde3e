import Cervus.Lib.Scan
import Cervus.Slab.Model
import Cervus.Lib.Run

/-! The kernel's virtual ranges of `kernel/src/memory/vmalloc.c`: slots of 2 MiB in a bitmap,
reserved by a circular search and backed page by page. -/

namespace Cervus.Vmalloc

open Cervus.Lib Cervus.Pmm Cervus.Slab Function

def granule : Nat := 0x200000
def slotCount : Nat := 2048

structure Vm where
  used : Nat → BitVec 64
  cursor : Fin slotCount
  ready : Bool
  kpm : Nat → Option Nat

/-- What the page allocator and `vmm_map_page` do for one call: they give these frames and then
fail. A frame has an address below `2 ^ 52`. -/
structure Supply where
  frame : Nat → Nat
  mapped : Nat
  bound : mapped ≤ 2 ^ 40

def slotUsed (used : Nat → BitVec 64) (i : Nat) : Bool := testBit used i

def slotMark (used : Nat → BitVec 64) (first n : Nat) : Bool → Nat → BitVec 64
  | true => (List.range' first n).foldl setBit used
  | false => (List.range' first n).foldl clearBit used

def reserveSlots (v : Vm) (n : Nat) : Option Nat × Vm :=
  match scan (slotUsed v.used) slotCount n ((slotCount + n) % 2 ^ 64) v.cursor 0 with
  | none => (none, v)
  | some i =>
    let first := i + 1 - n
    (some first, { v with
      used := slotMark v.used first n true
      cursor := ⟨(i + 1) % slotCount, Nat.mod_lt _ (by decide)⟩ })

def mapRange (frame : Nat → Nat) (base : Nat) : Nat → (Nat → Option Nat) → Nat → Option Nat
  | 0, kpm => kpm
  | n + 1, kpm => update (mapRange frame base n kpm) ((base + n * pageSize) % 2 ^ 64)
    (some (frame n))

def unmapRange (base : Nat) : Nat → (Nat → Option Nat) → Nat → Option Nat
  | 0, kpm => kpm
  | n + 1, kpm => update (unmapRange base n kpm) ((base + n * pageSize) % 2 ^ 64) none

def slotsFor (pages : Nat) : Nat := (pages * pageSize + granule - 1) % 2 ^ 64 / granule

def vmallocPages (v : Vm) (pages : Nat) (s : Supply) : Option Nat × Vm :=
  if v.ready = false ∨ pages = 0 then (none, v)
  else if slotCount < slotsFor pages then (none, v)
  else
    match reserveSlots v (slotsFor pages) with
    | (none, v) => (none, v)
    | (some first, v) =>
      let base := vmallocBase + first * granule
      if pages ≤ s.mapped then (some base, { v with kpm := mapRange s.frame base pages v.kpm })
      else
        (none, { v with
          kpm := unmapRange base s.mapped (mapRange s.frame base s.mapped v.kpm)
          used := slotMark v.used first (slotsFor pages) false })

def vfreePages (v : Vm) (addr pages : Nat) : Vm :=
  let base := addr / pageSize * pageSize
  if vmallocOwns addr = false ∨ pages = 0 then v
  else
    let first := (base - vmallocBase) / granule
    { v with
      kpm := unmapRange base pages v.kpm
      used := slotMark v.used first (slotsFor pages) false }

/-! The search for slots is complete, and over any calls the live ranges do not overlap. -/

open List Prod

/-! One call. -/

theorem slotUsed_mark_true (used : Nat → BitVec 64) (first n j : Nat) :
    slotUsed (slotMark used first n true) j =
      (decide (first ≤ j ∧ j < first + n) || slotUsed used j) := by
  rw [slotUsed, slotMark, testBit_foldl_setBit, slotUsed]
  simp only [mem_range'_1]

theorem slotUsed_mark_false (used : Nat → BitVec 64) (first n j : Nat) :
    slotUsed (slotMark used first n false) j =
      (!decide (first ≤ j ∧ j < first + n) && slotUsed used j) := by
  rw [slotUsed, slotMark, testBit_foldl_clearBit, slotUsed]
  simp only [mem_range'_1]

variable {first n pages : Nat}

theorem slotMark_undo {used : Nat → BitVec 64}
    (h : ∀ j, first ≤ j → j < first + n → slotUsed used j = false) :
    slotMark (slotMark used first n true) first n false = used := by
  refine eq_of_testBit fun j => ?_
  change slotUsed _ j = slotUsed used j
  rw [slotUsed_mark_false, slotUsed_mark_true]
  by_cases hj : first ≤ j ∧ j < first + n
  · simp [hj, h j hj.1 hj.2]
  · simp [hj]

/-- What `reserve_slots` does when it returns a start. -/
structure Reserved (v v' : Vm) (n first : Nat) : Prop where
  free : ∀ j, first ≤ j → j < first + n → slotUsed v.used j = false
  inside : 1 ≤ n → first + n ≤ slotCount
  used : v'.used = slotMark v.used first n true
  ready : v'.ready = v.ready
  kpm : v'.kpm = v.kpm

variable {v v' : Vm} {w w' : World} {r : Nat × Nat}

theorem reserveSlots_none (h : reserveSlots v n = (none, v')) : v' = v := by
  rw [reserveSlots] at h
  split at h
  next => exact (congrArg snd h).symm
  next => cases congrArg fst h

theorem reserveSlots_some (h : reserveSlots v n = (some first, v')) : Reserved v v' n first := by
  rw [reserveSlots] at h
  split at h
  next => cases congrArg fst h
  next i hi =>
    obtain ⟨hf, rfl⟩ := mk.inj h
    cases hf
    have hrun : 1 ≤ n → FreeFrom (slotUsed v.used) slotCount n (i + 1 - n) := fun hn =>
      (scan_sound (by decide) v.cursor.isLt.le (Nat.zero_le _) hn (fun j h1 h2 => by omega) hi).2
    exact ⟨fun j h1 h2 => (hrun (by omega)).2 j h1 h2, fun hn => (hrun hn).1, rfl, rfl, rfl⟩

theorem reserveSlots_isSome (hn : 1 ≤ n) :
    (reserveSlots v n).1 ≠ none ↔ ∃ a, FreeFrom (slotUsed v.used) slotCount n a := by
  have hfuel : n ≤ slotCount → slotCount + n ≤ (slotCount + n) % 2 ^ 64 := fun hle => by
    simp only [slotCount] at hle ⊢
    omega
  rw [← scan_ne_none_iff hn v.cursor.isLt hfuel, reserveSlots]
  cases scan (slotUsed v.used) slotCount n ((slotCount + n) % 2 ^ 64) v.cursor 0 <;> simp

theorem slotsFor_eq (h : pages ≤ 2 ^ 40) :
    pages * pageSize ≤ slotsFor pages * granule ∧ (1 ≤ pages → 1 ≤ slotsFor pages) := by
  simp only [slotsFor, pageSize, granule]
  omega

/-- A free range is found and mapped, or nothing is marked. -/
theorem vmallocPages_cases (v : Vm) (pages : Nat) (s : Supply) :
    (∃ v', vmallocPages v pages s = (none, v') ∧ v'.used = v.used) ∨
      ∃ first v', vmallocPages v pages s = (some (vmallocBase + first * granule), v') ∧ 1 ≤ pages ∧
      pages ≤ 2 ^ 40 ∧
        first + slotsFor pages ≤ slotCount ∧ (∀ j, first ≤ j → j < first + slotsFor pages →
          slotUsed v.used j = false) ∧
        v'.used = slotMark v.used first (slotsFor pages) true ∧
        v'.kpm = mapRange s.frame (vmallocBase + first * granule) pages v.kpm := by
  rw [vmallocPages]
  by_cases h0 : v.ready = false ∨ pages = 0
  · rw [if_pos h0]
    exact .inl ⟨v, rfl, rfl⟩
  by_cases hbig : slotCount < slotsFor pages
  · rw [if_neg h0, if_pos hbig]
    exact .inl ⟨v, rfl, rfl⟩
  rw [if_neg h0, if_neg hbig]
  rcases hr : reserveSlots v (slotsFor pages) with ⟨_ | first, v'⟩
  · exact .inl ⟨v', rfl, congrArg Vm.used (reserveSlots_none hr)⟩
  · have hres := reserveSlots_some hr
    split_ifs with hm
    · have hle := hm.trans s.bound
      have hpos : 1 ≤ pages := by omega
      exact .inr ⟨first, _, rfl, hpos, hle, hres.inside ((slotsFor_eq hle).2 hpos), hres.free,
        hres.used,
        congrArg _ hres.kpm⟩
    · refine .inl ⟨_, rfl, ?_⟩
      rw [hres.used]
      exact slotMark_undo hres.free

/-! Runs. -/

structure World where
  vm : Vm
  live : List (Nat × Nat)

inductive Action
  | alloc (pages : Nat) (s : Supply)
  | free (r : Nat × Nat)

def next (w : World) : Action → Option World
  | .alloc pages s =>
    match vmallocPages w.vm pages s with
    | (none, vm) => some { w with vm }
    | (some base, vm) => some { vm, live := (base, pages) :: w.live }
  | .free r => if r ∈ w.live then some { vm := vfreePages w.vm r.1 r.2, live := w.live.erase r }
    else none

def system (ready : Bool) (kpm : Nat → Option Nat) : System World Action where
  init := { vm := { used := fun _ => 0, cursor := ⟨0, by decide⟩, ready, kpm }, live := [] }
  next := next

def firstOf (r : Nat × Nat) : Nat := (r.1 - vmallocBase) / granule

def Covers (r : Nat × Nat) (j : Nat) : Prop := firstOf r ≤ j ∧ j < firstOf r + slotsFor r.2

structure Placed (r : Nat × Nat) : Prop where
  base : r.1 = vmallocBase + firstOf r * granule
  inside : firstOf r + slotsFor r.2 ≤ slotCount
  room : r.2 * pageSize ≤ slotsFor r.2 * granule
  pages : 1 ≤ r.2
  slots : 1 ≤ slotsFor r.2

structure Inv (w : World) : Prop where
  placed : ∀ r ∈ w.live, Placed r
  used : ∀ j, slotUsed w.vm.used j = true ↔ ∃ r ∈ w.live, Covers r j
  apart : w.live.Pairwise fun r r' => ∀ j, ¬(Covers r j ∧ Covers r' j)

theorem firstOf_new (first pages : Nat) :
    firstOf (vmallocBase + first * granule, pages) = first := by
  rw [firstOf, Nat.add_sub_cancel_left, Nat.mul_div_cancel _ (by decide)]

theorem alloc_inv (h : Inv w) {s : Supply} (hn : next w (.alloc pages s) = some w') : Inv w' := by
  rw [next] at hn
  rcases vmallocPages_cases w.vm pages s with ⟨v', hv, hu⟩ | ⟨first, v', hv, hpos, hle, hin, hfree,
    hu, -⟩
  · rw [hv] at hn
    cases hn
    exact ⟨h.placed, by rw [hu]; exact h.used, h.apart⟩
  rw [hv] at hn
  cases hn
  have hfirst := firstOf_new first pages
  refine ⟨fun r hr => ?_, fun j => ?_, pairwise_cons.mpr ⟨fun r hr j hj => ?_, h.apart⟩⟩
  · rcases mem_cons.mp hr with rfl | hr
    · obtain ⟨hroom, hslots⟩ := slotsFor_eq hle
      exact ⟨by rw [hfirst], by rw [hfirst]; exact hin, hroom, hpos, hslots hpos⟩
    · exact h.placed r hr
  · dsimp only
    rw [hu, slotUsed_mark_true, Bool.or_eq_true, decide_eq_true_eq, h.used j, exists_mem_cons_iff,
      Covers, hfirst]
  · -- a slot of a live range was in use
    rw [Covers, hfirst] at hj
    have hno := hfree j hj.1.1 hj.1.2
    rw [(h.used j).mpr ⟨r, hr, hj.2⟩] at hno
    cases hno

theorem Placed.aligned (h : Placed r) : r.1 / pageSize * pageSize = r.1 := by
  have := h.base
  simp only [vmallocBase, granule, pageSize] at this ⊢
  omega

theorem vmallocEnd_eq : vmallocEnd = vmallocBase + slotCount * granule := rfl

theorem Placed.owned (h : Placed r) : vmallocOwns r.1 = true := by
  have hb := h.base
  have hi := h.inside
  have hs := h.slots
  rw [vmallocOwns, decide_eq_true_eq, vmallocEnd_eq, hb]
  have hlt : firstOf r * granule < slotCount * granule :=
    Nat.mul_lt_mul_of_pos_right (by omega) (by decide)
  exact ⟨Nat.le_add_right _ _, Nat.add_lt_add_left hlt _⟩

/-- Freeing a range keeps the marks. -/
theorem free_inv (h : Inv w) (hn : next w (.free r) = some w') : Inv w' := by
  obtain ⟨hr, hw⟩ := Option.ite_none_right_eq_some.mp hn
  cases hw
  have hp := h.placed r hr
  have hperm := perm_cons_erase hr
  have hsym : ∀ {a b : Nat × Nat}, (∀ j, ¬(Covers a j ∧ Covers b j)) →
    ∀ j, ¬(Covers b j ∧ Covers a j) :=
    fun hab j hj => hab j hj.symm
  have hapart := pairwise_cons.mp ((hperm.pairwise_iff hsym).mp h.apart)
  have hused : (vfreePages w.vm r.1 r.2).used = slotMark w.vm.used (firstOf r)
      (slotsFor r.2) false := by
    have hown := hp.owned
    have hpages := hp.pages
    rw [vfreePages, hp.aligned, if_neg]
    · rfl
    · rw [hown]
      rintro (h0 | h0)
      · cases h0
      · omega
  refine ⟨fun r' hr' => h.placed r' (mem_of_mem_erase hr'), fun j => ?_, hapart.2⟩
  rw [hused, slotUsed_mark_false, Bool.and_eq_true, h.used j, Bool.not_eq_true',
    decide_eq_false_iff_not]
  constructor
  · rintro ⟨hno, r', hr', hc⟩
    rcases mem_cons.mp (hperm.mem_iff.mp hr') with rfl | hm
    · exact absurd hc hno
    · exact ⟨r', hm, hc⟩
  · rintro ⟨r', hr', hc⟩
    exact ⟨fun hc' => hapart.1 r' hr' j ⟨hc', hc⟩, r', mem_of_mem_erase hr', hc⟩

theorem reach_inv {ready : Bool} {kpm : Nat → Option Nat}
    (h : (system ready kpm).Reach System.anyStep w) : Inv w := by
  refine h.invariant ?_ fun w a w' _ hi _ hn => ?_
  · refine ⟨fun r hr => (nomatch hr), fun j => ?_, List.Pairwise.nil⟩
    simp [system, slotUsed, testBit]
  · cases a with
    | alloc pages s => exact alloc_inv hi hn
    | free r => exact free_inv hi hn

/-! The slots that are reserved, and the ranges. -/

structure ReserveOk (v : Vm) (n : Nat) : Prop where
  found : (reserveSlots v n).1 ≠ none ↔ ∃ a, FreeFrom (slotUsed v.used) slotCount n a
  run : ∀ first, (reserveSlots v n).1 = some first → FreeFrom (slotUsed v.used) slotCount n first ∧
    ∀ j, slotUsed (reserveSlots v n).2.used j =
    (decide (first ≤ j ∧ j < first + n) || slotUsed v.used j)

structure RangesOk (w : World) : Prop where
  inside : ∀ r ∈ w.live, vmallocBase ≤ r.1 ∧ r.1 + r.2 * pageSize ≤ vmallocEnd
  disjoint : w.live.Pairwise fun r r' => ∀ a,
    ¬((r.1 ≤ a ∧ a < r.1 + r.2 * pageSize) ∧ (r'.1 ≤ a ∧ a < r'.1 + r'.2 * pageSize))
  failed : ∀ pages s v', vmallocPages w.vm pages s = (none, v') → v'.used = w.vm.used

theorem reserve_ok (v : Vm) (hn : 1 ≤ n) : ReserveOk v n := by
  refine ⟨reserveSlots_isSome hn, fun first hf => ?_⟩
  have hr : Reserved v (reserveSlots v n).2 n first := reserveSlots_some (Prod.ext hf rfl)
  exact ⟨⟨hr.inside hn, hr.free⟩, fun j => by rw [hr.used, slotUsed_mark_true]⟩

theorem Placed.covers (h : Placed r) {a : Nat} (h1 : r.1 ≤ a) (h2 : a < r.1 + r.2 * pageSize) :
    Covers r ((a - vmallocBase) / granule) := by
  have hb := h.base
  have hroom := h.room
  obtain ⟨first, hfirst⟩ : ∃ first, firstOf r = first := ⟨_, rfl⟩
  rw [Covers, hfirst]
  simp only [vmallocBase, granule] at hb hroom ⊢
  omega

theorem Inv.ranges (h : Inv w) : RangesOk w := by
  refine ⟨fun r hr => ?_, ?_, fun pages s v' hv => ?_⟩
  · have hp := h.placed r hr
    have hb := hp.base
    have hi := hp.inside
    have hroom := hp.room
    have hle : (firstOf r + slotsFor r.2) * granule ≤ slotCount * granule :=
      Nat.mul_le_mul_right _ hi
    rw [add_mul] at hle
    rw [vmallocEnd_eq, hb, add_assoc]
    exact ⟨Nat.le_add_right _ _, Nat.add_le_add_left (by omega) _⟩
  · refine h.apart.imp_of_mem fun hr hr' hab a ha => ?_
    exact hab _ ⟨(h.placed _ hr).covers ha.1.1 ha.1.2, (h.placed _ hr').covers ha.2.1 ha.2.2⟩
  · rcases vmallocPages_cases w.vm pages s with ⟨v, he, hu⟩ | ⟨first, v, he, -⟩
    · rw [he] at hv
      obtain rfl := congrArg snd hv
      exact hu
    · rw [he] at hv
      cases congrArg fst hv

/-- For every bitmap and cursor the search is right, and in every state that calls reach the
ranges are. -/
theorem vmalloc_slots (v : Vm) {n : Nat} (hn : 1 ≤ n) {ready : Bool} {kpm : Nat → Option Nat}
    {w : World} (h : (system ready kpm).Reach System.anyStep w) : ReserveOk v n ∧ RangesOk w :=
  ⟨reserve_ok v hn, (reach_inv h).ranges⟩

/-- Two ranges of three and four slots. -/
theorem vmalloc_slots_two :
    ∃ w, (w.live.map snd = [1700, 1500]) ∧ ReserveOk w.vm 5 ∧ RangesOk w := by
  have h0 : (system true fun _ => none).Reach System.anyStep _ := System.Reach.start
  have h1 := h0.step (a := .alloc 1500 ⟨fun i => 4096 * i, 2000, by decide⟩) trivial rfl
  have h2 := h1.step (a := .alloc 1700 ⟨fun i => 4096 * i, 2000, by decide⟩) trivial rfl
  exact ⟨_, rfl, vmalloc_slots _ (by decide) h2⟩

end Cervus.Vmalloc
