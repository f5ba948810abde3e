import Mathlib.Algebra.Order.Sub.Basic
import Mathlib.Data.Nat.Cast.Order.Basic
import Cervus.Pc.Shape

/-! Sequences of calls of the page cache: its lists keep their shape, it has one reference on
the frame of each entry while no counter wraps, and `drop_matching` ends with nothing left to
drop. -/

namespace Cervus.Pc

open List Option
open Function (update update_eq_self update_idem update_of_ne update_self)
open Lib (Chain)
open PageCache (Byte dropBatch pageSize)

def Table.frames (t : Table) (l : List Nat) : List Nat := l.map fun x => (t.entry x).phys

structure Shed (p : Entry → Bool) (s s' : State) (xs : List Nat) : Prop where
  gone : Discarded p s.table xs s'.table
  frames : s'.frames = (s.table.frames xs).foldl Frames.pageUnref s.frames

variable {l xs : List Nat} {at' fuel ne offset size : Nat} {c : Nat → List Nat} {fs id index : U64}
  {r : Except Int Nat} {vn : Option Vnode} {buf src : List Byte}
  {p : Entry → Bool} {pg stop : Nat} {fromIndex : U64}

theorem Shed.append {s s' s'' : State} {ys : List Nat} (h : Shed p s s' xs)
    (h' : Shed p s' s'' ys) : Shed p s s'' (xs ++ ys) := by
  refine ⟨h.gone.append h'.gone, ?_⟩
  rw [h'.frames, h.frames, Table.frames, Table.frames, Table.frames, h.gone.entry_eq, map_append,
    foldl_append]

theorem Entry.bucket_lt (e : Entry) : e.bucket < pcBuckets := Nat.mod_lt _ (by decide)

theorem dropLoop_shed {s : State} (h : Shape s.table c l) (hf : l.length / dropBatch < fuel) :
    ∃ s' xs, s.dropLoop p fuel = some s' ∧ Shed p s s' xs ∧ ∀ x, s'.table.heap x = true →
      p (s'.table.entry x) = false := by
  induction fuel generalizing s c l with
  | zero => exact absurd hf (Nat.not_lt_zero _)
  | succ fuel ih =>
    obtain ⟨xs, hb⟩ := dropBuckets_batch (p := p) (range pcBuckets) [] h
    rw [State.dropLoop]
    generalize Table.dropBuckets p (range pcBuckets) s.table [] = r at hb ⊢
    obtain ⟨c', l', h', hp⟩ := hb.gone.shape h
    have hfreed : r.2 = s.table.frames xs := hb.freed
    have hshed : Shed p s ⟨r.1, r.2.foldl Frames.pageUnref s.frames⟩ xs := ⟨hb.gone, by rw [hfreed]⟩
    split_ifs with hn
    · refine ⟨_, xs, rfl, hshed, fun x hx => ?_⟩
      rw [hshed.gone.entry_eq]
      exact hb.left hn x hx (mem_range.mpr (Entry.bucket_lt _))
    · rw [hfreed, Table.frames, length_map] at hn
      have hlen := hp.length_eq
      rw [length_append] at hlen
      have hfuel : l'.length / dropBatch < fuel := by
        simp only [dropBatch] at hf hn ⊢
        omega
      obtain ⟨s', ys, hs', hshed', hleft⟩ := ih (s :=
        ⟨r.1, r.2.foldl Frames.pageUnref s.frames⟩) h' hfuel
      exact ⟨s', xs ++ ys, hs', hshed.append hshed', hleft⟩

theorem dropMatching_shed {s : State} (h : Shape s.table c l) (fs id fromIndex : U64) :
    ∃ s' xs, s.dropMatching fs id fromIndex = some s' ∧
      Shed (Entry.isFrom fs id fromIndex) s s' xs ∧
      ∀ x, s'.table.heap x = true → (s'.table.entry x).isFrom fs id fromIndex = false :=
  dropLoop_shed h (by rw [h.count]; exact Nat.lt_succ_self _)

theorem victim_eq {s : State} (h : Shape s.table c l) :
    s.victim = (l.reverse.find? fun e => s.frames.pageRefcount (s.table.entry e).phys == 1).getD
      0 :=
  h.lru.reverse.find _ (by rw [length_reverse, h.count])

theorem victim_mem {s : State} (h : Shape s.table c l) (h0 : s.victim ≠ 0) : s.victim ∈ l := by
  rw [victim_eq h] at h0 ⊢
  rcases hx : l.reverse.find? fun e => s.frames.pageRefcount (s.table.entry e).phys == 1 with _ | x
  · rw [hx] at h0
    exact absurd rfl h0
  · exact mem_reverse.mp (mem_of_find?_eq_some hx)

theorem pagecacheShrink_shed (want : Nat) {s : State} (h : Shape s.table c l) :
    ∃ xs, Shed (fun _ => true) s (State.pagecacheShrink want s).1 xs := by
  induction want generalizing s c l with
  | zero => exact ⟨[], .nil _, rfl⟩
  | succ want ih =>
    rw [State.pagecacheShrink]
    by_cases h0 : s.victim = 0
    · rw [if_pos h0]
      exact ⟨[], .nil _, rfl⟩
    · have hm := victim_mem h h0
      rw [if_neg h0, if_neg (h.phys _ hm)]
      have hone : Shed (fun _ => true) s
          ⟨s.table.discard s.victim, s.frames.pageUnref (s.table.entry s.victim).phys⟩ [s.victim] :=
        ⟨.cons ((h.heap _).mpr hm) rfl (.nil _), rfl⟩
      obtain ⟨xs, hxs⟩ := ih (s := ⟨s.table.discard s.victim, _⟩) (h.discard hm)
      exact ⟨_, hone.append hxs⟩

structure Owns (s : State) (l P : List Nat) : Prop where
  ledger : Ledger s.frames (s.table.frames l) P
  apart : (s.table.frames l).Nodup

/-- The lists have their shape, and where `q` holds the references add up; `P` are those the
running call has in its hands. -/
def Inv (q : Prop) (s : State) (P : List Nat) : Prop := ∃ c l, Shape s.table c l ∧ (q → Owns s l P)

structure Ready (q : Prop) (s : State) (P : List Nat) : Prop where
  inv : Inv q s P
  room : q → s.frames.Roomy

variable {q : Prop} {s s' : State} {P P' : List Nat} {f x : Nat}

theorem Inv.frames {F : Frames} (h : Inv q s P)
    (hF : q → ∀ own, (∀ x, s.table.heap x = true → (s.table.entry x).phys ∈ own) →
    Ledger s.frames own P → Ledger F own P') :
    Inv q ⟨s.table, F⟩ P' := by
  obtain ⟨c, l, hs, ho⟩ := h
  refine ⟨c, l, hs, fun hq => ⟨hF hq _ (fun x hx => ?_) (ho hq).ledger, (ho hq).apart⟩⟩
  exact mem_map_of_mem ((hs.heap x).mp hx)

theorem Inv.unref (h : Inv q s (f :: P)) : Inv q ⟨s.table, s.frames.pageUnref f⟩ P :=
  h.frames fun _ _ _ hl => hl.pageUnref

theorem Inv.hand (h : Inv q s (f :: P)) : Inv q ⟨s.table, s.frames.hand f⟩ P :=
  h.frames fun _ _ _ hl => hl.hand

theorem Inv.front (h : Inv q s P) (hx : s.table.heap x = true) :
    Inv q ⟨(s.table.lruUnlink x).lruPushFront x, s.frames⟩ P := by
  obtain ⟨c, l, hs, ho⟩ := h
  have hxl := (hs.heap x).mp hx
  have hp : (s.table.frames l).Perm (s.table.frames (x :: l.erase x)) := (perm_cons_erase hxl).map _
  exact ⟨c, _, hs.front hxl, fun hq => ⟨(ho hq).ledger.perm hp, hp.nodup (ho hq).apart⟩⟩

section
variable (h : Ready q s P)
include h

theorem Ready.setMem (f : Nat) (page : Nat → Byte) : Ready q ⟨s.table, s.frames.setMem f page⟩ P :=
  ⟨h.inv.frames fun _ _ _ hl => hl.setMem page, h.room⟩

theorem Ready.ref (hx : s.table.heap x = true) :
    Inv q ⟨s.table, s.frames.pageRef (s.table.entry x).phys⟩ ((s.table.entry x).phys :: P) :=
  h.inv.frames fun hq _ hown hl => hl.pageRef (hl.refs_own (hown x hx)) (h.room hq _)

theorem Ready.touch (hx : s.table.heap x = true) (page : Nat → Byte) :
    Ready q ⟨s.table,
      ((s.frames.pageRef (s.table.entry x).phys).setMem (s.table.entry x).phys page).pageUnref
      (s.table.entry x).phys⟩ P := by
  refine ⟨((h.ref hx).frames fun _ _ _ hl => hl.setMem page).unref, fun hq => ?_⟩
  -- the counter is what it was
  obtain ⟨c, l, hs, ho⟩ := h.inv
  have hr := h.room hq (s.table.entry x).phys
  have hl := (ho hq).ledger
  have h0 := hl.refs_own (mem_map_of_mem ((hs.heap x).mp hx))
  have hslot := hl.slot _ (.inr h0)
  generalize (s.table.entry x).phys = f at hr h0 hslot
  refine (h.room hq).of_le fun g => .inl ?_
  have hne : s.frames.refs f + 1 ≠ 1 := by omega
  simp only [Frames.pageRef, if_pos hslot, Nat.mod_eq_of_lt hr, Frames.setMem, Frames.pageUnref,
    update_self,
    if_neg hne, if_neg (Nat.succ_ne_zero _), Nat.add_sub_cancel, update_idem, update_eq_self]
  exact le_refl _

theorem Ready.lend (hx : s.table.heap x = true) :
    Inv q ⟨s.table, (s.frames.pageRef (s.table.entry x).phys).hand (s.table.entry x).phys⟩ P :=
  (h.ref hx).hand

theorem Ready.shed (hs : Shed p s s' xs) : Ready q s' P := by
  obtain ⟨c, l, hl, ho⟩ := h.inv
  obtain ⟨c', l', hl', hp⟩ := hs.gone.shape hl
  refine ⟨⟨c', l', hl', fun hq => ?_⟩, fun hq => hs.frames ▸ (h.room hq).unrefs _⟩
  have hfr : s'.table.frames l' = s.table.frames l' := by
    rw [Table.frames, hs.gone.entry_eq, Table.frames]
  have hown : (s.table.frames l).Perm (s.table.frames xs ++ s.table.frames l') := by
    have := hp.map fun x => (s.table.entry x).phys
    rwa [map_append] at this
  refine ⟨?_, ?_⟩
  · rw [hs.frames, hfr]
    exact ((ho hq).ledger.perm hown).release.unrefs
  · rw [hfr]
    exact (nodup_append.mp (hown.nodup (ho hq).apart)).2.1

end

structure Fresh (q : Prop) (s : State) (f : Nat) : Prop where
  ready : Ready q s [f]
  phys : f ≠ 0
  unused : q → ∀ x, s.table.heap x = true → (s.table.entry x).phys ≠ f

theorem Ready.take (h : Ready q s []) (h0 : f ≠ 0) (hf : s.frames.free f = true) :
    Fresh q ⟨s.table, Frames.fresh { s.frames with free := update s.frames.free f false } f⟩ f := by
  obtain ⟨c, l, hs, ho⟩ := h.inv
  refine ⟨⟨⟨c, l, hs, fun hq => ⟨((ho hq).ledger.take hf).1, (ho hq).apart⟩⟩, fun hq => ?_⟩, h0,
    fun hq x hx he => ?_⟩
  · have hr : Frames.Roomy { s.frames with free := update s.frames.free f false } := h.room hq
    exact hr.fresh
  · exact ((ho hq).ledger.take hf).2 (he ▸ mem_map_of_mem ((hs.heap x).mp hx))

theorem pmmAlloc_take {F F' : Frames} (h0 : f ≠ 0) (h : F.pmmAlloc f = some F') :
    F.free f = true ∧ F' = { F with free := update F.free f false } := by
  rw [Frames.pmmAlloc, if_neg h0] at h
  obtain ⟨hf, he⟩ := ite_none_right_eq_some.mp h
  exact ⟨hf, (some.inj he).symm⟩

theorem Ready.alloc {f₁ f₂ : Nat} (h : Ready q s []) (ha : s.pageAllocUser f₁ f₂ = some (s', f)) :
    (f = 0 ∧ Ready q s' []) ∨ Fresh q s' f := by
  obtain ⟨F, hF, ha⟩ := bind_eq_some_iff.mp ha
  by_cases h1 : f₁ = 0
  · obtain ⟨c, l, hs, -⟩ := h.inv
    obtain ⟨xs, hx⟩ := pagecacheShrink_shed 256 hs
    have hsh := h.shed hx
    rw [if_neg (not_not.mpr h1)] at ha
    generalize (State.pagecacheShrink 256 s).1 = u at ha hsh
    obtain ⟨G, hG, ha⟩ := bind_eq_some_iff.mp ha
    by_cases h2 : f₂ = 0
    · rw [if_neg (not_not.mpr h2)] at ha
      cases ha
      exact .inl ⟨rfl, hsh⟩
    · rw [if_pos h2] at ha
      cases ha
      obtain ⟨hf, rfl⟩ := pmmAlloc_take h2 hG
      exact .inr (hsh.take h2 hf)
  · rw [if_pos h1] at ha
    cases ha
    obtain ⟨hf, rfl⟩ := pmmAlloc_take h1 hF
    exact .inr (h.take h1 hf)

theorem Fresh.setMem (h : Fresh q s f) (page : Nat → Byte) :
    Fresh q ⟨s.table, s.frames.setMem f page⟩ f :=
  ⟨h.ready.setMem f page, h.phys, h.unused⟩

def Table.scratch (t : Table) (ne : Nat) (x : Entry) : Table :=
  { t with entry := update t.entry ne x }

theorem Table.scratch_eq {t : Table} (x : Entry) (hne : t.heap ne = false) :
    (t.kzalloc ne x).kfree ne = t.scratch ne x := by
  have hh : update (update t.heap ne true) ne false = t.heap := by
    rw [update_idem, ← hne, update_eq_self]
  exact congrArg (fun h => { t.scratch ne x with heap := h }) hh

theorem Fresh.scratch (h : Fresh q s f) (hne : s.table.heap ne = false) (x : Entry) :
    Fresh q ⟨s.table.scratch ne x, s.frames⟩ f := by
  have hother : ∀ y, s.table.heap y = true → (s.table.scratch ne x).entry y = s.table.entry y := by
    intro y hy
    have hyn : y ≠ ne := by
      rintro rfl
      exact Bool.false_ne_true (hne.symm.trans hy)
    exact update_of_ne hyn _ _
  obtain ⟨c, l, hs, ho⟩ := h.ready.inv
  have hnl : ne ∉ l := fun hm => Bool.false_ne_true (hne.symm.trans ((hs.heap ne).mpr hm))
  have hfr : (s.table.scratch ne x).frames l = s.table.frames l :=
    map_congr_left fun y hy => by rw [hother y ((hs.heap y).mpr hy)]
  refine ⟨⟨⟨c, l, hs.kzalloc hnl x, fun hq => ⟨?_, ?_⟩⟩, h.ready.room⟩, h.phys, fun hq y hy => ?_⟩
  · rw [hfr]
    exact (ho hq).ledger
  · rw [hfr]
    exact (ho hq).apart
  · rw [hother y hy]
    exact h.unused hq y hy

theorem Fresh.enter (h : Fresh q s f) (hne : s.table.heap ne = false) (h0 : ne ≠ 0)
    (hlt : ne < 2 ^ 64) (hp : (s.table.entry ne).phys = f)
    (hkey : s.table.findLocked (s.table.entry ne).fs (s.table.entry ne).id
    (s.table.entry ne).index = 0) :
    Inv q ⟨{ s.table.enter ne with heap := update s.table.heap ne true },
      (s.frames.pageRef f).hand f⟩ [] := by
  obtain ⟨c, l, hs, ho⟩ := h.ready.inv
  have hnl : ne ∉ l := fun hm => Bool.false_ne_true (hne.symm.trans ((hs.heap ne).mpr hm))
  subst hp
  refine ⟨_, _, hs.enter hnl h0 hlt h.phys fun x hx => hs.find_none hkey hx, fun hq => ?_⟩
  have hl := (ho hq).ledger
  have hr : s.frames.refs (s.table.entry ne).phys ≠ 0 := by
    rw [hl.refs, count_cons_self]
    omega
  have hnew : (s.table.entry ne).phys ∉ s.table.frames l := by
    intro hm
    obtain ⟨x, hx, he⟩ := mem_map.mp hm
    exact h.unused hq x ((hs.heap x).mpr hx) he
  exact ⟨(hl.pageRef hr (h.ready.room hq _)).keep.hand, nodup_cons.mpr ⟨hnew, (ho hq).apart⟩⟩

theorem getEnd_inv (h : Fresh q s f) (hg : s.getEnd fs id index f ne = some (s', r)) :
    Inv q s' [] := by
  rw [State.getEnd] at hg
  by_cases h0 : ne = 0
  · rw [if_pos h0] at hg
    cases hg
    exact h.ready.inv.hand
  rw [if_neg h0] at hg
  obtain ⟨hnew, hg⟩ := ite_none_left_eq_some.mp hg
  obtain ⟨hne, hlt⟩ := not_or.mp hnew
  have hne := Bool.eq_false_of_not_eq_true hne
  have hsc := h.scratch hne ⟨fs, id, index, f⟩
  have hat : (s.table.scratch ne ⟨fs, id, index, f⟩).entry ne = ⟨fs, id, index, f⟩ := update_self ..
  by_cases he : (s.table.kzalloc ne ⟨fs, id, index, f⟩).findLocked fs id index = 0
  · rw [if_neg (not_not.mpr he)] at hg
    cases hg
    exact hsc.enter hne h0 (Nat.lt_of_not_le hlt) (by rw [hat]) (by rw [hat]; exact he)
  · rw [if_pos he, Table.scratch_eq _ hne] at hg
    cases hg
    obtain ⟨c, l, hs, -⟩ := hsc.ready.inv
    exact (hsc.ready.lend ((hs.heap _).mpr (hs.find_mem he))).unref

section
variable (h : Ready q s [])
include h

theorem pagecacheGet_inv {o : Meets} (hg : s.pagecacheGet vn index o = some (s', r)) :
    Inv q s' [] := by
  rw [State.pagecacheGet.eq_def] at hg
  rcases vn with _ | vn
  · cases hg
    exact h.inv
  simp only at hg
  split_ifs at hg with hr he
  · obtain ⟨c, l, hs, -⟩ := h.inv
    have hx := (hs.heap _).mpr (hs.find_mem he)
    cases hg
    exact (h.lend hx).front hx
  · obtain ⟨⟨u, f⟩, hu, hg⟩ := bind_eq_some_iff.mp hg
    rcases h.alloc hu with ⟨rfl, hnone⟩ | hfresh
    · rw [if_pos rfl] at hg
      cases hg
      exact hnone.inv
    · rw [if_neg hfresh.phys] at hg
      split at hg
      · cases hg
        exact hfresh.ready.inv.unref
      · exact getEnd_inv (hfresh.setMem _) hg
  · cases hg
    exact h.inv

theorem pagecachePeek_inv : Inv q (s.pagecachePeek vn index).1 [] := by
  rw [State.pagecachePeek.eq_def]
  rcases vn with _ | vn
  · exact h.inv
  · simp only
    split_ifs with he
    · obtain ⟨c, l, hs, -⟩ := h.inv
      exact h.lend ((hs.heap _).mpr (hs.find_mem he))
    · exact h.inv

theorem copyIn_ready (hc : s.copyIn fs id pg at' size src = some s') : Ready q s' [] := by
  rw [State.copyIn] at hc
  obtain ⟨c, l, hs, -⟩ := h.inv
  by_cases he : s.table.findLocked fs id (BitVec.ofNat 64 pg) = 0
  · rw [if_pos he] at hc
    cases hc
    exact h
  · have hm := hs.find_mem he
    rw [if_neg he, if_neg (hs.phys _ hm)] at hc
    obtain ⟨-, hc⟩ := ite_none_right_eq_some.mp hc
    cases hc
    exact h.touch ((hs.heap _).mpr hm) _

theorem wroteLoop_ready (hw : s.wroteLoop fs id offset stop buf fuel pg = some s') :
    Ready q s' [] := by
  induction fuel generalizing s pg with
  | zero => exact absurd hw (by simp [State.wroteLoop])
  | succ fuel ih =>
    rw [State.wroteLoop] at hw
    by_cases hlt : pg * pageSize % 2 ^ 64 < stop
    · rw [if_pos hlt] at hw
      obtain ⟨u, hu, hw⟩ := bind_eq_some_iff.mp hw
      exact ih (copyIn_ready h hu) hw
    · rw [if_neg hlt] at hw
      cases hw
      exact h

theorem pagecacheWrote_ready {offset : U64}
    (hw : s.pagecacheWrote vn offset buf = some s') : Ready q s' [] := by
  rw [State.pagecacheWrote.eq_def] at hw
  rcases vn with _ | vn
  · cases hw
    exact h
  · simp only at hw
    split_ifs at hw with he
    · cases hw
      exact h
    · exact wroteLoop_ready h hw

theorem dropMatching_ready (hd : s.dropMatching fs id fromIndex = some s') : Ready q s' [] := by
  obtain ⟨c, l, hs, -⟩ := h.inv
  obtain ⟨u, xs, hu, hx, -⟩ := dropMatching_shed hs fs id fromIndex
  obtain rfl := some.inj (hu.symm.trans hd)
  exact h.shed hx

theorem zeroTail_ready {newSize : Nat} : Ready q (s.zeroTail fs id newSize) [] := by
  obtain ⟨c, l, hs, -⟩ := h.inv
  rw [State.zeroTail]
  split_ifs with h0
  · exact h
  · by_cases he : s.table.findLocked fs id (BitVec.ofNat 64 (newSize / pageSize)) = 0
    · rw [if_pos he]
      exact h
    · have hm := hs.find_mem he
      rw [if_neg he, if_neg (hs.phys _ hm)]
      exact h.touch ((hs.heap _).mpr hm) _

theorem drop_call_ready {b : Prop} [Decidable b]
    (hd : (if b then some s else s.dropMatching fs id fromIndex) = some s') : Ready q s' [] := by
  split_ifs at hd with hb
  · cases hd
    exact h
  · exact dropMatching_ready h hd

/-- Every step keeps the shape of the table and the ledger of the frames. -/
theorem next_inv {a : Act} (hn : next s a = some s') : Inv q s' [] := by
  cases a with
  | get vn index o =>
    obtain ⟨⟨u, r⟩, hu, rfl⟩ := map_eq_some_iff.mp hn
    exact pagecacheGet_inv h hu
  | peek vn index =>
    cases hn
    exact pagecachePeek_inv h
  | wrote vn offset buf => exact (pagecacheWrote_ready h hn).inv
  | truncated vn newSize =>
    rcases vn with _ | vn
    · cases hn
      exact h.inv
    · simp only [next, State.pagecacheTruncated, map_eq_some_iff] at hn
      obtain ⟨u, hu, rfl⟩ := hn
      exact (zeroTail_ready (dropMatching_ready h hu)).inv
  | invalidateKey fs id => exact (drop_call_ready h hn).inv
  | invalidate vn =>
    rcases vn with _ | vn
    · cases hn
      exact h.inv
    · simp only [next, State.pagecacheInvalidate] at hn
      exact (dropMatching_ready h hn).inv
  | vnodeReleased vn =>
    rcases vn with _ | vn
    · cases hn
      exact h.inv
    · simp only [next, State.pagecacheVnodeReleased] at hn
      by_cases hk : (keyOf vn).2.2 = true
      · rw [if_pos hk] at hn
        cases hn
        exact h.inv
      · rw [if_neg hk] at hn
        exact (drop_call_ready h hn).inv
  | shrink want =>
    obtain ⟨c, l, hs, -⟩ := h.inv
    obtain ⟨xs, hx⟩ := pagecacheShrink_shed want hs
    cases hn
    exact (h.shed hx).inv
  | allocate f₁ f₂ =>
    obtain ⟨⟨u, f⟩, hu, rfl⟩ := map_eq_some_iff.mp hn
    rcases h.alloc hu with ⟨rfl, hnone⟩ | hfresh
    · exact hnone.inv
    · simp only [if_neg hfresh.phys]
      exact hfresh.ready.inv.hand
  | share f =>
    obtain ⟨h0, hn⟩ := ite_none_left_eq_some.mp hn
    cases hn
    exact (h.inv.frames fun hq _ _ hl => hl.pageRef (hl.refs_held h0) (h.room hq f)).hand
  | release f =>
    obtain ⟨h0, hn⟩ := ite_none_left_eq_some.mp hn
    cases hn
    exact (h.inv.frames fun _ _ _ hl => hl.back h0).unref

end

/-- The bytes written lie where the offsets of the loop of `pagecache_wrote` do not wrap. -/
def Act.InFile : Act → Prop
  | .wrote _ offset buf => offset.toNat + buf.length + pageSize ≤ 2 ^ 64
  | _ => True

def Shaped (s : State) : Prop := ∃ c l, Shape s.table c l

theorem copyIn_returns (h1 : at' + size ≤ pageSize)
    (h2 : size ≤ src.length) : ∃ s', s.copyIn fs id pg at' size src = some s' := by
  rw [State.copyIn]
  simp only
  split_ifs with h0 hp hc
  · exact ⟨_, rfl⟩
  · exact ⟨_, rfl⟩
  · exact ⟨_, rfl⟩
  · exact absurd ⟨h1, h2⟩ hc

theorem turn_bounds {a : Nat} (hin : stop + pageSize ≤ 2 ^ 64) (ho : offset ≤ stop)
    (hpg : offset < a + pageSize) (hlt : a < stop) {cs ce : Nat}
    (hcs : cs = if a < offset then offset else a)
    (hce : ce = if stop < (a + pageSize) % 2 ^ 64 then stop else (a + pageSize) % 2 ^ 64) :
    cs - a + (ce + 2 ^ 64 - cs) % 2 ^ 64 ≤ pageSize ∧
      (ce + 2 ^ 64 - cs) % 2 ^ 64 ≤ stop - offset - (cs - offset) := by
  have hcs' : a ≤ cs ∧ offset ≤ cs ∧ cs ≤ ce := by split_ifs at hcs hce <;> omega
  have hce' : ce ≤ stop ∧ ce ≤ a + pageSize := by split_ifs at hce <;> omega
  omega

theorem wroteLoop_returns (hin : offset + buf.length + pageSize ≤ 2 ^ 64)
    (hpg : offset < pg * pageSize + pageSize) (hle : pg * pageSize < offset + buf.length + pageSize)
    (hfuel : offset + buf.length + pageSize ≤ pg * pageSize + fuel * pageSize) :
    ∃ s', s.wroteLoop fs id offset (offset + buf.length) buf fuel pg = some s' := by
  induction fuel generalizing s pg with
  | zero => omega
  | succ fuel ih =>
    rw [Nat.succ_mul] at hfuel
    rw [State.wroteLoop, Nat.mod_eq_of_lt (show pg * pageSize < 2 ^ 64 by omega)]
    simp only
    by_cases hlt : pg * pageSize < offset + buf.length
    · obtain ⟨hpage, hbuf⟩ := turn_bounds hin (Nat.le_add_right _ _) hpg hlt rfl rfl
      rw [Nat.add_sub_cancel_left, ← length_drop] at hbuf
      obtain ⟨u, hu⟩ := copyIn_returns hpage hbuf
      have hpos : 0 < pageSize := by decide
      have hmul : pg ≤ pg * pageSize := Nat.le_mul_of_pos_right _ hpos
      have hnext : (pg + 1) % 2 ^ 64 = pg + 1 := Nat.mod_eq_of_lt (by omega)
      rw [if_pos hlt, hu, bind_some, hnext]
      refine ih ?_ ?_ ?_ <;> rw [Nat.succ_mul] <;> omega
    · rw [if_neg hlt]
      exact ⟨s, rfl⟩

/-- Within the offsets of a file, the loop over the pages of a write ends. -/
theorem pagecacheWrote_returns {offset : U64} (h : (Act.wrote vn offset buf).InFile) :
    ∃ s', s.pagecacheWrote vn offset buf = some s' := by
  rw [State.pagecacheWrote.eq_def]
  rcases vn with _ | vn
  · exact ⟨s, rfl⟩
  simp only
  split_ifs with he
  · exact ⟨s, rfl⟩
  have hin : offset.toNat + buf.length + pageSize ≤ 2 ^ 64 := h
  have hstop : (offset.toNat + buf.length) % 2 ^ 64 = offset.toNat + buf.length :=
    Nat.mod_eq_of_lt (lt_of_lt_of_le (Nat.lt_add_of_pos_right (by decide)) hin)
  have hdiv := Nat.div_add_mod offset.toNat pageSize
  have hdiv' := Nat.div_add_mod buf.length pageSize
  have hmod := Nat.mod_lt offset.toNat (show 0 < pageSize by decide)
  have hmod' := Nat.mod_lt buf.length (show 0 < pageSize by decide)
  rw [mul_comm] at hdiv hdiv'
  rw [hstop]
  refine wroteLoop_returns hin (by omega) (by omega) ?_
  rw [add_mul]
  omega

/-- The count of the frame of an entry is one more than the references of callers, and no other
entry has the frame. -/
structure Owned (s : State) : Prop where
  one : ∀ x, s.table.heap x = true → s.frames.refs (s.table.entry x).phys =
    s.frames.held (s.table.entry x).phys + 1
  kept : ∀ x, s.table.heap x = true → s.frames.free (s.table.entry x).phys = false
  apart : ∀ x y, s.table.heap x = true → s.table.heap y = true →
    (s.table.entry x).phys = (s.table.entry y).phys → x = y

theorem Owns.owned (hs : Shape s.table c l) (h : Owns s l []) : Owned s := by
  have hmem : ∀ x, s.table.heap x = true → (s.table.entry x).phys ∈ s.table.frames l :=
    fun x hx => mem_map_of_mem ((hs.heap x).mp hx)
  refine ⟨fun x hx => ?_, fun x hx => h.ledger.not_free (h.ledger.refs_own (hmem x hx)),
    fun x y hx hy he => ?_⟩
  · rw [h.ledger.refs, count_eq_one_of_mem h.apart (hmem x hx), count_nil]
    omega
  · exact inj_on_of_nodup_map h.apart ((hs.heap x).mp hx) ((hs.heap y).mp hy) he

theorem shape_start (gFrames : Nat) (pool : Nat → Bool) :
    Shape (start gFrames pool).table (fun _ => []) [] where
  hash := ⟨fun _ => rfl, fun _ => nodup_nil, fun _ _ _ hx => by simp at hx⟩
  lru := ⟨rfl, nodup_nil, rfl⟩
  place := by simp
  keys := by simp
  count := rfl
  heap := by simp [start]
  addr := by simp
  phys := by simp

/-- Every frame of the allocator has a counter, as `pageref_init` leaves it when the table of
counters was allocated. -/
def Tracked (gFrames : Nat) (pool : Nat → Bool) : Prop :=
  ∀ f, pool f = true → (start gFrames pool).frames.slot f

theorem inv_start {pool : Nat → Bool} (hq : q → Tracked gFrames pool) :
    Inv q (start gFrames pool) [] := by
  refine ⟨_, [], shape_start gFrames pool, fun h =>
    ⟨⟨fun _ => rfl, fun _ _ => rfl, fun f hf => ?_⟩, nodup_nil⟩⟩
  exact hq h f (hf.resolve_right (not_not.mpr rfl))

theorem reach_inv {pool : Nat → Bool} {ok : State → Act → Prop} (ht : q → Tracked gFrames pool)
    (hq : q → ∀ s a, ok s a → s.frames.Roomy) (h : (cache gFrames pool).Reach ok s) :
    Inv q s [] := by
  refine h.invariant (I := fun s => Inv q s []) (inv_start ht) fun s a s' _ hi ha hn => ?_
  exact next_inv ⟨hi, fun hq' => hq hq' s a ha⟩ hn

/-- In any sequence of calls the lists keep their shape and `drop_matching` returns with nothing
left that it looks for. Where every frame has a counter, and while none is at its last value,
the cache has one reference on the frame of each entry. -/
theorem cache_kept (gFrames : Nat) (pool : Nat → Bool) :
    (∀ s, (cache gFrames pool).Reach (fun _ a => a.InFile) s → Shaped s ∧ ∀ fs id fromIndex : U64,
      ∃ s', s.dropMatching fs id fromIndex = some s' ∧ Shaped s' ∧
        ∀ x, s'.table.heap x = true → (s'.table.entry x).isFrom fs id fromIndex = false) ∧
    (Tracked gFrames pool →
      ∀ s, (cache gFrames pool).Reach (fun s a => a.InFile ∧ s.frames.Roomy) s → Owned s) := by
  refine ⟨fun s h => ?_, fun ht s h => ?_⟩
  · obtain ⟨c, l, hs, -⟩ := reach_inv (q := False) False.elim False.elim h
    refine ⟨⟨c, l, hs⟩, fun fs id fromIndex => ?_⟩
    obtain ⟨s', xs, hd, hx, hleft⟩ := dropMatching_shed hs fs id fromIndex
    obtain ⟨c', l', hs', -⟩ := hx.gone.shape hs
    exact ⟨s', hd, ⟨c', l', hs'⟩, hleft⟩
  · obtain ⟨c, l, hs, ho⟩ := reach_inv (q := True) (fun _ => ht) (fun _ _ _ ha => ha.2) h
    exact (ho trivial).owned hs

section
/-! A machine with one frame, and a file whose first page is read into it. -/

def oneFrame : Nat → Bool := fun f => f == 0x100000
def onePool : System State Act := cache 0x101 oneFrame
def plainFile : Option Vnode := some ⟨1, none, true⟩
def readFirst : Act := .get plainFile 0 ⟨0x100000, 0, [], 1⟩

theorem cache_kept_readFirst : Owned (onePool.final [readFirst]) ∧
    (∃ s', (onePool.final [readFirst]).dropMatching 1 0 0 = some s' ∧
      ∀ x, s'.table.heap x = true → (s'.table.entry x).isFrom 1 0 0 = false) ∧
    (onePool.final [readFirst]).table.heap 1 = true := by
  have hroom : onePool.init.frames.Roomy := fun _ => (by decide : 0 + 1 < 2 ^ 32)
  have hsome : (onePool.run onePool.init [readFirst]).isSome := by decide +kernel
  have hok : onePool.RunOk (fun _ a => a.InFile) onePool.init [readFirst] :=
    ⟨trivial, fun _ _ => trivial⟩
  have hok' : onePool.RunOk (fun s a => a.InFile ∧ s.frames.Roomy) onePool.init [readFirst] :=
    ⟨⟨trivial, hroom⟩, fun _ _ => trivial⟩
  have hshape := (cache_kept 0x101 oneFrame).1 _ (System.Reach.final hok hsome)
  obtain ⟨s', hd, -, hleft⟩ := hshape.2 1 0 0
  have htracked : Tracked 0x101 oneFrame := by
    intro f hf
    rw [beq_iff_eq.mp hf]
    decide
  exact ⟨(cache_kept 0x101 oneFrame).2 htracked _ (System.Reach.final hok' hsome), ⟨s', hd, hleft⟩,
    by decide +kernel⟩

theorem pagecacheWrote_returns_readFirst :
    ∃ s', (onePool.final [readFirst]).pagecacheWrote plainFile 0 [7] = some s' :=
  pagecacheWrote_returns (show 0 + 1 + pageSize ≤ 2 ^ 64 by decide)

/-- The frames after a call handed `n` more references on `f` to callers. -/
def Frames.lent (F : Frames) (f n : Nat) : Frames :=
  { F with
    refs := update F.refs f ((F.refs f + n) % 2 ^ 32)
    held := update F.held f (F.held f + n) }

variable {F : Frames} {t : Table}

theorem Frames.lent_zero (h : F.refs f < 2 ^ 32) : F.lent f 0 = F := by
  rw [Frames.lent, add_zero, add_zero, Nat.mod_eq_of_lt h, update_eq_self, update_eq_self]

theorem Frames.lent_succ (hs : F.slot f) (n : Nat) :
    ((F.pageRef f).hand f).lent f n = F.lent f (n + 1) := by
  have hr : ((F.refs f + 1) % 2 ^ 32 + n) % 2 ^ 32 = (F.refs f + (n + 1)) % 2 ^ 32 := by omega
  have hh : F.held f + 1 + n = F.held f + (n + 1) := by omega
  simp only [Frames.lent, Frames.hand, Frames.pageRef, if_pos hs, update_self, update_idem, hr, hh]

theorem run_peeks (gFrames : Nat) (pool : Nat → Bool) (vn : Vnode) {index : U64} {e : Nat}
    (he : e ≠ 0) (hfind : t.findLocked (keyOf vn).1 (keyOf vn).2.1 index = e) (n : Nat) (F : Frames)
    (hs : F.slot (t.entry e).phys) (hlt : F.refs (t.entry e).phys < 2 ^ 32) :
    (cache gFrames pool).run ⟨t, F⟩ (replicate n (.peek (some vn) index)) =
    some ⟨t, F.lent (t.entry e).phys n⟩ := by
  induction n generalizing F with
  | zero => rw [replicate_zero, System.run, Frames.lent_zero hlt]
  | succ n ih =>
    have hpeek : (cache gFrames pool).next ⟨t, F⟩ (.peek (some vn) index) =
        some ⟨t, (F.pageRef (t.entry e).phys).hand (t.entry e).phys⟩ := by
      simp only [cache, next, State.pagecachePeek, hfind, if_pos he]
    have hlt' : ((F.pageRef (t.entry e).phys).hand (t.entry e).phys).refs (t.entry e).phys <
        2 ^ 32 := by
      simp only [Frames.hand, Frames.pageRef, if_pos hs, update_self]
      omega
    have hs' : ((F.pageRef (t.entry e).phys).hand (t.entry e).phys).slot (t.entry e).phys := by
      rw [Frames.pageRef, if_pos hs]
      exact hs
    rw [replicate_succ, System.run, hpeek, bind_some, ih _ hs' hlt', Frames.lent_succ hs]

theorem wrote_first (vn : Vnode) (F : Frames) {e : Nat} (he : e ≠ 0)
    (hfind : t.findLocked (keyOf vn).1 (keyOf vn).2.1 0#64 = e) (hp : (t.entry e).phys ≠ 0)
    (b : Byte) :
    ∃ page, State.pagecacheWrote ⟨t, F⟩ (some vn) 0 [b] =
      some ⟨t, ((F.pageRef (t.entry e).phys).setMem (t.entry e).phys page).pageUnref
        (t.entry e).phys⟩ := by
  refine ⟨Disk.write ((F.pageRef (t.entry e).phys).mem (t.entry e).phys) 0 [b], ?_⟩
  simp [State.pagecacheWrote, State.wroteLoop, State.copyIn, hfind, he, hp, pageSize]

theorem touch_frees (hs : F.slot f) (hmin : pmmFreeMinPhys ≤ f) (h0 : F.refs f = 0)
    (page : Nat → Byte) :
    (((F.pageRef f).setMem f page).pageUnref f).free f = true := by
  have hone : ((F.pageRef f).setMem f page).refs f = 1 := by
    simp [Frames.setMem, Frames.pageRef, hs, h0]
  have hs' : ((F.pageRef f).setMem f page).slot f := by
    rw [Frames.pageRef, if_pos hs]
    exact hs
  rw [Frames.pageUnref, if_pos hs', if_pos hone, if_pos hmin]
  exact update_self ..

def countersWrap (n : Nat) : List Act := replicate n (.peek plainFile 0) ++ [.wrote plainFile 0 [7]]

theorem run_countersWrap (gFrames : Nat) (pool : Nat → Bool) {n : Nat}
    (hfind : t.findLocked 1 0 0 = 1) (hmin : pmmFreeMinPhys ≤ (t.entry 1).phys)
    (hs : F.slot (t.entry 1).phys) (hlt : F.refs (t.entry 1).phys < 2 ^ 32)
    (hn : (F.refs (t.entry 1).phys + n) % 2 ^ 32 = 0) :
    ∃ F', (cache gFrames pool).run ⟨t, F⟩ (countersWrap n) = some ⟨t, F'⟩ ∧
      F'.free (t.entry 1).phys = true := by
  have hpeeks := run_peeks gFrames pool ⟨1, none, true⟩ Nat.one_ne_zero hfind n F hs hlt
  have hphys : (t.entry 1).phys ≠ 0 := (lt_of_lt_of_le (by decide) hmin).ne'
  obtain ⟨page, hwrote⟩ := wrote_first ⟨1, none, true⟩
    (F.lent (t.entry 1).phys n) Nat.one_ne_zero hfind hphys 7
  have hzero : (F.lent (t.entry 1).phys n).refs (t.entry 1).phys = 0 := (update_self ..).trans hn
  have hslot : (F.lent (t.entry 1).phys n).slot (t.entry 1).phys := hs
  refine ⟨_, ?_, touch_frees hslot hmin hzero page⟩
  rw [countersWrap, System.run_append, plainFile, hpeeks, bind_some, System.run]
  simp only [cache, next, hwrote, bind_some, System.run]

/-- With 2 ^ 32 references on a frame its counter is zero again, and the reference that a write
takes and gives up frees the frame of an entry. Without counters no reference is counted. -/
theorem frame_freed_while_cached :
    (∃ s, onePool.run onePool.init (readFirst :: countersWrap (2 ^ 32 - 2)) = some s ∧
      s.table.heap 1 = true ∧ s.frames.free (s.table.entry 1).phys = true ∧ ¬Owned s) ∧
    ((cache 0 oneFrame).run (cache 0 oneFrame).init [readFirst]).isSome ∧
      ¬Owned ((cache 0 oneFrame).final [readFirst]) := by
  refine ⟨?_,
    by decide +kernel, fun ho => absurd (ho.one 1 (by decide +kernel)) (by decide +kernel)⟩
  have hsome : (onePool.next onePool.init readFirst).isSome := by decide +kernel
  obtain ⟨u, hu⟩ := isSome_iff_exists.mp hsome
  have hfin : onePool.final [readFirst] = u := by simp [System.final, System.run, hu]
  have hfacts : (onePool.final [readFirst]).table.findLocked 1 0 0 = 1 ∧
      pmmFreeMinPhys ≤ ((onePool.final [readFirst]).table.entry 1).phys ∧
      (onePool.final [readFirst]).frames.slot ((onePool.final [readFirst]).table.entry 1).phys ∧
      (onePool.final [readFirst]).frames.refs ((onePool.final [readFirst]).table.entry 1).phys = 2 ∧
      (onePool.final [readFirst]).table.heap 1 = true := by decide +kernel
  rw [hfin] at hfacts
  obtain ⟨hfind, hmin, hslot, hrefs, hheap⟩ := hfacts
  obtain ⟨F', hrun, hfree⟩ := run_countersWrap 0x101 oneFrame (n := 2 ^ 32 - 2) hfind hmin hslot
    (by rw [hrefs]; decide) (by rw [hrefs]; decide)
  refine ⟨⟨u.table, F'⟩, ?_, hheap, hfree, fun ho =>
    Bool.false_ne_true ((ho.kept 1 hheap).symm.trans hfree)⟩
  rw [System.run, hu, bind_some]
  exact hrun

end

end Cervus.Pc
