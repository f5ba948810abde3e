import Cervus.Mm.Model

/-! The mappings of an address space as a list of areas in address order, and the
changes its operations are made of. Each change takes the areas and the pages
together. -/

namespace Cervus.Mm

open Cervus.Lib List

section
structure AreaOk (a : Area) : Prop where
  nonempty : a.start < a.stop
  startAligned : pg ∣ a.start
  stopAligned : pg ∣ a.stop
  low : 0x1000 ≤ a.start
  top : a.stop ≤ userTop

/-- In address order, disjoint, and each area well formed. -/
structure Ordered (l : List Area) : Prop where
  sorted : l.Pairwise fun a b => a.stop ≤ b.start
  ok : ∀ a ∈ l, AreaOk a

def Area.movedTo (v : Area) (dest stop : Nat) : Area := { v with start := dest, stop := stop }

/-- One change. With `fits`, no area is moved to a place with fewer pages than it has. -/
inductive Change {P : Type} (W : PageOps P) (fits : Prop) : List Area × P → List Area × P → Prop
  | split {l r : List Area} {v : Area} {p : P} {at' : Nat} (h1 : v.start < at') (h2 : at' < v.stop)
      (ha : pg ∣ at') : Change W fits (l ++ v :: r, p) (l ++ v.below at' :: v.above at' :: r, p)
  | merge {l r : List Area} {a b : Area} {p : P} (h : vmaMergeable a b = true) :
      Change W fits (l ++ a :: b :: r, p) (l ++ { a with stop := b.stop } :: r, p)
  | remove {l r : List Area} {v : Area} {p : P} :
      Change W fits (l ++ v :: r, p) (l ++ r, W.zap v v.start v.stop p)
  | insert {l r : List Area} {n : Area} {p : P} (hn : AreaOk n) (hl : ∀ a ∈ l, a.stop ≤ n.start)
      (hr : ∀ a ∈ r, n.stop ≤ a.start) : Change W fits (l ++ r, p) (l ++ n :: r, p)
  | extend {l r : List Area} {v : Area} {p : P} {stop : Nat} (h1 : v.stop ≤ stop) (ha : pg ∣ stop)
      (ht : stop ≤ userTop) (hr : ∀ a ∈ r, stop ≤ a.start) :
      Change W fits (l ++ v :: r, p) (l ++ { v with stop := stop } :: r, p)
  | protect {l r : List Area} {v : Area} {p : P} (prot : BitVec 32) :
      Change W fits (l ++ v :: r, p)
        (l ++ { v with flags := (v.flags &&& ~~~vmProtMask) ||| (prot &&& vmProtMask) } :: r,
          W.protect { v with flags := (v.flags &&& ~~~vmProtMask) ||| (prot &&& vmProtMask) } p)
  | lock {l r : List Area} {v : Area} {p : P} (flags : BitVec 32)
      (hf : flags &&& ~~~vmLocked = v.flags &&& ~~~vmLocked) :
      Change W fits (l ++ v :: r, p) (l ++ { v with flags := flags } :: r, p)
  | fault {l : List Area} {v : Area} {p : P} {addr : Nat} {write : Bool} (hv : v ∈ l)
      (h1 : v.start ≤ addr) (h2 : addr < v.stop) (hw : write = true → v.has vmWrite = true)
      (hp : v.has vmProtMask = true) : Change W fits (l, p) (l, (W.fault v (pdown addr) write p).1)
  | discard {l : List Area} {v : Area} {p : P} {lo hi : Nat} (hv : v ∈ l) (h1 : v.start ≤ lo)
      (h2 : hi ≤ v.stop) (hs : v.has (vmShared ||| vmPfnmap) = false) :
      Change W fits (l, p) (l, W.zap v lo hi p)
  | prepare {l : List Area} {p p' : P} {start stop : Nat} (h : W.prepare start stop p = some p') :
      Change W fits (l, p) (l, p')
  | move {l r l' r' : List Area} {v : Area} {p : P} {dest stop : Nat} (keep : Bool)
      (hrest : l' ++ r' = if keep then l ++ v :: r else l ++ r)
      (hn : AreaOk (v.movedTo dest stop)) (hl : ∀ a ∈ l', a.stop ≤ dest)
      (hr : ∀ a ∈ r', stop ≤ a.start) (hsep : stop ≤ v.start ∨ v.stop ≤ dest)
      (hfits : fits → v.stop - v.start ≤ stop - dest) :
      Change W fits (l ++ v :: r, p)
        (l' ++ v.movedTo dest stop :: r', W.move v.start dest (v.stop - v.start) p)

def Changes {P : Type} (W : PageOps P) (fits : Prop) : List Area × P → List Area × P → Prop :=
  Relation.ReflTransGen (Change W fits)

inductive Copies {P : Type} (W : PageOps P) : List Area → P → P → Prop
  | nil (p : P) : Copies W [] p p
  | cons {a : Area} {l : List Area} {p p' : P} (h : Copies W l (W.fork a p).1 p') :
      Copies W (a :: l) p p'

def zapAll {P : Type} (W : PageOps P) (l : List Area) (p : P) : P :=
  l.foldl (fun p a => W.zap a a.start a.stop p) p

theorem Ordered.nil : Ordered [] := ⟨List.Pairwise.nil, by simp⟩

variable {l r : List Area}

theorem ordered_append :
    Ordered (l ++ r) ↔ Ordered l ∧ Ordered r ∧ ∀ a ∈ l, ∀ b ∈ r, a.stop ≤ b.start := by
  constructor
  · rintro ⟨hs, ho⟩
    obtain ⟨h1, h2, h3⟩ := pairwise_append.mp hs
    exact ⟨⟨h1, fun a ha => ho a (mem_append_left _ ha)⟩,
      ⟨h2, fun a ha => ho a (mem_append_right _ ha)⟩, h3⟩
  · rintro ⟨⟨h1, o1⟩, ⟨h2, o2⟩, h3⟩
    refine ⟨pairwise_append.mpr ⟨h1, h2, h3⟩, fun a ha => ?_⟩
    exact (mem_append.mp ha).elim (o1 a) (o2 a)

theorem ordered_cons {a : Area} :
    Ordered (a :: r) ↔ AreaOk a ∧ Ordered r ∧ ∀ b ∈ r, a.stop ≤ b.start := by
  constructor
  · rintro ⟨hs, ho⟩
    obtain ⟨h1, h2⟩ := pairwise_cons.mp hs
    exact ⟨ho a (by simp), ⟨h2, fun b hb => ho b (by simp [hb])⟩, h1⟩
  · rintro ⟨ha, ⟨h2, o2⟩, h1⟩
    refine ⟨pairwise_cons.mpr ⟨h1, h2⟩, fun b hb => ?_⟩
    exact (mem_cons.mp hb).elim (fun e => e ▸ ha) (o2 b)

theorem ordered_insert {n : Area} (h : Ordered (l ++ r)) (hn : AreaOk n)
    (hl : ∀ a ∈ l, a.stop ≤ n.start) (hr : ∀ a ∈ r, n.stop ≤ a.start) : Ordered (l ++ n :: r) := by
  obtain ⟨h1, h2, h3⟩ := ordered_append.mp h
  refine ordered_append.mpr ⟨h1, ordered_cons.mpr ⟨hn, h2, hr⟩, fun a ha b hb => ?_⟩
  exact (mem_cons.mp hb).elim (fun e => e ▸ hl a ha) (h3 a ha b)

theorem Ordered.erase {v : Area} (h : Ordered (l ++ v :: r)) : Ordered (l ++ r) := by
  obtain ⟨h1, h2, h3⟩ := ordered_append.mp h
  obtain ⟨-, h4, -⟩ := ordered_cons.mp h2
  exact ordered_append.mpr ⟨h1, h4, fun a ha b hb => h3 a ha b (by simp [hb])⟩

theorem Ordered.replace {v v' : Area} (h : Ordered (l ++ v :: r))
    (hs : v'.start = v.start) (hv : AreaOk v') (hr : ∀ a ∈ r, v'.stop ≤ a.start) :
    Ordered (l ++ v' :: r) := by
  obtain ⟨-, -, h3⟩ := ordered_append.mp h
  exact ordered_insert h.erase hv (fun a ha => by rw [hs]; exact h3 a ha v (by simp)) hr

theorem vmaMergeable_stop {a b : Area} (h : vmaMergeable a b = true) : a.stop = b.start := by
  by_contra hne
  simp [vmaMergeable, hne] at h

/-- A change keeps the areas sorted and apart. -/
theorem Change.ordered {P : Type} {W : PageOps P} {fits : Prop} {s t : List Area × P}
    (h : Change W fits s t) (ho : Ordered s.1) : Ordered t.1 := by
  cases h with
  | @split l r v p at' h1 h2 ha =>
    obtain ⟨-, h4, h3⟩ := ordered_append.mp ho
    obtain ⟨hv, -, hr⟩ := ordered_cons.mp h4
    have hb : AreaOk (v.below at') := ⟨h1, hv.startAligned, ha, hv.low, le_trans h2.le hv.top⟩
    have hu : AreaOk (v.above at') := ⟨h2, ha, hv.stopAligned, le_trans hv.low h1.le, hv.top⟩
    have hm : Ordered (l ++ v.above at' :: r) :=
      ordered_insert ho.erase hu (fun a hal => le_trans (h3 a hal v (by simp)) h1.le) hr
    refine ordered_insert hm hb (fun a hal => h3 a hal v (by simp)) fun a hal => ?_
    rcases mem_cons.mp hal with rfl | hal
    · exact le_rfl
    · exact le_trans h2.le (hr a hal)
  | @merge l r a b p hm =>
    obtain ⟨-, h4, -⟩ := ordered_append.mp ho
    obtain ⟨ha, h5, -⟩ := ordered_cons.mp h4
    obtain ⟨hb, -, hr⟩ := ordered_cons.mp h5
    have hab := vmaMergeable_stop hm
    have hlast : Ordered (l ++ a :: r) := by
      have := ho
      rw [show l ++ a :: b :: r = (l ++ [a]) ++ b :: r by simp] at this
      simpa using this.erase
    refine hlast.replace rfl ⟨?_, ha.startAligned, hb.stopAligned, ha.low, hb.top⟩ hr
    have := ha.nonempty
    have := hb.nonempty
    show a.start < b.stop
    omega
  | remove => exact ho.erase
  | insert hn hl hr => exact ordered_insert ho hn hl hr
  | @extend l r v p stop h1 ha ht hr =>
    obtain ⟨-, h4, -⟩ := ordered_append.mp ho
    obtain ⟨hv, -, -⟩ := ordered_cons.mp h4
    exact ho.replace rfl ⟨lt_of_lt_of_le hv.nonempty h1, hv.startAligned, ha, hv.low, ht⟩ hr
  | @protect l r v p prot | @lock l r v p flags =>
    obtain ⟨-, h4, -⟩ := ordered_append.mp ho
    obtain ⟨hv, -, hr⟩ := ordered_cons.mp h4
    exact ho.replace rfl ⟨hv.nonempty, hv.startAligned, hv.stopAligned, hv.low, hv.top⟩ hr
  | fault | discard | prepare => exact ho
  | @move l r l' r' v p dest stop keep hrest hn hl hr _ _ =>
    refine ordered_insert ?_ hn hl hr
    rw [hrest]
    cases keep
    · exact ho.erase
    · exact ho

theorem Changes.ordered {P : Type} {W : PageOps P} {fits : Prop} {s t : List Area × P}
    (h : Changes W fits s t) (ho : Ordered s.1) : Ordered t.1 := by
  induction h with
  | refl => exact ho
  | tail _ hc ih => exact hc.ordered ih

end

/-! What is mapped at an address: the area that holds it, read by some `f`. -/

def Area.holds (a : Area) (x : Nat) : Bool := decide (a.start ≤ x ∧ x < a.stop)

def Area.seenAt (a : Area) (x : Nat) : Area := { a.above x with stop := 0 }

variable {β : Type} {f : Area → Nat → β} {l r : List Area} {x : Nat}

def look (f : Area → Nat → β) (l : List Area) (x : Nat) : Option β :=
  (l.find? fun a => a.holds x).map fun a => f a x

theorem look_append : look f (l ++ r) x = (look f l x).or (look f r x) := by
  rw [look, List.find?_append, look, look]
  cases l.find? fun a => a.holds x <;> rfl

theorem look_cons (a : Area) :
    look f (a :: r) x = if a.holds x then some (f a x) else look f r x := by
  rw [look, List.find?_cons, look]
  cases a.holds x <;> rfl

theorem look_eq_none (h : ∀ a ∈ l, a.holds x = false) : look f l x = none := by
  rw [look, List.find?_eq_none.mpr (by simpa using h)]
  rfl

variable {a b v : Area} {at' : Nat}

theorem look_eq_some (ho : Ordered l) (ha : a ∈ l) (hx : a.holds x = true) :
    look f l x = some (f a x) := by
  obtain ⟨l₁, l₂, rfl⟩ := List.append_of_mem ha
  have hbefore : look f l₁ x = none := by
    refine look_eq_none fun b hb => decide_eq_false ?_
    have := (ordered_append.mp ho).2.2 b hb a (by simp)
    have := (of_decide_eq_true hx).1
    omega
  rw [look_append, hbefore, look_cons, if_pos hx]
  rfl

theorem Ordered.eq_of_holds (ho : Ordered l) (ha : a ∈ l) (hb : b ∈ l) (hax : a.holds x = true)
    (hbx : b.holds x = true) : a = b :=
  Option.some.inj ((look_eq_some (f := fun a _ => a) ho ha hax).symm.trans (look_eq_some ho hb hbx))

theorem look_middle {m n : List Area} (h : look f n x = look f m x) :
    look f (l ++ (n ++ r)) x = look f (l ++ (m ++ r)) x := by
  simp only [look_append, h]

theorem look_replace {v' : Area} (hx : v'.holds x = v.holds x)
    (hf : v.holds x = true → f v' x = f v x) :
    look f (l ++ v' :: r) x = look f (l ++ v :: r) x := by
  refine look_middle (m := [v]) (n := [v']) ?_
  rw [look_cons, look_cons, hx]
  by_cases hv : v.holds x = true
  · rw [if_pos hv, if_pos hv, hf hv]
  · rw [if_neg hv, if_neg hv]

theorem look_erase (hx : v.holds x = false) : look f (l ++ r) x = look f (l ++ v :: r) x := by
  refine look_middle (m := [v]) (n := []) ?_
  rw [look_cons, hx]
  rfl

theorem look_split (h1 : v.start < at') (h2 : at' < v.stop)
    (hbelow : f (v.below at') x = f v x) (habove : at' ≤ x → f (v.above at') x = f v x) :
    look f (l ++ v.below at' :: v.above at' :: r) x = look f (l ++ v :: r) x := by
  refine look_middle (m := [v]) (n := [v.below at', v.above at']) ?_
  rw [look_cons, look_cons, look_cons, hbelow]
  by_cases hx : x < at'
  · have hin : (v.below at').holds x = v.holds x := decide_eq_decide.mpr (by
      show (v.start ≤ x ∧ x < at') ↔ _
      omega)
    have hout : (v.above at').holds x = false := decide_eq_false (by
      show ¬(at' ≤ x ∧ x < v.stop)
      omega)
    rw [hin, hout, if_neg Bool.false_ne_true]
  · have hin : (v.above at').holds x = v.holds x := decide_eq_decide.mpr (by
      show (at' ≤ x ∧ x < v.stop) ↔ _
      omega)
    have hout : (v.below at').holds x = false := decide_eq_false (by
      show ¬(v.start ≤ x ∧ x < at')
      omega)
    rw [hin, hout, if_neg Bool.false_ne_true, habove (by omega)]

theorem seenAt_above {x : Nat} (h1 : v.start < at') (hx : at' ≤ x) :
    (v.above at').seenAt x = v.seenAt x := by
  have hoff : add64 (add64 v.offset (at' - v.start)) (x - at') = add64 v.offset (x - v.start) := by
    simp only [add64]
    omega
  have hmoved : (if (v.above at').has (vmFile ||| vmPfnmap)
    then add64 (v.above at').offset (x - at')
      else (v.above at').offset) = if v.has (vmFile ||| vmPfnmap) then add64 v.offset (x - v.start)
        else v.offset := by
    rw [show (v.above at').has (vmFile ||| vmPfnmap) = v.has (vmFile ||| vmPfnmap) from rfl,
      Area.above]
    by_cases hfile : v.has (vmFile ||| vmPfnmap) = true
    · simp only [if_pos hfile, hoff]
    · simp only [if_neg hfile]
  exact congrArg (fun o => ({ v with start := x, stop := 0, offset := o } : Area)) hmoved

theorem look_seenAt_split (h1 : v.start < at') (h2 : at' < v.stop) :
    look Area.seenAt (l ++ v.below at' :: v.above at' :: r) x = look Area.seenAt (l ++ v :: r) x :=
  look_split h1 h2 rfl fun hx => seenAt_above h1 hx

def SameFlags (l r : List Area) : Prop :=
  ∀ x, look (fun v _ => v.flags) r x = look (fun v _ => v.flags) l x

theorem SameFlags.trans {l m r : List Area} (h : SameFlags l m) (h' : SameFlags m r) :
    SameFlags l r :=
  fun x => (h' x).trans (h x)

theorem look_flags_merge (ha : a.start < a.stop) (hb : b.start < b.stop)
    (hm : vmaMergeable a b = true) :
    look (fun v _ => v.flags) (l ++ { a with stop := b.stop } :: r) x =
      look (fun v _ => v.flags) (l ++ a :: b :: r) x := by
  have hab := vmaMergeable_stop hm
  have hflags : a.flags = b.flags := by
    by_contra hne
    simp [vmaMergeable, hne] at hm
  refine look_middle (m := [a, b]) (n := [{ a with stop := b.stop }]) ?_
  rw [look_cons, look_cons, look_cons, ← hflags]
  simp only [Area.holds, decide_eq_true_eq]
  by_cases h1 : a.start ≤ x ∧ x < a.stop
  · rw [if_pos h1, if_pos ⟨h1.1, by omega⟩]
  · by_cases h2 : b.start ≤ x ∧ x < b.stop
    · rw [if_neg h1, if_pos h2, if_pos ⟨by omega, h2.2⟩]
    · rw [if_neg h1, if_neg h2, if_neg (by omega)]

end Cervus.Mm
