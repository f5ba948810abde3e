import Cervus.Mm.Refine

/-! Faults, and the operations that change the mappings of a range one by one. -/

namespace Cervus.Mm

open Cervus.Lib List Option

section

variable {P : Type} (A : Allocator) (W : PageOps P) (fits : Prop) {s : St P} {l r : List Nat}

theorem faultLocked_sim (h : Listed s.mm l) (addr : Nat) (how : How) :
    ∃ s' rc c, faultLocked W s addr how = some (s', rc) ∧ s'.mm = { s.mm with vcache := c } ∧
      Sim W fits s l s' l := by
  obtain ⟨c, v, he, hrep, hv⟩ := mmFindVma_spec h addr
  have hnone : Sim W fits s l { s with mm := { s.mm with vcache := c } } l := .cache hrep
  simp only [faultLocked, he, bind_eq_bind, bind_some]
  split_ifs with h0 hw hx hp
  · exact ⟨_, _, c, rfl, rfl, hnone⟩
  · exact ⟨_, _, c, rfl, rfl, hnone⟩
  · exact ⟨_, _, c, rfl, rfl, hnone⟩
  · exact ⟨_, _, c, rfl, rfl, hnone⟩
  · obtain ⟨hvl, h1, h2⟩ := hv.resolve_left fun hc => h0 hc.1
    refine ⟨_, _, c, rfl, rfl, ⟨hrep, .single ?_, ⟨rfl, rfl, rfl⟩⟩⟩
    refine .fault (mem_map_of_mem hvl) h1 h2 (fun hwr => ?_) (by simpa using hp)
    simpa [hwr] using hw

theorem populateLoop_sim (write : Bool) (n : Nat) (h : Listed s.mm l) (p : Nat) :
    ∃ s' c, populateLoop W write n s p = some s' ∧ s'.mm = { s.mm with vcache := c } ∧
      Sim W fits s l s' l := by
  induction n generalizing s p with
  | zero => exact ⟨s, s.mm.vcache, rfl, rfl, .refl h⟩
  | succ n ih =>
    rw [populateLoop]
    split_ifs with hp
    · exact ih h (p + pg)
    · obtain ⟨s₁, rc, c, he, hmm, hsim⟩ := faultLocked_sim W fits h p ⟨write, false⟩
      simp only [he, bind_eq_bind, bind_some]
      split_ifs with hneg
      · exact ⟨s₁, c, rfl, hmm, hsim⟩
      · obtain ⟨s₂, c₂, he₂, hmm₂, hsim₂⟩ := ih (hsim.listed h) (p + pg)
        exact ⟨s₂, c₂, he₂, by rw [hmm₂, hmm], hsim.trans hsim₂⟩

theorem populateLockedVma_sim (h : Listed s.mm l) (v : Nat) :
    ∃ s' c, populateLockedVma W s v = some s' ∧ s'.mm = { s.mm with vcache := c } ∧
      Sim W fits s l s' l := by
  unfold populateLockedVma
  by_cases hp : (s.mm.area v).has vmPfnmap = true
  · exact ⟨s, s.mm.vcache, by simp only [hp, if_true], rfl, .refl h⟩
  · simp only [if_neg hp]
    exact populateLoop_sim W fits _ _ h _

/-! ## The mappings of a range -/

theorem coveredLoop_spec {mm : MmT} (stop fuel cur : Nat) (h : Listed mm (l ++ r))
    (hl : ∀ x ∈ l, (mm.area x).stop ≤ cur) (hf : r.length < fuel) :
    ∃ c covered, coveredLoop stop fuel mm cur = some ({ mm with vcache := c }, covered) ∧
      Listed { mm with vcache := c } (l ++ r) ∧
      (covered = true → ∀ x, cur ≤ x → x < stop → ∃ v ∈ l ++ r, (mm.area v).holds x = true) ∧
      (covered = false → ∃ x, cur ≤ x ∧ x < stop ∧ ∀ v ∈ l ++ r, (mm.area v).holds x = false) := by
  induction fuel generalizing mm l r cur with
  | zero => omega
  | succ fuel ih =>
    rw [coveredLoop]
    split_ifs with hlt
    · obtain ⟨c, v, he, hrep, hv⟩ := mmFindVma_spec h cur
      simp only [he, bind_eq_bind, bind_some]
      split_ifs with h0
      · have hnone := (hv.resolve_right fun hc => h.ne_zero hc.1 h0).2
        exact ⟨c, false, rfl, hrep, fun hc => (nomatch hc), fun _ =>
          ⟨cur, le_refl cur, hlt, fun v hv =>
          decide_eq_false (hnone v hv)⟩⟩
      obtain ⟨hvl, h1, h2⟩ := hv.resolve_left fun hc => h0 hc.1
      have hvr : v ∈ r := by
        refine (mem_append.mp hvl).resolve_left fun hm => ?_
        have := hl v hm
        omega
      obtain ⟨a, b, rfl⟩ := append_of_mem hvr
      -- everything up to `v` ends at or before its end
      have hsplit : l ++ (a ++ v :: b) = (l ++ a ++ [v]) ++ b := by simp
      have hstop : ∀ x ∈ l ++ a ++ [v], (mm.area x).stop ≤ (mm.area v).stop := by
        intro x hx
        rcases mem_append.mp hx with hx | hx
        · have hap := h.ord.apart
          rw [← append_assoc] at hap
          have := (pairwise_append.mp hap).2.2 x hx v (by simp)
          omega
        · rw [mem_singleton.mp hx]
      rw [hsplit] at hrep hvl ⊢
      obtain ⟨c', covered, he', hrep', hyes, hno⟩ := ih _ hrep hstop (by simp at hf; omega)
      refine ⟨c', covered, he', hrep', fun hc x hx1 hx2 => ?_, fun hc => ?_⟩
      · by_cases hxv : x < (mm.area v).stop
        · exact ⟨v, hvl, decide_eq_true ⟨h1.trans hx1, hxv⟩⟩
        · exact hyes hc x (not_lt.mp hxv) hx2
      · obtain ⟨x, hx1, hx2, hx⟩ := hno hc
        exact ⟨x, (h2.trans_le hx1).le, hx2, hx⟩
    · exact ⟨mm.vcache, true, rfl, h, fun _ x hx1 hx2 => absurd (hx1.trans_lt hx2) hlt, fun hc =>
        (nomatch hc)⟩

def Changer (f : St P → Nat → Option (St P × Int)) : Prop :=
  ∀ s l v r, Rep s.mm (l ++ v :: r) → Ordered (s.mm.areas (l ++ v :: r)) →
    ∃ s' rc, f s v = some (s', rc) ∧ Sim W fits s (l ++ v :: r) s' (l ++ v :: r) ∧
      ∀ x, (s'.mm.area x).start = (s.mm.area x).start

variable {A W fits} {f : St P → Nat → Option (St P × Int)} {start stop v : Nat} {s' : St P}
    {rc : Int} {l' : List Nat}

theorem Changer.of_some (hf : Changer W fits f) (h : Listed s.mm (l ++ v :: r))
    (hs : f s v = some (s', rc)) : Sim W fits s (l ++ v :: r) s' (l ++ v :: r) := by
  obtain ⟨s₁, rc₁, he, hsim, -⟩ := hf _ _ _ _ h h.ord
  rw [he] at hs
  cases hs
  exact hsim

/-- How the loop passes over the mappings `r`, none of which begins before the range; those of
`l` are behind it. A mapping that reaches over the end is cut there first, and without memory
for the cut the loop stops. -/
inductive Passed (A : Allocator) (f : St P → Nat → Option (St P × Int)) (stop : Nat) :
    St P → List Nat → List Nat → St P → List Nat → Int → Prop
  | done {s : St P} {l r : List Nat} (hr : ∀ x ∈ r, stop ≤ (s.mm.area x).start) :
    Passed A f stop s l r s (l ++ r) 0
  | stuck {s : St P} {l r : List Nat} {v : Nat} (h1 : (s.mm.area v).start < stop)
    (h2 : stop < (s.mm.area v).stop)
      (hp : A.pick s.mm.owned = none) : Passed A f stop s l (v :: r) s (l ++ v :: r) 0
  | cut {s s' : St P} {l r l' : List Nat} {v n : Nat} {mm : MmT} {rc : Int}
    (h1 : (s.mm.area v).start < stop)
      (h2 : stop < (s.mm.area v).stop) (hs : vmaSplit A s.mm v stop = some (mm, n)) (hn : n ≠ 0)
      (h : Passed A f stop { s with mm := mm } l (v :: n :: r) s' l' rc) :
        Passed A f stop s l (v :: r) s' l' rc
  | failed {s s' : St P} {l r : List Nat} {v : Nat} {rc : Int} (h1 : (s.mm.area v).start < stop)
      (h2 : (s.mm.area v).stop ≤ stop) (hf : f s v = some (s', rc)) (hneg : rc < 0) :
      Passed A f stop s l (v :: r) s' (l ++ v :: r) rc
  | next {s s₁ s' : St P} {l r l' : List Nat} {v : Nat} {rc₁ rc : Int}
    (h1 : (s.mm.area v).start < stop)
      (h2 : (s.mm.area v).stop ≤ stop) (hf : f s v = some (s₁, rc₁)) (hpos : ¬ rc₁ < 0)
      (h : Passed A f stop s₁ (l ++ [v]) r s' l' rc) : Passed A f stop s l (v :: r) s' l' rc

inductive Entered (A : Allocator) (f : St P → Nat → Option (St P × Int)) (start stop : Nat) :
    St P → List Nat → List Nat → St P → List Nat → Int → Prop
  | within {s s' : St P} {l r l' : List Nat} {rc : Int} (hr : ∀ x ∈ r, start ≤ (s.mm.area x).start)
      (h : Passed A f stop s l r s' l' rc) : Entered A f start stop s l r s' l' rc
  | stuck {s : St P} {l r : List Nat} {v : Nat} (h1 : (s.mm.area v).start < start)
    (h2 : start < (s.mm.area v).stop)
      (hp : A.pick s.mm.owned = none) : Entered A f start stop s l (v :: r) s (l ++ v :: r) 0
  | cut {s s' : St P} {l r l' : List Nat} {v n : Nat} {mm : MmT} {rc : Int}
    (h1 : (s.mm.area v).start < start)
      (h2 : start < (s.mm.area v).stop) (hs : vmaSplit A s.mm v start = some (mm, n)) (hn : n ≠ 0)
      (h : Passed A f stop { s with mm := mm } (l ++ [v]) (n :: r) s' l' rc) :
        Entered A f start stop s l (v :: r) s' l' rc

theorem vmaSplit_pick {mm mm' : MmT} {n at' : Nat} (h : vmaSplit A mm v at' = some (mm', n)) :
    A.pick mm.owned = if n = 0 then none else some n := by
  unfold vmaSplit vmaNew at h
  cases hp : A.pick mm.owned with
  | none =>
    simp only [hp, if_true, some.injEq, Prod.mk.injEq] at h
    rw [if_pos h.2.symm]
  | some k =>
    have hk := (A.fresh _ _ hp).1
    simp only [hp, if_neg hk, bind_eq_bind] at h
    obtain ⟨mm₂, -, he⟩ := bind_eq_some_iff.mp h
    obtain rfl : k = n := (Prod.mk.inj (some.inj he)).2
    rw [if_neg hk]

section

variable (A W)

/-- The loop over the areas of a range that begins at an area. -/
theorem changeLoop_passed (hf : Changer W False f) (start : Nat) (fuel : Nat) (ha : pg ∣ stop)
    (h : Listed s.mm (l ++ r)) (hr : ∀ x ∈ r, start ≤ (s.mm.area x).start)
    (hfuel : r.length < fuel) :
    ∃ s' rc l', changeLoop A f start stop fuel s (r.headD 0) = some (s', rc) ∧
      Passed A f stop s l r s' l' rc := by
  induction fuel generalizing s l r with
  | zero => omega
  | succ fuel ih =>
    cases r with
    | nil => exact ⟨s, 0, l ++ [], by simp [changeLoop], .done (by simp)⟩
    | cons v r =>
      have hv0 : v ≠ 0 := h.ne_zero (v := v) (by simp)
      have hl : ∀ l₀ : List Nat, l ++ v :: l₀ = (l ++ [v]) ++ l₀ := fun l₀ => by simp
      simp only [headD_cons]
      simp only [changeLoop]
      by_cases hdone : stop ≤ (s.mm.area v).start
      · rw [if_pos (Or.inr hdone)]
        exact ⟨s, 0, _, rfl, .done (h.ord.from_start hdone)⟩
      rw [if_neg (by simp [hv0, hdone]), if_neg (not_lt.mpr (hr v (by simp)))]
      rw [not_le] at hdone
      split_ifs with hover
      · rcases split_sim A W False h hdone hover ha with he | ⟨n, mm', hn0, he, hcut⟩
        · exact ⟨s, 0, _,
            by rw [he]; rfl, .stuck hdone hover (by rw [vmaSplit_pick he, if_pos rfl])⟩
        simp only [he, bind_eq_bind, bind_some, if_neg hn0]
        have hv' : (mm'.area v).start < stop ∧ (mm'.area v).stop ≤ stop := by
          rw [hcut.below]
          exact ⟨hdone, le_refl stop⟩
        have h' := hcut.sim.listed h
        obtain ⟨s₁, rc, hf₁, hsim₁, hstart⟩ := hf _ _ _ _ h' h'.ord
        simp only [hf₁, bind_some]
        split_ifs with hneg
        · exact ⟨s₁, rc, _, rfl, .cut hdone hover he hn0 (.failed hv'.1 hv'.2 hf₁ hneg)⟩
        · -- the part split off starts at the end of the range
          have hnext : s₁.mm.links.next v = n := by simpa using hsim₁.rep.list.next_eq
          have hr₁ : ∀ x ∈ n :: r, stop ≤ (s₁.mm.area x).start := fun x hx => by
            rw [hstart]
            exact hcut.from_start h x hx
          obtain ⟨fuel, rfl⟩ := Nat.exists_eq_succ_of_ne_zero (n := fuel) (by simp at hfuel; omega)
          refine ⟨s₁, 0, _, ?_, .cut hdone hover he hn0 (.next hv'.1 hv'.2 hf₁ hneg (.done hr₁))⟩
          rw [hnext, changeLoop]
          simp only [hr₁ n mem_cons_self, or_true, if_true]
      · rw [gt_iff_lt, not_lt] at hover
        obtain ⟨s₁, rc, hf₁, hsim₁, hstart⟩ := hf _ _ _ _ h h.ord
        simp only [bind_eq_bind, bind_some, if_neg hv0, hf₁]
        split_ifs with hneg
        · exact ⟨s₁, rc, _, rfl, .failed hdone hover hf₁ hneg⟩
        · have hnext : s₁.mm.links.next v = r.headD 0 := hsim₁.rep.list.next_eq
          have h' := hsim₁.listed h
          rw [hl] at h'
          obtain ⟨s₂, rc₂, l', he₂, hpass⟩ :=
            ih h' (fun x hx => by rw [hstart]; exact hr x (by simp [hx])) (by simpa using hfuel)
          rw [hnext]
          exact ⟨s₂, rc₂, l', he₂, .next hdone hover hf₁ hneg hpass⟩

/-- The same when the range begins inside an area, which is cut first. -/
theorem changeLoop_entered (hf : Changer W False f) (fuel : Nat) (hle : start ≤ stop)
    (hs : pg ∣ start) (ha : pg ∣ stop) (h : Listed s.mm (l ++ r))
    (h2 : ∀ x ∈ r, start < (s.mm.area x).stop) (hfuel : r.length + 1 < fuel) :
    ∃ s' rc l', changeLoop A f start stop fuel s (r.headD 0) = some (s', rc) ∧
      Entered A f start stop s l r s' l' rc := by
  cases r with
  | nil =>
    obtain ⟨s', rc, l', he, hp⟩ := changeLoop_passed A W hf start fuel ha h (by simp)
      (by simp at hfuel ⊢; omega)
    exact ⟨s', rc, l', he, .within (by simp) hp⟩
  | cons v r =>
    have hv0 : v ≠ 0 := h.ne_zero (v := v) (by simp)
    have hstop := h2 v (by simp)
    by_cases hover : (s.mm.area v).start < start
    · obtain ⟨fuel, rfl⟩ := Nat.exists_eq_succ_of_ne_zero (Nat.ne_zero_of_lt hfuel)
      simp only [headD_cons]
      simp only [changeLoop]
      rw [if_neg (by simp only [hv0, false_or]; omega), if_pos hover]
      rcases split_sim A W False h hover hstop hs with he | ⟨n, mm', hn0, he, hcut⟩
      · exact ⟨s, 0, _, by rw [he]; rfl, .stuck hover hstop (by rw [vmaSplit_pick he, if_pos rfl])⟩
      · have h' := hcut.sim.listed h
        rw [append_cons] at h'
        obtain ⟨s', rc, l', he', hp⟩ := changeLoop_passed A W hf start fuel ha h'
          (hcut.from_start h)
          (by simpa using hfuel)
        refine ⟨s', rc, l', ?_, .cut hover hstop he hn0 hp⟩
        simp only [he, bind_eq_bind, bind_some, if_neg hn0]
        exact he'
    · have hr := h.ord.from_start (not_lt.mp hover)
      obtain ⟨s', rc, l', he, hp⟩ := changeLoop_passed A W hf start fuel ha h hr (by omega)
      exact ⟨s', rc, l', he, .within hr hp⟩

end

theorem Passed.sim (hf : Changer W fits f) (hp : Passed A f stop s l r s' l' rc)
    (ha : pg ∣ stop) (h : Listed s.mm (l ++ r)) : Sim W fits s (l ++ r) s' l' := by
  induction hp with
  | done hr | stuck h1 h2 hp => exact .refl h
  | cut h1 h2 hs hn hp ih =>
    have hsim := (cut_of_split W fits h h1 h2 ha hs hn).sim
    exact hsim.trans (ih (hsim.listed h))
  | failed h1 h2 hfv hneg => exact hf.of_some h hfv
  | next h1 h2 hfv hpos hp ih =>
    have hsim := hf.of_some h hfv
    rw [append_cons] at hsim h ⊢
    exact hsim.trans (ih (hsim.listed h))

theorem Entered.sim (hf : Changer W fits f) (he : Entered A f start stop s l r s' l' rc)
    (hs : pg ∣ start) (ha : pg ∣ stop) (h : Listed s.mm (l ++ r)) :
    Sim W fits s (l ++ r) s' l' := by
  cases he with
  | within hr hp => exact hp.sim hf ha h
  | stuck h1 h2 hp => exact .refl h
  | cut h1 h2 hsp hn hp =>
    have hsim := (cut_of_split W fits h h1 h2 hs hsp hn).sim
    have h' := hsim.listed h
    rw [append_cons l _ (_ :: _)] at hsim h'
    exact hsim.trans (hp.sim hf ha h')

inductive Ranged (A : Allocator) (f : St P → Nat → Option (St P × Int)) (start stop : Nat)
    (s : St P) (l : List Nat) (s' : St P) (l' : List Nat) : Int → Prop
  | hole (x : Nat) (h1 : start ≤ x) (h2 : x < stop) (hx : ∀ v ∈ l, (s.mm.area v).holds x = false)
      (hpages : s'.pages = s.pages) : Ranged A f start stop s l s' l' enomem
  | failed {c : Nat} {l₁ l₂ : List Nat} {rc : Int} (hl : l = l₁ ++ l₂)
      (h : Entered A f start stop { s with mm := { s.mm with vcache := c } } l₁ l₂ s' l' rc)
        (hneg : rc < 0) :
      Ranged A f start stop s l s' l' rc
  | done {c : Nat} {l₁ l₂ l₃ : List Nat} {s₁ : St P} {rc : Int}
      (hcov : ∀ x, start ≤ x → x < stop → ∃ v ∈ l, (s.mm.area v).holds x = true) (hl : l = l₁ ++ l₂)
      (h1 : ∀ x ∈ l₁, (s.mm.area x).stop ≤ start) (h2 : ∀ x ∈ l₂, start < (s.mm.area x).stop)
      (hrep : Rep { s.mm with vcache := c } l)
      (h : Entered A f start stop { s with mm := { s.mm with vcache := c } } l₁ l₂ s₁ l₃ rc)
        (hpos : ¬ rc < 0)
      (hpages : s'.pages = s₁.pages) (hflags : SameFlags (s₁.mm.areas l₃) (s'.mm.areas l')) :
      Ranged A f start stop s l s' l' 0

variable (A W fits)

theorem changeRange_spec (hf : ∀ fits, Changer W fits f) (hle : start ≤ stop) (hs : pg ∣ start)
    (ha : pg ∣ stop) (h : Listed s.mm l) :
    ∃ s' rc l', changeRange A f s start stop = some (s', rc) ∧ Sim W fits s l s' l' ∧
      Ranged A f start stop s l s' l' rc := by
  have hlen := h.length_le
  obtain ⟨c, covered, hc, hrep, hcov⟩ := coveredLoop_spec (l := []) stop
    (s.mm.owned.length + 1) start h (by simp) (by omega)
  have hsim : Sim W fits s l { s with mm := { s.mm with vcache := c } } l := .cache hrep.toRep
  have h' := hsim.listed h
  simp only [changeRange, hc, bind_eq_bind, bind_some]
  split_ifs with hno
  · obtain ⟨x, h1, h2, hx⟩ := hcov.2 hno
    exact ⟨_, _, l, rfl, hsim, .hole x h1 h2 hx rfl⟩
  rw [Bool.not_eq_false] at hno
  obtain ⟨l₁, l₂, rfl, h1, h2, he⟩ := vmaFirstEndingAfter_spec hrep start
  rw [length_append] at hlen
  obtain ⟨s₁, rc, l', he₁, hent⟩ := changeLoop_entered A W (hf False)
    (s.mm.owned.length + 3) hle hs ha h' h2 (by omega)
  have hsim₁ := hent.sim (hf fits) hs ha h'
  simp only [he, bind_some, he₁]
  split_ifs with hneg
  · exact ⟨s₁, rc, l', rfl, hsim.trans hsim₁, .failed rfl hent hneg⟩
  · have hsim' := hsim.trans hsim₁
    obtain ⟨mm', l'', hm, hsim₂, hflags⟩ := vmaMergeRange_sim W fits start stop (hsim'.listed h)
    exact ⟨{ s₁ with mm := mm' }, 0, l'', by rw [hm]; rfl, hsim'.trans hsim₂,
      .done (hcov.1 hno) rfl h1 h2 hrep.toRep hent hneg rfl hflags⟩

/-! ## The operations -/

theorem setArea_flags_start (mm : MmT) (v x : Nat) (flags : BitVec 32) :
    ((mm.setArea v { mm.area v with flags := flags }).area x).start = (mm.area x).start := by
  rw [area_setArea]
  split_ifs with hx
  · rw [hx]
  · rfl

theorem protectArea_changer (readonly : Nat → Bool)
    (prot : BitVec 32) : Changer W fits (protectArea W readonly prot) := by
  intro s l v r h ho
  simp only [protectArea]
  split_ifs with hro
  · exact ⟨s, _, rfl, .refl h, fun _ => rfl⟩
  · refine ⟨_, _, rfl, ⟨h.setArea _ _, .single ?_, ⟨rfl, rfl, rfl⟩⟩,
      fun x => setArea_flags_start s.mm v x _⟩
    rw [areas_setArea h.nodup, areas_append, areas_cons]
    exact .protect prot

theorem or_and_not (a b : BitVec 32) : (a ||| b) &&& ~~~b = a &&& ~~~b := by
  ext i hi
  cases ha : a[i] <;> cases hb : b[i] <;> simp [ha, hb]

theorem and_not_and_not (a b : BitVec 32) : a &&& ~~~b &&& ~~~b = a &&& ~~~b := by
  rw [BitVec.and_assoc, BitVec.and_self]

theorem lock_sim {flags : BitVec 32} (h : Rep s.mm (l ++ v :: r))
    (hfl : flags &&& ~~~vmLocked = (s.mm.area v).flags &&& ~~~vmLocked) :
    Sim W fits s (l ++ v :: r) { s with mm := s.mm.setArea v { s.mm.area v with flags := flags } }
      (l ++ v :: r) := by
  refine ⟨h.setArea _ _, .single ?_, ⟨rfl, rfl, rfl⟩⟩
  rw [areas_setArea h.nodup, areas_append, areas_cons]
  exact .lock flags hfl

theorem lockArea_changer (lock : Bool) : Changer W fits (lockArea W lock) := by
  intro s l v r h ho
  cases lock with
  | true =>
    have hsim := lock_sim W fits h (or_and_not (s.mm.area v).flags vmLocked)
    obtain ⟨s', c, he, hmm, hsim'⟩ := populateLockedVma_sim W fits ⟨hsim.rep, hsim.ordered ho⟩ v
    refine ⟨s', 0, ?_, hsim.trans hsim', fun x => ?_⟩
    · simp only [lockArea, if_true, he, bind_eq_bind, bind_some]
    · rw [hmm]
      exact setArea_flags_start s.mm v x _
  | false =>
    exact ⟨_, _, rfl, lock_sim W fits h (and_not_and_not _ _),
      fun x => setArea_flags_start s.mm v x _⟩

theorem discardLoop_sim (addr stop fuel : Nat) (h : Rep s.mm (l ++ r)) (hf : r.length < fuel) :
    ∃ s', discardLoop W addr stop fuel s (r.headD 0) = some s' ∧
      Sim W fits s (l ++ r) s' (l ++ r) := by
  induction fuel generalizing s l r with
  | zero => omega
  | succ fuel ih =>
    cases r with
    | nil => exact ⟨s, by simp [discardLoop], .refl h⟩
    | cons v r =>
      have hnext : s.mm.links.next v = r.headD 0 := h.list.next_eq
      have hl : l ++ v :: r = (l ++ [v]) ++ r := by simp
      simp only [headD_cons]
      simp only [discardLoop, hnext]
      have hlo : (s.mm.area v).start ≤
          if (s.mm.area v).start > addr then (s.mm.area v).start else addr := by
        split_ifs <;> omega
      have hhi : (if (s.mm.area v).stop < stop then (s.mm.area v).stop else stop) ≤
          (s.mm.area v).stop := by
        split_ifs <;> omega
      generalize (if (s.mm.area v).start > addr then (s.mm.area v).start else addr) = lo at hlo ⊢
      generalize (if (s.mm.area v).stop < stop then (s.mm.area v).stop else stop) = hi at hhi ⊢
      split_ifs with hdone hskip
      · exact ⟨s, rfl, .refl h⟩
      · rw [hl] at h ⊢
        exact ih h (by simpa using hf)
      · rw [not_or, Bool.not_eq_true] at hskip
        have hsim : Sim W fits s (l ++ v :: r)
            { s with pages := W.zap (s.mm.area v) lo hi s.pages } (l ++ v :: r) :=
          ⟨h, .single (.discard (by simp [MmT.areas]) hlo hhi hskip.2), .refl _⟩
        rw [hl] at h hsim ⊢
        obtain ⟨s', he, hsim'⟩ := ih (s := { s with pages := W.zap (s.mm.area v) lo hi s.pages }) h
          (by simpa using hf)
        exact ⟨s', he, hsim.trans hsim'⟩

variable (h : Listed s.mm l)
include h

theorem mmProtect_sim (readonly : Nat → Bool) (addr len : Nat) (prot : BitVec 32) :
    ∃ s' rc l', mmProtect A W readonly s addr len prot = some (s', rc) ∧ Sim W fits s l s' l' := by
  simp only [mmProtect]
  split_ifs with hal hlen hrange
  · exact ⟨s, _, l, rfl, .refl h⟩
  · exact ⟨s, _, l, rfl, .refl h⟩
  · exact ⟨s, _, l, rfl, .refl h⟩
  · have hs : pg ∣ addr := Nat.dvd_of_mod_eq_zero (not_not.mp hal)
    obtain ⟨s', rc, l', he, hsim, -⟩ := changeRange_spec A W fits
      (fun fits => protectArea_changer W fits readonly prot)
      (not_lt.mp fun hc => hrange (.inl hc)) hs (pg_dvd_add64 hs (pg_dvd_pup len)) h
    exact ⟨s', rc, l', he, hsim⟩

theorem mmMlock_sim (addr len : Nat) (lock : Bool) :
    ∃ s' rc l', mmMlock A W s addr len lock = some (s', rc) ∧ Sim W fits s l s' l' := by
  simp only [mmMlock]
  split_ifs with hrange hempty
  · exact ⟨s, _, l, rfl, .refl h⟩
  · exact ⟨s, _, l, rfl, .refl h⟩
  · rw [not_or, not_lt, not_lt] at hrange
    have hup := pup_bounds (a := add64 addr len) (by
      have : userTop + 4095 < 2 ^ 64 := by decide
      omega)
    have hdown := pdown_le addr
    obtain ⟨s', rc, l', he, hsim, -⟩ := changeRange_spec A W fits
      (fun fits => lockArea_changer W fits lock)
      (show pdown addr ≤ pup (add64 addr len) by omega) (pg_dvd_pdown addr) (pg_dvd_pup _) h
    exact ⟨s', rc, l', he, hsim⟩

theorem mmUnmap_sim (addr len : Nat) :
    ∃ s' rc l', mmUnmap A W s addr len = some (s', rc) ∧ Sim W fits s l s' l' := by
  simp only [mmUnmap]
  split_ifs with hal hrange
  · exact ⟨s, _, l, rfl, .refl h⟩
  · exact ⟨s, _, l, rfl, .refl h⟩
  · rw [not_or, not_not] at hal
    have hs : pg ∣ addr := Nat.dvd_of_mod_eq_zero hal.1
    obtain ⟨s', rc, l', he, hu⟩ := unmapLocked_spec A W fits
      (not_lt.mp fun hc => hrange (.inl hc)) hs (pg_dvd_add64 hs (pg_dvd_pup len)) h
    exact ⟨s', rc, l', he, hu.sim⟩

theorem mmFault_sim (addr : Nat) (how : How) :
    ∃ s' rc, mmFault W s addr how = some (s', rc) ∧ Sim W fits s l s' l := by
  unfold mmFault
  split_ifs with htop
  · exact ⟨s, _, rfl, .refl h⟩
  · obtain ⟨s', rc, c, he, -, hsim⟩ := faultLocked_sim W fits h addr how
    exact ⟨s', rc, he, hsim⟩

theorem mmDiscard_sim (addr len : Nat) :
    ∃ s' rc, mmDiscard W s addr len = some (s', rc) ∧ Sim W fits s l s' l := by
  unfold mmDiscard
  split_ifs with hal
  · exact ⟨s, _, rfl, .refl h⟩
  · obtain ⟨l₁, l₂, rfl, -, -, he⟩ := vmaFirstEndingAfter_spec h addr
    have hlen := h.length_le
    rw [length_append] at hlen
    obtain ⟨s', he', hsim⟩ := discardLoop_sim W fits addr (add64 addr (pup len))
      (s.mm.owned.length + 1) h.toRep (by omega)
    exact ⟨s', 0, by rw [he]; simp only [bind_eq_bind, bind_some, he'], hsim⟩

end

end Cervus.Mm
