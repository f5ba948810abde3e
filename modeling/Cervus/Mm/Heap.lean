import Cervus.Mm.Run

/-! Where `find_gap` places a mapping, and what `mm_set_brk` changes. -/

namespace Cervus.Mm

open Cervus.Lib Option

/-! ## The gap -/

def MmT.floor (mm : MmT) : Nat := if mm.brk = 0 then gapFloor else pup mm.brk + gapFloor

structure GapOk (l : List Area) (floor top len gap : Nat) : Prop where
  none_iff : gap = 0 ↔ ¬ ∃ a, IsGap l floor top len a
  highest : gap ≠ 0 → IsGap l floor top len gap ∧ pg ∣ gap ∧ ∀ a, IsGap l floor top len a → a ≤ gap

theorem BestGap.eq_zero_iff {l : List Area} {floor top len gap : Nat}
    (h : BestGap l floor top len gap) :
    gap = 0 ↔ ∀ a, IsGap l floor top len a → a = 0 := by
  rcases h with ⟨h0, hnone⟩ | ⟨hg, -, hmax⟩
  · exact iff_of_true h0 fun a ha => absurd ha (hnone a)
  · exact ⟨fun h0 a ha => Nat.le_zero.mp (h0 ▸ hmax a ha), fun hall => hall gap hg⟩

theorem BestGap.ok_iff {l : List Area} {floor top len gap : Nat} (h : BestGap l floor top len gap) :
    GapOk l floor top len gap ↔ (IsGap l floor top len 0 → ∃ a, IsGap l floor top len a ∧
      a ≠ 0) := by
  constructor
  · intro hok h0
    by_contra hno
    refine hok.none_iff.mp (h.eq_zero_iff.mpr fun a ha => ?_) ⟨0, h0⟩
    by_contra hne
    exact hno ⟨a, ha, hne⟩
  · intro hno
    rcases h with ⟨h0, hnone⟩ | ⟨hg, hd, hmax⟩
    · exact ⟨⟨fun _ ⟨a, ha⟩ => hnone a ha, fun _ => h0⟩, fun hne => absurd h0 hne⟩
    · refine ⟨⟨fun h0 => ?_, fun hn => absurd ⟨gap, hg⟩ hn⟩, fun _ => ⟨hg, hd, hmax⟩⟩
      obtain ⟨a, ha, hne⟩ := hno (h0 ▸ hg)
      exact absurd (Nat.le_zero.mp (h0 ▸ hmax a ha)) hne

/-- `find_gap` is right when its floor does not wrap. With a floor that wraps it is right only
where no gap begins above address `0`; taken with the wrapped floor, it is wrong only where the
one gap begins at address `0`. -/
theorem find_gap_highest {mm : MmT} {l : List Nat} {len : Nat} (h : Rep mm l)
    (ho : Ordered (mm.areas l)) (htop : pg ∣ mm.mmapTop) (hword : mm.mmapTop < 2 ^ 64)
    (hlen : pg ∣ len) (hpos : 0 < len) :
    ∃ gap, findGap mm len = some gap ∧
      (GapOk (mm.areas l) mm.floor mm.mmapTop len gap ↔
        mm.floor < 2 ^ 64 ∨ ∀ a, IsGap (mm.areas l) mm.gapStart mm.mmapTop len a → a = 0) ∧
      (GapOk (mm.areas l) mm.gapStart mm.mmapTop len gap ↔
        (IsGap (mm.areas l) mm.gapStart mm.mmapTop len 0 →
          ∃ a, IsGap (mm.areas l) mm.gapStart mm.mmapTop len a ∧ a ≠ 0)) := by
  obtain ⟨gap, he, hbest⟩ := findGap_best ⟨h, ho⟩ htop hlen hpos
  refine ⟨gap, he, ?_, hbest.ok_iff⟩
  by_cases hwrap : mm.floor < 2 ^ 64
  · have hsame : mm.gapStart = mm.floor ∧ 0 < mm.floor := by
      have hg : 0 < gapFloor := by decide
      rw [MmT.floor] at hwrap
      rw [MmT.gapStart, MmT.floor]
      by_cases hb : mm.brk = 0
      · rw [if_pos hb, if_neg (not_not.mpr hb)]
        exact ⟨rfl, hg⟩
      · rw [if_neg hb] at hwrap ⊢
        rw [if_pos hb, add64_eq hwrap]
        exact ⟨rfl, by omega⟩
    rw [hsame.1] at hbest
    rw [hbest.ok_iff]
    refine iff_of_true (fun hc => ?_) (.inl hwrap)
    have := hc.floor_le
    omega
  · have hnone : ¬ ∃ a, IsGap (mm.areas l) mm.floor mm.mmapTop len a := by
      rintro ⟨a, ha⟩
      have h1 := ha.floor_le
      have h2 := ha.le_top
      omega
    rw [or_iff_right hwrap, ← hbest.eq_zero_iff]
    exact ⟨fun hok => hok.none_iff.mpr hnone, fun h0 =>
      ⟨iff_of_true h0 hnone, fun hne => absurd h0 hne⟩⟩

def single (a : Area) (brk : Nat) : MmT :=
  { mmCreate with
    area := fun _ => a, vmas := 1, vidx := [1], vcap := initialCap, brk := brk, owned := [1] }

theorem single_rep (a : Area) (brk : Nat) : Rep (single a brk) [1] :=
  ⟨⟨rfl, by decide, rfl, rfl⟩, by decide, fun _ => rfl, .inl rfl, fun _ hv => hv⟩

theorem single_ordered {a : Area} (ha : AreaOk a) (brk : Nat) :
    Ordered ((single a brk).areas [1]) :=
  ⟨List.pairwise_singleton _ _, fun _ hb => List.mem_singleton.mp hb ▸ ha⟩

def whole : Area := heapArea 0x1000 mmapTopInit

theorem find_gap_highest_above :
    findGap (single (heapArea 0x1000 0x2000) 0x2000) 4096 = some (mmapTopInit - 4096) ∧
    GapOk ((single (heapArea 0x1000 0x2000) 0x2000).areas [1])
      (single (heapArea 0x1000 0x2000) 0x2000).floor mmapTopInit 4096 (mmapTopInit - 4096) := by
  have hgap : findGap (single (heapArea 0x1000 0x2000) 0x2000) 4096 =
    some (mmapTopInit - 4096) := by decide +kernel
  have hok : AreaOk (heapArea 0x1000 0x2000) :=
    ⟨by decide, by decide, by decide, by decide, by decide⟩
  obtain ⟨gap, he, hiff, -⟩ := find_gap_highest (single_rep _ 0x2000) (single_ordered hok _)
    (show pg ∣ mmapTopInit by decide) (show mmapTopInit < 2 ^ 64 by decide)
    (show pg ∣ 4096 by decide) (by decide)
  cases hgap.symm.trans he
  exact ⟨hgap, hiff.mpr (.inl (by decide))⟩

/-- The break `2 ^ 64 - 2 ^ 28` wraps the floor to `0`. In an empty address space a mapping is
then placed below the floor; in a full one the first page, which is free, is not found. -/
theorem find_gap_floor_wraps :
    (∃ gap, findGap { mmCreate with brk := 0xFFFFFFFFF0000000 } 4096 = some gap ∧
      ¬ GapOk [] ({ mmCreate with brk := 0xFFFFFFFFF0000000 } : MmT).floor mmapTopInit 4096 gap) ∧
    ∃ gap, findGap (single whole 0xFFFFFFFFF0000000) 4096 = some gap ∧
      ¬ GapOk ((single whole 0xFFFFFFFFF0000000).areas [1])
        (single whole 0xFFFFFFFFF0000000).gapStart mmapTopInit 4096 gap := by
  constructor
  · refine ⟨mmapTopInit - 4096, by decide +kernel, fun hok => ?_⟩
    have hle := (hok.highest (by decide)).1.floor_le
    exact absurd hle (by decide +kernel)
  · refine ⟨0, by decide +kernel, fun hok => ?_⟩
    refine hok.none_iff.mp rfl ⟨0, ⟨by decide +kernel, by decide, fun a ha => .inr ?_⟩⟩
    rw [List.mem_singleton.mp ha]
    decide

/-! ## The break -/

section Break

variable {P : Type} {W : PageOps P} {s : St P} {l : List Nat}

theorem growHeap_look (A : Allocator) {mm : MmT} {oldEnd newEnd : Nat} (h : Listed mm l)
    (hlt : oldEnd < newEnd) (hfree : Free (mm.areas l) oldEnd newEnd) :
    ∃ mm' ok l', growHeap A mm oldEnd newEnd = some (mm', ok) ∧ Rep mm' l' ∧ SameHeap mm mm' ∧
      (ok = false → mm' = mm ∧ l' = l) ∧
      ∀ x, x < oldEnd ∨ newEnd ≤ x → look Area.seenAt (mm'.areas l') x =
      look Area.seenAt (mm.areas l) x := by
  rcases growHeap_cases A h hlt hfree with he | ⟨v, hv, hstop, he⟩ | ⟨mm', n, l₁, l₂, rfl, he, hrep,
    hheap, hareas, -, -⟩
  · exact ⟨mm, false, l, he, h, .refl _, fun _ => ⟨rfl, rfl⟩, fun _ _ => rfl⟩
  · refine ⟨_, true, l, he, h.setArea _ _, ⟨rfl, rfl, rfl⟩, fun hc => (nomatch hc), fun x hx => ?_⟩
    obtain ⟨l₁, l₂, rfl⟩ := List.append_of_mem hv
    rw [areas_setArea h.nodup, areas_append, areas_cons]
    refine look_replace (decide_eq_decide.mpr ?_) fun _ => rfl
    show ((mm.area v).start ≤ x ∧ x < newEnd) ↔ _
    omega
  · refine ⟨mm', true, _, he, hrep, hheap, fun hc => (nomatch hc), fun x hx => ?_⟩
    rw [hareas, areas_append]
    refine (look_erase (decide_eq_false ?_)).symm
    show ¬(oldEnd ≤ x ∧ x < newEnd)
    omega

/-- What a call with the new break may do: `r` is what it returned. -/
structure BrkOk (W : PageOps P) (s : St P) (l : List Nat) (newBrk : Nat) (s' : St P) (l' : List Nat)
    (r : Nat) : Prop where
  seen : ∀ x, x < s.mm.brkStart ∨ s.mm.mmapTop ≤ x ∨ (pup s.mm.brk ≤ x ∧ pup newBrk ≤ x) →
    look Area.seenAt (s'.mm.areas l') x = look Area.seenAt (s.mm.areas l) x
  zapped : Zapped W (pup newBrk) (pup s.mm.brk) s.pages s'.pages
  brkStart : s'.mm.brkStart = s.mm.brkStart
  range : s.mm.brkStart ≤ s'.mm.brk ∧ s'.mm.brk ≤ s.mm.mmapTop
  refused : r ≠ newBrk → s'.mm.areas l' = s.mm.areas l ∧ s'.mm.brk = s.mm.brk ∧ s'.pages = s.pages

theorem BrkOk.same {newBrk r : Nat} (hlow : s.mm.brkStart ≤ s.mm.brk)
    (hhigh : s.mm.brk ≤ s.mm.mmapTop) :
    BrkOk W s l newBrk s l r :=
  ⟨fun _ _ => rfl, .refl, rfl, ⟨hlow, hhigh⟩, fun _ => ⟨rfl, rfl, rfl⟩⟩

theorem Rep.setBrk {mm : MmT} (h : Rep mm l) (newBrk : Nat) : Rep { mm with brk := newBrk } l :=
  ⟨h.list, h.nodup, h.index, h.cache, h.owned⟩

theorem shrink_spec (A : Allocator) (W : PageOps P) (h : Listed s.mm l) (newBrk : Nat)
    (hle : pup newBrk ≤ pup s.mm.brk) : ∃ s' l', (do
        let (s, _) ← if pup newBrk < pup s.mm.brk then unmapLocked A W s (pup newBrk) (pup s.mm.brk)
          else some (s, 0)
        some (({ s with mm := { s.mm with brk := newBrk } } : St P), newBrk)) = some (s', newBrk) ∧
          Rep s'.mm l' ∧
      s'.mm.brk = newBrk ∧ s'.mm.brkStart = s.mm.brkStart ∧
      Outside W (pup newBrk) (pup s.mm.brk) s l s' l' := by
  by_cases hlt : pup newBrk < pup s.mm.brk
  · obtain ⟨s₁, rc, l₁, he, hu⟩ := unmapLocked_spec A W False hle (pg_dvd_pup newBrk)
      (pg_dvd_pup s.mm.brk) h
    refine ⟨{ s₁ with mm := { s₁.mm with brk := newBrk } }, l₁, ?_, hu.sim.rep.setBrk newBrk, rfl,
      hu.sim.heap.brkStart, hu.outside.seen, hu.outside.zapped⟩
    simp only [if_pos hlt, he, bind_eq_bind, bind_some]
  · refine ⟨{ s with mm := { s.mm with brk := newBrk } }, l, ?_, h.setBrk newBrk, rfl, rfl,
      fun _ _ => rfl, .refl⟩
    simp only [if_neg hlt, bind_eq_bind, bind_some]

/-- `mm_set_brk` does what it may exactly when the page above the new break does not wrap. -/
theorem set_brk_iff (A : Allocator) (W : PageOps P) (h : Rep s.mm l) (ho : Ordered (s.mm.areas l))
    (htop : pg ∣ s.mm.mmapTop) (huser : s.mm.mmapTop ≤ userTop) (hlow : s.mm.brkStart ≤ s.mm.brk)
    (hhigh : s.mm.brk ≤ s.mm.mmapTop) {newBrk : Nat} (hnew : newBrk < 2 ^ 64) :
    ∃ s' r l', mmSetBrk A W s newBrk = some (s', r) ∧ Rep s'.mm l' ∧
      (BrkOk W s l newBrk s' l' r ↔ newBrk + 4095 < 2 ^ 64) := by
  have hbound : userTop + 4096 < 2 ^ 64 := by decide
  have hold := pup_bounds (show s.mm.brk + 4095 < 2 ^ 64 by omega)
  have holdTop : pup s.mm.brk ≤ s.mm.mmapTop := by
    obtain ⟨k, hk⟩ := pg_dvd_pup s.mm.brk
    obtain ⟨m, hm⟩ := htop
    rw [show pg = 4096 from rfl] at hk hm
    omega
  unfold mmSetBrk
  by_cases hcheck : newBrk = 0 ∨ newBrk < s.mm.brkStart
  · exact ⟨s, s.mm.brk, l,
      by simp only [if_pos hcheck], h, iff_of_true (.same hlow hhigh) (by omega)⟩
  rw [not_or, not_lt] at hcheck
  simp only [if_neg (not_or.mpr ⟨hcheck.1, not_lt.mpr hcheck.2⟩)]
  by_cases hwrap : newBrk + 4095 < 2 ^ 64
  · have hup := pup_bounds hwrap
    by_cases hgrow : pup newBrk > pup s.mm.brk
    · rw [if_pos hgrow]
      obtain ⟨free, hfree, hf⟩ := rangeFree_spec ⟨h, ho⟩ (pup s.mm.brk) (pup newBrk)
      simp only [hfree, bind_eq_bind, bind_some]
      by_cases hno : pup newBrk > s.mm.mmapTop ∨ free = false
      · exact ⟨s, _, l, by rw [if_pos hno], h, iff_of_true (.same hlow hhigh) hwrap⟩
      rw [if_neg hno]
      simp only [not_or, not_lt, Bool.not_eq_false] at hno
      obtain ⟨mm', ok, l', hg, hrep, hheap, hfail, hlook⟩ :=
        growHeap_look A ⟨h, ho⟩ hgrow (hf hno.2)
      simp only [hg, bind_some]
      cases ok with
      | false =>
        obtain ⟨rfl, rfl⟩ := hfail rfl
        exact ⟨s, _, _, rfl, h, iff_of_true (.same hlow hhigh) hwrap⟩
      | true =>
        refine ⟨_, newBrk, l', rfl, hrep.setBrk newBrk,
          iff_of_true ⟨fun x hx => hlook x (by omega), .refl, hheap.brkStart,
          ⟨hcheck.2, show newBrk ≤ s.mm.mmapTop by omega⟩, fun hc => absurd rfl hc⟩ hwrap⟩
    · rw [if_neg hgrow]
      obtain ⟨s', l', he, hrep, hbrk, hstart, hout⟩ :=
        shrink_spec A W ⟨h, ho⟩ newBrk (not_lt.mp hgrow)
      refine ⟨s', newBrk, l', he, hrep, iff_of_true
        ⟨fun x hx => hout.seen x (by omega), hout.zapped, hstart, ?_, fun hc =>
          absurd rfl hc⟩ hwrap⟩
      rw [hbrk]
      exact ⟨hcheck.2, by omega⟩
  · -- the end of the new break is `0`, and the break itself lies above all mappings
    have hzero : pup newBrk = 0 := by
      simp only [pup, pdown, add64, pg]
      omega
    rw [if_neg (show ¬ pup newBrk > pup s.mm.brk by omega)]
    obtain ⟨s', l', he, hrep, hbrk, -⟩ := shrink_spec A W ⟨h, ho⟩ newBrk (by omega)
    refine ⟨s', newBrk, l', he, hrep, iff_of_false (fun hok => ?_) hwrap⟩
    have := hok.range.2
    omega

end Break

def program : MmT := { single (heapArea 0x400000 0x401000) 0x500000 with brkStart := 0x500000 }

theorem program_rep : Rep program [1] :=
  have h := single_rep (heapArea 0x400000 0x401000) 0x500000
  ⟨h.list, h.nodup, h.index, h.cache, h.owned⟩

theorem program_ordered : Ordered (program.areas [1]) :=
  single_ordered ⟨by decide, by decide, by decide, by decide, by decide⟩ 0x500000

theorem set_brk_iff_onePage :
    ∃ s' r l', mmSetBrk nextObject noPages ⟨program, ()⟩ 0x501000 = some (s', r) ∧
    BrkOk noPages ⟨program, ()⟩ [1] 0x501000 s' l' r := by
  obtain ⟨s', r, l', he, -, hok⟩ := set_brk_iff (s := ⟨program, ()⟩) nextObject noPages
    program_rep program_ordered
    (by decide) (by decide) (by decide) (by decide) (show 0x501000 < 2 ^ 64 by decide)
  exact ⟨s', r, l', he, hok.mpr (by decide)⟩

/-- The largest break unmaps the program and is taken as the new break. -/
theorem set_brk_wraps :
    ∃ s', mmSetBrk nextObject noPages ⟨program, ()⟩ (2 ^ 64 - 1) = some (s', 2 ^ 64 - 1) ∧
    s'.mm.vmas = 0 ∧ ∀ l', ¬ BrkOk noPages ⟨program, ()⟩ [1] (2 ^ 64 - 1) s' l' (2 ^ 64 - 1) := by
  have hrun : (mmSetBrk nextObject noPages ⟨program, ()⟩ (2 ^ 64 - 1)).map (fun p => (p.1.mm.vmas,
    p.1.mm.brk, p.2)) =
      some (0, 2 ^ 64 - 1, 2 ^ 64 - 1) := by decide +kernel
  obtain ⟨⟨s', r⟩, he, hs⟩ := map_eq_some_iff.mp hrun
  simp only [Prod.mk.injEq] at hs
  obtain ⟨hvmas, hbrk, rfl⟩ := hs
  refine ⟨s', he, hvmas, fun l' hok => ?_⟩
  have := hok.range.2
  rw [hbrk] at this
  exact absurd this (by decide)

end Cervus.Mm
