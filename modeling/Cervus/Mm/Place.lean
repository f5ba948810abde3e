import Mathlib.Data.List.TakeWhile
import Cervus.Mm.Refine

/-! The search for a gap, new mappings, and the heap. -/

namespace Cervus.Mm

open Cervus.Lib List Option

structure HeapOk (mm : MmT) : Prop where
  top : mm.mmapTop = mmapTopInit
  brk_le : mm.brk ≤ userTop
  le_brk : mm.brkStart ≤ mm.brk

variable {mm : MmT} {l r : List Nat}

theorem SameHeap.heapOk {mm' : MmT} (h : SameHeap mm mm') (hk : HeapOk mm) : HeapOk mm' :=
  ⟨h.mmapTop ▸ hk.top, h.brk ▸ hk.brk_le, h.brk ▸ h.brkStart ▸ hk.le_brk⟩

theorem tailLoop_eq (fuel : Nat) (h : Rep mm (l ++ r))
    (hf : r.length < fuel) : tailLoop mm fuel (r.headD 0) = some (r.getLastD 0) := by
  induction fuel generalizing l r with
  | zero => omega
  | succ fuel ih =>
    cases r with
    | nil => simp [tailLoop]
    | cons v r =>
      have hv0 : v ≠ 0 := h.ne_zero (v := v) (by simp)
      have hnext : mm.links.next v = r.headD 0 := h.list.next_eq
      rw [headD_cons, tailLoop, hnext]
      cases r with
      | nil => simp
      | cons n r =>
        have hn0 : n ≠ 0 := h.ne_zero (v := n) (by simp)
        have hl : l ++ v :: n :: r = (l ++ [v]) ++ n :: r := by simp
        rw [hl] at h
        rw [if_pos ⟨hv0, hn0⟩, ih h (by simpa using hf)]
        simp

structure IsGap (l : List Area) (floor top len a : Nat) : Prop where
  floor_le : floor ≤ a
  le_top : a + len ≤ top
  free : Free l a (a + len)

def BestGap (l : List Area) (floor top len gap : Nat) : Prop :=
  (gap = 0 ∧ ∀ a, ¬ IsGap l floor top len a) ∨
    IsGap l floor top len gap ∧ pg ∣ gap ∧ ∀ a, IsGap l floor top len a → a ≤ gap

variable {len : Nat}

theorem BestGap.raise {l : List Area} {floor top gap : Nat} {v : Area} (hv : v ∈ l) (hlen : 0 < len)
    (hlt : v.start < top)
    (hfit : ¬(v.stop ≤ top ∧ max v.stop floor < top ∧ len ≤ top - max v.stop floor))
    (h : BestGap l floor v.start len gap) : BestGap l floor top len gap := by
  have hbelow : ∀ a, IsGap l floor top len a → IsGap l floor v.start len a := by
    intro a ha
    refine ⟨ha.floor_le, ?_, ha.free⟩
    rcases ha.free v hv with hav | hav
    · have h1 := ha.floor_le
      have h2 := ha.le_top
      exact absurd ⟨by omega, by omega, by omega⟩ hfit
    · exact hav
  rcases h with ⟨h0, hno⟩ | ⟨hg, hd, hmax⟩
  · exact .inl ⟨h0, fun a ha => hno a (hbelow a ha)⟩
  · refine .inr ⟨⟨hg.floor_le, ?_, hg.free⟩, hd, fun a ha => hmax a (hbelow a ha)⟩
    have := hg.le_top
    omega

/-- The loop goes down the areas and finds the highest gap. -/
theorem gapLoop_spec (floor fuel curEnd : Nat) (h : Listed mm (l ++ r)) (hlen : pg ∣ len)
    (hend : pg ∣ curEnd) (hr : ∀ x ∈ r, curEnd ≤ (mm.area x).start) (hf : l.length < fuel) :
    ∃ gap, gapLoop mm floor len fuel (l.getLastD 0) curEnd = some gap ∧
      (gap ≠ 0 → floor ≤ gap ∧ gap + len ≤ curEnd ∧ pg ∣ gap ∧
        Free (mm.areas (l ++ r)) gap (gap + len)) ∧
      (0 < len → BestGap (mm.areas (l ++ r)) floor curEnd len gap) := by
  induction fuel generalizing l r curEnd with
  | zero => omega
  | succ fuel ih =>
    -- the top of the gap, when it is free
    have htop : ∀ {areas}, floor + len ≤ curEnd → Free areas (curEnd - len) (curEnd - len + len) →
        ∃ gap, some (curEnd - len) = some gap ∧
          (gap ≠ 0 → floor ≤ gap ∧ gap + len ≤ curEnd ∧ pg ∣ gap ∧ Free areas gap (gap + len)) ∧
          (0 < len → BestGap areas floor curEnd len gap) := fun hroom hfree => by
      refine ⟨_, rfl, fun _ => ⟨by omega, by omega, Nat.dvd_sub hend hlen, hfree⟩, fun _ => .inr ?_⟩
      refine ⟨⟨by omega, by omega, hfree⟩, Nat.dvd_sub hend hlen, fun a ha => ?_⟩
      have := ha.le_top
      omega
    rcases eq_nil_or_concat l with rfl | ⟨l, v, rfl⟩
    · rw [getLastD_nil, gapLoop, if_pos rfl]
      split_ifs with hfit
      · refine htop (by omega) (forall_areas.mpr fun x hx => .inr ?_)
        have := hr x hx
        omega
      · refine ⟨_, rfl, fun hg => absurd rfl hg, fun hpos => .inl ⟨rfl, fun a ha => hfit ?_⟩⟩
        have h1 := ha.floor_le
        have h2 := ha.le_top
        omega
    rw [concat_eq_append] at *
    have hv : v ∈ l ++ [v] ++ r := by simp
    have hv0 : v ≠ 0 := h.ne_zero hv
    have hok := h.ord.area hv
    have hprev : mm.links.prev v = l.getLastD 0 := by
      have hlist : DList mm.links 0 mm.vmas (l ++ v :: r) := by simpa using h.list
      exact hlist.prev_eq
    have hl : l ++ [v] ++ r = l ++ v :: r := by simp
    rw [hl] at h ⊢
    have hap := pairwise_append.mp h.ord.apart
    have hlast : (l ++ [v]).getLastD 0 = v := by simp
    have hmax : (if (mm.area v).stop > floor then (mm.area v).stop else floor) =
        max (mm.area v).stop floor := by
      split_ifs <;> omega
    have hmem : mm.area v ∈ mm.areas (l ++ v :: r) := mem_map_of_mem (by simp)
    have hne := hok.nonempty
    rw [hlast, gapLoop, if_neg hv0]
    simp only [hprev, hmax]
    by_cases hge : (mm.area v).start ≥ curEnd
    · rw [if_pos hge]
      refine ih curEnd h hend (fun x hx => ?_) (by simpa using hf)
      exact (mem_cons.mp hx).elim (fun e => e ▸ hge) (hr x)
    rw [if_neg hge]
    by_cases hfit : (mm.area v).stop ≤ curEnd ∧ curEnd > max (mm.area v).stop floor ∧
        curEnd - max (mm.area v).stop floor ≥ len
    · rw [if_pos hfit]
      refine htop (by omega) (forall_areas.mpr fun x hx => ?_)
      rcases mem_append.mp hx with hx | hx
      · have := hap.2.2 x hx v (by simp)
        exact .inl (by omega)
      · rcases mem_cons.mp hx with rfl | hx
        · exact .inl (by omega)
        · have := hr x hx
          exact .inr (by omega)
    rw [if_neg hfit]
    by_cases hfloor : (mm.area v).start ≤ floor
    · rw [if_pos hfloor]
      refine ⟨0, rfl, fun hc => absurd rfl hc, fun hpos => ?_⟩
      refine BestGap.raise hmem hpos (by omega) hfit (.inl ⟨rfl, fun a ha => ?_⟩)
      have h1 := ha.floor_le
      have h2 := ha.le_top
      omega
    · -- the next gap to try ends where this mapping starts
      rw [if_neg hfloor]
      obtain ⟨gap, he, hg, hbest⟩ := ih (mm.area v).start h hok.startAligned
        (fun x hx => by
          rcases mem_cons.mp hx with rfl | hx
          · exact le_rfl
          · have := hr x hx
            omega)
        (by simpa using hf)
      refine ⟨gap, he, fun h0 => ?_, fun hpos => (hbest hpos).raise hmem hpos (by omega) hfit⟩
      obtain ⟨h1, h2, h3⟩ := hg h0
      exact ⟨h1, by omega, h3⟩

def MmT.gapStart (mm : MmT) : Nat := if mm.brk ≠ 0 then add64 (pup mm.brk) gapFloor else gapFloor

theorem findGap_eq (h : Rep mm l) :
    findGap mm len = gapLoop mm mm.gapStart len (mm.owned.length + 1)
      (l.getLastD 0) mm.mmapTop := by
  have hl := h.length_le
  have htail := tailLoop_eq (l := []) (mm.owned.length + 1) h (by omega)
  rw [← h.list.head_eq] at htail
  simp only [findGap, htail, bind_eq_bind, bind_some]
  rfl

theorem findGap_spec (h : Listed mm l) (hk : HeapOk mm) (hlen : pg ∣ len) :
    ∃ gap, findGap mm len = some gap ∧ (gap ≠ 0 → 0x1000 ≤ gap ∧ gap + len ≤ userTop ∧ pg ∣ gap ∧
      Free (mm.areas l) gap (gap + len)) := by
  have hl := h.length_le
  have hfloor : 0x1000 ≤ mm.gapStart := by
    have hb := hk.brk_le
    have hbound : userTop + 4096 + gapFloor < 2 ^ 64 := by decide
    have hg : 0x1000 ≤ gapFloor := by decide
    have hup := pup_bounds (a := mm.brk) (by omega)
    unfold MmT.gapStart
    split_ifs
    · rw [add64_eq (by omega)]
      omega
    · exact hg
  have htop : pg ∣ mmapTopInit ∧ mmapTopInit ≤ userTop := by decide
  rw [findGap_eq h.toRep, hk.top]
  obtain ⟨gap, he, hg, -⟩ := gapLoop_spec (r := []) mm.gapStart (mm.owned.length + 1) mmapTopInit
    ((append_nil l).symm ▸ h) hlen htop.1 (by simp) (by omega)
  refine ⟨gap, he, fun h0 => ?_⟩
  obtain ⟨h1, h2, h3, h4⟩ := hg h0
  rw [append_nil] at h4
  exact ⟨by omega, by omega, h3, h4⟩

theorem findGap_best (h : Listed mm l) (htop : pg ∣ mm.mmapTop) (hlen : pg ∣ len) (hpos : 0 < len) :
    ∃ gap, findGap mm len = some gap ∧ BestGap (mm.areas l) mm.gapStart mm.mmapTop len gap := by
  have hl := h.length_le
  obtain ⟨gap, he, -, hb⟩ := gapLoop_spec (r := []) mm.gapStart (mm.owned.length + 1) mm.mmapTop
    ((append_nil l).symm ▸ h) hlen htop (by simp) (by omega)
  rw [append_nil] at hb
  exact ⟨gap, (findGap_eq h).trans he, hb hpos⟩

theorem rangeFree_spec (h : Listed mm l) (start stop : Nat) :
    ∃ free, rangeFree mm start stop = some free ∧ (free = true → Free (mm.areas l) start stop) := by
  obtain ⟨l₁, l₂, rfl, h1, -, he⟩ := vmaFirstEndingAfter_spec h start
  refine ⟨_, by rw [rangeFree, he]; rfl, fun hfree => ?_⟩
  refine forall_areas.mpr fun x hx => ?_
  rcases mem_append.mp hx with hx | hx
  · exact .inl (h1 x hx)
  · right
    cases l₂ with
    | nil => simp at hx
    | cons v r =>
      have hv0 : v ≠ 0 := h.ne_zero (v := v) (by simp)
      have hv : stop ≤ (mm.area v).start := by simpa [hv0] using hfree
      exact h.ord.from_start hv x hx

/-! ## New mappings -/

section

variable {P : Type} (A : Allocator) (W : PageOps P) (fits : Prop) {s : St P} {l : List Nat}
  {addr len n newEnd oldEnd : Nat}

theorem areas_addObject (mm : MmT) {a : Area} (hn : n ∉ l) :
    (mm.addObject n a).areas l = mm.areas l :=
  areas_setArea_of_notMem hn

theorem addObject_sim (h : Rep s.mm l) (hn : n ∉ l) (a : Area) :
    Sim W fits s l { s with mm := s.mm.addObject n a } l := by
  refine ⟨h.addObject n a, ?_, ⟨rfl, rfl, rfl⟩⟩
  rw [areas_addObject _ hn]
  exact .refl

/-- The place of a mapping is free and in the user range. -/
theorem mapPlace_spec (h : Listed s.mm l) (hk : HeapOk s.mm) (fixed : Bool)
    (haddr : addr < 2 ^ 64) (hlen : pg ∣ len) (hlt : len < 2 ^ 64)
    (hwrap : fixed = false → pdown addr + len < 2 ^ 64) :
    ∃ s' place l', mapPlace A W s addr len fixed = some (s', place) ∧ Sim W fits s l s' l' ∧
      Kept s.mm l s'.mm l' ∧ ∀ at', place = .ok at' → 0x1000 ≤ at' ∧ at' + len ≤ userTop ∧
        pg ∣ at' ∧ Free (s'.mm.areas l') at' (at' + len) := by
  have hkept : Kept s.mm l s.mm l := fun x hx hxl => ⟨hx, hxl⟩
  have hdown := pdown_le addr
  have hdvd := pg_dvd_pdown addr
  unfold mapPlace
  generalize pdown addr = at' at hwrap hdown hdvd
  cases fixed with
  | true =>
    simp only [if_true]
    split_ifs with hrange hlow
    · exact ⟨s, _, l, rfl, .refl h, hkept, by simp⟩
    · exact ⟨s, _, l, rfl, .refl h, hkept, by simp⟩
    rw [not_or, not_lt, not_lt] at hrange
    have hnw : at' + len < 2 ^ 64 := add64_noWrap (by omega) hlt hrange.2
    rw [add64_eq hnw] at hrange ⊢
    obtain ⟨s', rc, l', he, hu⟩ := unmapLocked_spec A W fits (Nat.le_add_right at' len) hdvd
      (dvd_add hdvd hlen) h
    refine ⟨s', _, l', by rw [he]; rfl, hu.sim, hu.kept, fun at'' hp => ?_⟩
    split_ifs at hp with hneg
    obtain rfl : at' = at'' := by simpa using hp
    have hrc : rc = 0 := hu.result.resolve_right fun hc => hneg (show rc < 0 by rw [hc]; decide)
    exact ⟨not_lt.mp hlow, hrange.1, hdvd, hu.free hrc⟩
  | false =>
    have hnw := hwrap rfl
    obtain ⟨free, hfree, hf⟩ := rangeFree_spec h at' (at' + len)
    simp only [Bool.false_eq_true, if_false, add64_eq hnw, hfree, bind_eq_bind,
      bind_some]
    split_ifs with hmove
    · obtain ⟨gap, hgap, hg⟩ := findGap_spec h hk hlen
      refine ⟨s, _, l, by rw [hgap]; rfl, .refl h, hkept, fun at'' hp => ?_⟩
      split_ifs at hp with h0
      obtain rfl : gap = at'' := by simpa using hp
      exact hg h0
    · refine ⟨s, _, l, rfl, .refl h, hkept, fun at'' hp => ?_⟩
      obtain rfl : at' = at'' := by simpa using hp
      simp only [not_or, not_lt, Bool.not_eq_false] at hmove
      exact ⟨by omega, hmove.2.1, hdvd, hf hmove.2.2.2⟩

/-- A mapping is one change of the areas. -/
theorem mapTemplate_sim (h : Listed s.mm l) (hk : HeapOk s.mm) {fixed : Bool} (tpl : Area)
    (haddr : addr < 2 ^ 64) (hlen : len + 4095 < 2 ^ 64)
    (hwrap : fixed = false → pdown addr + pup len < 2 ^ 64) :
    ∃ s' rc l', mapTemplate A W s addr len fixed tpl = some (s', rc) ∧ Sim W fits s l s' l' := by
  unfold mapTemplate
  by_cases h0 : len = 0
  · exact ⟨s, einval, l, by simp only [h0, if_true], .refl h⟩
  have hpos := pup_pos hlen h0
  have hup := pup_bounds hlen
  have hdvd := pg_dvd_pup len
  rw [if_neg h0]
  generalize pup len = size at hpos hup hdvd hwrap
  by_cases hal : fixed = true ∧ addr % pg ≠ 0
  · exact ⟨s, einval, l, by simp only [hal, ne_eq, not_false_eq_true, and_self, if_true], .refl h⟩
  simp only [if_neg hal]
  rcases vmaNew_cases A s.mm tpl with hnew | ⟨n, hn0, hfresh, hnew⟩
  · exact ⟨s, enomem, l, by simp [hnew], .refl h⟩
  have hnl : n ∉ l := fun hm => hfresh (h.owned n hm)
  have hsim₁ := addObject_sim W fits h.toRep hnl tpl
  simp only [hnew, if_neg hn0]
  obtain ⟨s₂, place, l₂, hplace, hsim₂, hkept, hok⟩ := mapPlace_spec A W fits (hsim₁.listed h)
    (hsim₁.heap.heapOk hk) fixed haddr hdvd (by omega) hwrap
  obtain ⟨hown, hnl₂⟩ := hkept n (mem_cons_self ..) hnl
  have hsim := hsim₁.trans hsim₂
  simp only [hplace, bind_eq_bind, bind_some]
  cases place with
  | error rc =>
    refine ⟨_, rc, l₂, rfl, hsim.trans ⟨hsim.rep.release hnl₂, .refl, ⟨rfl, rfl, rfl⟩⟩⟩
  | ok at' =>
    obtain ⟨hlow, htop, hal', hfree⟩ := hok at' rfl
    have hlt : at' + size < 2 ^ 64 := lt_of_le_of_lt htop (by decide)
    simp only [add64_eq hlt]
    let a : Area := { tpl with start := at', stop := at' + size }
    have hsim₃ : Sim W fits s₂ l₂ { s₂ with mm := s₂.mm.setArea n a } l₂ := by
      refine ⟨hsim.rep.setArea n a, ?_, ⟨rfl, rfl, rfl⟩⟩
      rw [areas_setArea_of_notMem hnl₂]
      exact .refl
    have harea : (s₂.mm.setArea n a).area n = a := by rw [area_setArea, if_pos rfl]
    obtain ⟨mm₄, l₄, hlink, hsim₄, -, -⟩ := link_sim A W fits (p := s₂.pages)
      ((hsim.trans hsim₃).listed h) hn0 hnl₂ hown (by
        rw [harea]
        exact ⟨show at' < at' + size by omega, hal', dvd_add hal' hdvd, hlow, htop⟩)
      (by
        rw [harea, areas_setArea_of_notMem hnl₂]
        exact hfree)
    have hsim₅ := (hsim.trans hsim₃).trans hsim₄
    obtain ⟨mm₆, l₆, hmerge, hsim₆, -⟩ := vmaMergeRange_sim W fits at' (at' + size) (hsim₅.listed h)
    exact ⟨_, (at' : Int), l₆, by simp only [a] at hlink; simp only [hlink, bind_some, hmerge],
      hsim₅.trans hsim₆⟩

/-! ## The heap -/

theorem extend_sim {v : Nat} (stop : Nat) (h : Listed s.mm l) (hv : v ∈ l)
    (hle : (s.mm.area v).stop ≤ stop) (ha : pg ∣ stop) (htop : stop ≤ userTop)
    (hfree : Free (s.mm.areas l) (s.mm.area v).stop stop) :
    Sim W fits s l { s with mm := s.mm.setArea v { s.mm.area v with stop := stop } } l := by
  obtain ⟨l₁, l₂, rfl⟩ := append_of_mem hv
  refine ⟨h.setArea _ _, .single ?_, ⟨rfl, rfl, rfl⟩⟩
  rw [areas_setArea h.nodup, areas_append, areas_cons]
  refine .extend hle ha htop (forall_areas.mpr fun x hx => ?_)
  have hxl : x ∈ l₁ ++ v :: l₂ := by simp [hx]
  have hap := h.ord.behind x hx
  have := (h.ord.area hxl).nonempty
  exact (hfree _ (mem_map_of_mem hxl)).resolve_left (by omega)

def heapArea (start stop : Nat) : Area :=
  { blankArea with start := start, stop := stop, flags := vmRead ||| vmWrite ||| vmHeap }

/-- The heap grows by its last area, or by a new one. -/
theorem growHeap_cases {mm : MmT} (h : Listed mm l)
    (hlt : oldEnd < newEnd) (hfree : Free (mm.areas l) oldEnd newEnd) :
    growHeap A mm oldEnd newEnd = some (mm, false) ∨
      (∃ v ∈ l, (mm.area v).stop = oldEnd ∧
        growHeap A mm oldEnd newEnd = some (mm.setArea v { mm.area v with stop := newEnd }, true)) ∨
      ∃ mm' n l₁ l₂, l = l₁ ++ l₂ ∧ growHeap A mm oldEnd newEnd = some (mm', true) ∧
      Rep mm' (l₁ ++ n :: l₂) ∧
        SameHeap mm mm' ∧ mm'.areas (l₁ ++ n :: l₂) = mm.areas l₁ ++ heapArea oldEnd newEnd ::
        mm.areas l₂ ∧
        (∀ a ∈ mm.areas l₁, a.stop ≤ oldEnd) ∧ ∀ a ∈ mm.areas l₂, newEnd ≤ a.start := by
  let skip : Nat → Bool := fun v => !((mm.area v).has vmHeap && decide ((mm.area v).stop = oldEnd))
  have hcut : l = l.takeWhile skip ++ l.dropWhile skip := takeWhile_append_dropWhile.symm
  have hdrop : ∀ x ∈ (l.dropWhile skip).head?, skip x = false := by
    intro x hx
    have := List.head?_dropWhile_not skip l
    rw [mem_def.mp hx] at this
    simpa using this
  have hwalk := (hcut ▸ h : Rep mm (l.takeWhile skip ++ l.dropWhile skip)).walk skip
    (fun x hx => mem_takeWhile_imp hx) hdrop
  simp only [growHeap]
  rw [hwalk]
  simp only [bind_eq_bind, bind_some]
  cases hd : l.dropWhile skip with
  | nil =>
    rcases vmaNew_cases A mm (heapArea oldEnd newEnd) with hnew | ⟨n, hn0, hfresh, hnew⟩
    · exact .inl (by simp [show vmaNew A mm { blankArea with
        start := oldEnd, stop := newEnd, flags := vmRead ||| vmWrite ||| vmHeap } = (mm, 0)
          from hnew])
    have hnl : n ∉ l := fun hm => hfresh (h.owned n hm)
    have harea : (mm.addObject n (heapArea oldEnd newEnd)).area n = heapArea oldEnd newEnd := by
      rw [area_addObject, if_pos rfl]
    have hsame := areas_addObject mm (a := heapArea oldEnd newEnd) hnl
    obtain ⟨mm', l₁, l₂, rfl, hlink, hrep, hareas, hheap, h1, h2⟩ := link_spec A
      ⟨h.addObject n (heapArea oldEnd newEnd), by rw [hsame]; exact h.ord⟩ hn0 hnl
        (mem_cons_self ..) (by rw [harea]; exact hlt)
      (by rw [harea, hsame]; exact hfree)
    rw [harea] at h1 h2
    have hl₁ : n ∉ l₁ ∧ n ∉ l₂ := by simpa using hnl
    have hmap : ∀ l₀, mm'.areas l₀ = (mm.addObject n (heapArea oldEnd newEnd)).areas l₀ :=
        fun l₀ => by
      rw [MmT.areas, hareas]
      rfl
    refine .inr (.inr ⟨mm', n, l₁, l₂, rfl, ?_, hrep, ⟨hheap.brkStart, hheap.brk, hheap.mmapTop⟩,
      ?_, ?_, ?_⟩)
    · rw [show vmaNew A mm { blankArea with
        start := oldEnd, stop := newEnd, flags := vmRead ||| vmWrite ||| vmHeap } = _ from hnew]
      simp only [if_neg hn0]
      rw [hlink]
      rfl
    · rw [areas_append, areas_cons, hareas, harea, hmap, hmap, areas_addObject mm hl₁.1,
        areas_addObject mm hl₁.2]
    · rw [← areas_addObject mm (a := heapArea oldEnd newEnd) hl₁.1]
      exact forall_areas.mpr h1
    · rw [← areas_addObject mm (a := heapArea oldEnd newEnd) hl₁.2]
      exact forall_areas.mpr h2
  | cons v r =>
    have hv : v ∈ l := (dropWhile_sublist skip).subset (hd ▸ mem_cons_self ..)
    have hstop : (mm.area v).stop = oldEnd := by
      have := hdrop v (by rw [hd]; rfl)
      simp only [skip, Bool.not_eq_false', Bool.and_eq_true, decide_eq_true_eq] at this
      exact this.2
    rw [headD_cons, if_pos (h.ne_zero hv)]
    exact .inr (.inl ⟨v, hv, hstop, rfl⟩)

theorem growHeap_sim (h : Listed s.mm l) (hlow : 0x1000 ≤ oldEnd) (hlt : oldEnd < newEnd)
    (ha : pg ∣ oldEnd) (hb : pg ∣ newEnd) (htop : newEnd ≤ userTop)
    (hfree : Free (s.mm.areas l) oldEnd newEnd) :
    ∃ mm' ok l', growHeap A s.mm oldEnd newEnd = some (mm', ok) ∧
      Sim W fits s l { s with mm := mm' } l' := by
  rcases growHeap_cases A h hlt hfree with he | ⟨v, hv, hstop, he⟩ | ⟨mm', n, l₁, l₂, rfl, he, hrep,
    hheap, hareas, h1, h2⟩
  · exact ⟨s.mm, false, l, he, .refl h⟩
  · exact ⟨_, true, l, he, extend_sim W fits _ h hv (by omega) hb htop (hstop ▸ hfree)⟩
  · refine ⟨mm', true, _, he, hrep, .single ?_, hheap⟩
    rw [hareas, areas_append]
    exact .insert ⟨hlt, ha, hb, hlow, htop⟩ h1 h2

/-- Moving the break changes areas only, and keeps the heap in place. -/
theorem mmSetBrk_spec (h : Listed s.mm l) (hk : HeapOk s.mm) {newBrk : Nat}
    (hstart : 0x1000 ≤ s.mm.brkStart) (hnew : newBrk + 4095 < 2 ^ 64) :
    ∃ s' rc l', mmSetBrk A W s newBrk = some (s', rc) ∧ Rep s'.mm l' ∧
      Changes W fits (s.mm.areas l, s.pages) (s'.mm.areas l', s'.pages) ∧ HeapOk s'.mm := by
  have hbrk := hk.brk_le
  have hle := hk.le_brk
  have hbound : userTop + 4095 < 2 ^ 64 ∧ mmapTopInit ≤ userTop := by decide
  have hold := pup_bounds (a := s.mm.brk) (by omega)
  have hnew' := pup_bounds hnew
  have hda := pg_dvd_pup s.mm.brk
  have hdb := pg_dvd_pup newBrk
  have holdTop : pup s.mm.brk ≤ userTop := by
    obtain ⟨k, hk'⟩ := hda
    have htop : userTop = 4096 * 34359738368 := by decide
    rw [show pg = 4096 from rfl] at hk'
    omega
  unfold mmSetBrk
  by_cases hcheck : newBrk = 0 ∨ newBrk < s.mm.brkStart
  · exact ⟨s, s.mm.brk, l, by simp only [if_pos hcheck], h, .refl, hk⟩
  rw [not_or, not_lt] at hcheck
  simp only [if_neg (not_or.mpr ⟨hcheck.1, not_lt.mpr hcheck.2⟩)]
  generalize pup s.mm.brk = oldEnd at *
  generalize pup newBrk = newEnd at *
  by_cases hgrow : newEnd > oldEnd
  · rw [if_pos hgrow]
    obtain ⟨free, hfree, hf⟩ := rangeFree_spec h oldEnd newEnd
    simp only [hfree, bind_eq_bind, bind_some]
    split_ifs with hno
    · exact ⟨s, _, l, rfl, h, .refl, hk⟩
    simp only [not_or, not_lt, Bool.not_eq_false, hk.top] at hno
    obtain ⟨mm', ok, l', hg, hsim⟩ := growHeap_sim A W fits h (by omega) hgrow hda hdb
      (by omega) (hf hno.2)
    simp only [hg, bind_some]
    cases ok with
    | true =>
      refine ⟨_, _, l', rfl, ?_, hsim.changes, ?_⟩
      · have := hsim.rep
        exact ⟨this.list, this.nodup, this.index, this.cache, this.owned⟩
      · have := hsim.heap.heapOk hk
        exact ⟨this.top, show newBrk ≤ userTop by omega,
          show mm'.brkStart ≤ newBrk by rw [hsim.heap.brkStart]; exact hcheck.2⟩
    | false => exact ⟨_, _, l', rfl, hsim.rep, hsim.changes, hsim.heap.heapOk hk⟩
  · rw [if_neg hgrow]
    have hfinal : ∀ s₁ l₁, Sim W fits s l s₁ l₁ → ∃ s' rc l',
        some (({ s₁ with mm := { s₁.mm with brk := newBrk } } : St P), newBrk) = some (s', rc) ∧
        Rep s'.mm l' ∧ Changes W fits (s.mm.areas l, s.pages) (s'.mm.areas l', s'.pages) ∧
        HeapOk s'.mm := by
      intro s₁ l₁ hsim
      have hr := hsim.rep
      have hk₁ := hsim.heap.heapOk hk
      exact ⟨_, _, l₁, rfl, ⟨hr.list, hr.nodup, hr.index, hr.cache, hr.owned⟩, hsim.changes,
        hk₁.top, show newBrk ≤ userTop by omega,
        show s₁.mm.brkStart ≤ newBrk by rw [hsim.heap.brkStart]; exact hcheck.2⟩
    split_ifs with hshrink
    · obtain ⟨s₁, rc, l₁, he, hu⟩ := unmapLocked_spec A W fits hshrink.le hdb hda h
      simp only [he, bind_eq_bind, bind_some]
      exact hfinal s₁ l₁ hu.sim
    · exact hfinal s l (.refl h)

end

end Cervus.Mm
