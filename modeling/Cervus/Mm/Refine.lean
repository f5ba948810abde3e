import Cervus.Mm.Primitives
import Cervus.Mm.Change

/-! The loops over the list of mappings make changes to it: splitting, merging,
unmapping a range, changing the mappings of a range one by one. -/

namespace Cervus.Mm

open Cervus.Lib List Option

/-- From `s` with the mappings `l` to `s'` with the mappings `l'` by changes. -/
structure Sim {P : Type} (W : PageOps P) (fits : Prop) (s : St P) (l : List Nat) (s' : St P)
    (l' : List Nat) : Prop where
  rep : Rep s'.mm l'
  changes : Changes W fits (s.mm.areas l, s.pages) (s'.mm.areas l', s'.pages)
  heap : SameHeap s.mm s'.mm

def Kept (mm : MmT) (l : List Nat) (mm' : MmT) (l' : List Nat) : Prop :=
  ∀ x ∈ mm.owned, x ∉ l → x ∈ mm'.owned ∧ x ∉ l'

def Free (l : List Area) (start stop : Nat) : Prop :=
  ∀ a ∈ l, a.stop ≤ start ∨ stop ≤ a.start

def Covers (l : List Area) (lo hi : Nat) : Prop := ∃ a ∈ l, a.start ≤ lo ∧ hi ≤ a.stop

section

variable {P : Type} {A : Allocator} {W : PageOps P} {fits : Prop} {s s' s'' : St P}
    {l l' l'' r : List Nat}

theorem Sim.refl (h : Rep s.mm l) : Sim W fits s l s l := ⟨h, .refl, .refl _⟩

theorem Sim.trans (h : Sim W fits s l s' l') (h' : Sim W fits s' l' s'' l'') :
    Sim W fits s l s'' l'' :=
  ⟨h'.rep, h.changes.trans h'.changes, h.heap.trans h'.heap⟩

theorem Sim.ordered (h : Sim W fits s l s' l') (ho : Ordered (s.mm.areas l)) :
    Ordered (s'.mm.areas l') :=
  Changes.ordered h.changes ho

theorem Sim.listed (hs : Sim W fits s l s' l') (h : Listed s.mm l) : Listed s'.mm l' :=
  ⟨hs.rep, hs.ordered h.ord⟩

theorem Kept.trans {a b c : MmT} (h : Kept a l b l') (h' : Kept b l' c l'') : Kept a l c l'' :=
  fun x hx hxl => h' x (h x hx hxl).1 (h x hx hxl).2

theorem Sim.cache {c : Nat} (h : Rep { s.mm with vcache := c } l) :
    Sim W fits s l { s with mm := { s.mm with vcache := c } } l :=
  ⟨h, .refl, ⟨rfl, rfl, rfl⟩⟩

variable {a b : List Area} {mm mm' : MmT} {at' hi lo v : Nat}

theorem forall_of_areas_eq (p : Area → Prop) (he : mm'.areas l = mm.areas l)
    (h : ∀ x ∈ l, p (mm.area x)) : ∀ x ∈ l, p (mm'.area x) := by
  have ha := forall_areas.mpr h
  rw [← he] at ha
  exact forall_areas.mp ha

theorem notMem_of_nodup (hn : (l ++ v :: r).Nodup) : v ∉ l ∧ v ∉ r := by
  simpa using (nodup_cons.mp (nodup_middle.mp hn)).1

/-- The mapping `v` has been cut at `at'`, and `n` is the part above. -/
structure Cut (W : PageOps P) (fits : Prop) (s : St P) (l : List Nat) (v : Nat) (r : List Nat)
    (at' : Nat) (mm' : MmT) (n : Nat) : Prop where
  sim : Sim W fits s (l ++ v :: r) { s with mm := mm' } (l ++ v :: n :: r)
  kept : Kept s.mm (l ++ v :: r) mm' (l ++ v :: n :: r)
  owned : mm'.owned = n :: s.mm.owned
  below : mm'.area v = (s.mm.area v).below at'
  above : mm'.area n = (s.mm.area v).above at'
  left : mm'.areas l = s.mm.areas l
  right : mm'.areas r = s.mm.areas r

section

variable (A W fits)

theorem split_sim (h : Listed s.mm (l ++ v :: r))
    (h1 : (s.mm.area v).start < at') (h2 : at' < (s.mm.area v).stop) (ha : pg ∣ at') :
    vmaSplit A s.mm v at' = some (s.mm, 0) ∨
      ∃ n mm', n ≠ 0 ∧ vmaSplit A s.mm v at' = some (mm', n) ∧ Cut W fits s l v r at' mm' n := by
  rcases vmaSplit_spec A h h1 h2 with he | ⟨n, mm', hn0, hnew, he, hrep, hv, hn, hx, hown, hheap⟩
  · exact .inl he
  obtain ⟨hvl, hvr⟩ := notMem_of_nodup h.nodup
  have hnl : n ∉ l ++ v :: r := fun hm => hnew (h.owned n hm)
  have hsame : ∀ l₀, (∀ x ∈ l₀, x ∈ l ++ v :: r ∧ x ≠ v) → mm'.areas l₀ = s.mm.areas l₀ := by
    intro l₀ h₀
    apply map_congr_left
    intro x hxl
    exact hx x (h₀ x hxl).2 fun e => hnl (e ▸ (h₀ x hxl).1)
  have hl := hsame l fun x hxl => ⟨by simp [hxl], fun e => hvl (e ▸ hxl)⟩
  have hr := hsame r fun x hxr => ⟨by simp [hxr], fun e => hvr (e ▸ hxr)⟩
  refine .inr ⟨n, mm', hn0, he, ⟨hrep, .single ?_, hheap⟩, ?_, hown, hv, hn, hl, hr⟩
  · simp only [areas_append, areas_cons, hl, hr, hv, hn]
    exact .split h1 h2 ha
  · intro x hxo hxl
    refine ⟨by simp [hown, hxo], ?_⟩
    have hxn : x ≠ n := fun e => hnew (e ▸ hxo)
    simp only [mem_append, mem_cons, not_or] at hxl ⊢
    exact ⟨hxl.1, hxl.2.1, hxn, hxl.2.2⟩

variable {n : Nat} {A} in
theorem cut_of_split (h : Listed s.mm (l ++ v :: r))
    (h1 : (s.mm.area v).start < at') (h2 : at' < (s.mm.area v).stop) (ha : pg ∣ at')
    (hs : vmaSplit A s.mm v at' = some (mm', n)) (hn : n ≠ 0) : Cut W fits s l v r at' mm' n := by
  rcases split_sim A W fits h h1 h2 ha with he | ⟨n', mm₁, -, he, hc⟩
  · rw [he] at hs
    exact absurd (Prod.mk.inj (Option.some.inj hs)).2.symm hn
  · rw [he] at hs
    cases hs
    exact hc

variable {W fits} (hc : Cut W fits s l v r at' mm' n)

include hc

theorem Cut.areas : mm'.areas (l ++ v :: n :: r) =
    s.mm.areas l ++ (s.mm.area v).below at' :: (s.mm.area v).above at' :: s.mm.areas r := by
  rw [areas_append, areas_cons, areas_cons, hc.left, hc.right, hc.below, hc.above]

theorem Cut.from_start (h : Listed s.mm (l ++ v :: r)) :
    ∀ x ∈ n :: r, at' ≤ (mm'.area x).start := by
  have hord := hc.sim.ordered h.ord
  rw [append_cons] at hord
  refine hord.from_start ?_
  rw [hc.above]
  exact le_refl at'

theorem Cut.up_to (hl : ∀ x ∈ l, (s.mm.area x).stop ≤ at') :
    ∀ x ∈ l ++ [v], (mm'.area x).stop ≤ at' := by
  intro x hx
  rcases mem_append.mp hx with hx | hx
  · exact forall_of_areas_eq (fun a => a.stop ≤ at') hc.left hl x hx
  · rw [mem_singleton.mp hx, hc.below]
    exact le_refl at'

end

theorem unlink_rep (h : Rep mm (l ++ v :: r)) (hs : Sorted mm (l ++ v :: r)) :
    Rep (vmaRelease (vmaUnlink mm v) v) (l ++ r) ∧
      Kept mm (l ++ v :: r) (vmaRelease (vmaUnlink mm v) v) (l ++ r) := by
  refine ⟨(vmaUnlink_spec h hs).release ?_, fun x hxo hxl => ?_⟩
  · simpa using notMem_of_nodup h.nodup
  · simp only [mem_append, mem_cons, not_or] at hxl ⊢
    refine ⟨?_, hxl.1, hxl.2.2⟩
    show x ∈ (vmaUnlink mm v).owned.erase v
    rw [vmaUnlink_owned]
    exact (mem_erase_of_ne hxl.2.1).mpr hxo

theorem release_areas (mm : MmT) (v : Nat) (l : List Nat) :
    (vmaRelease (vmaUnlink mm v) v).areas l = mm.areas l := by
  show l.map (vmaUnlink mm v).area = l.map mm.area
  rw [vmaUnlink_area]

theorem release_area (mm : MmT) (v : Nat) : (vmaRelease (vmaUnlink mm v) v).area = mm.area :=
  vmaUnlink_area mm v

theorem release_heap (mm : MmT) (v : Nat) : SameHeap mm (vmaRelease (vmaUnlink mm v) v) :=
  have h := vmaUnlink_heap mm v
  ⟨h.brkStart, h.brk, h.mmapTop⟩

section

variable (A W fits)

theorem remove_sim (h : Listed s.mm (l ++ v :: r)) :
    Sim W fits s (l ++ v :: r) ⟨vmaRelease (vmaUnlink s.mm v) v,
      W.zap (s.mm.area v) (s.mm.area v).start (s.mm.area v).stop s.pages⟩ (l ++ r) := by
  refine ⟨(unlink_rep h h.ord.starts).1, .single ?_, release_heap _ _⟩
  simp only [release_areas, areas_append, areas_cons]
  exact .remove

variable {n start stop : Nat} {p : P}

section
variable (h : Listed s.mm (l ++ v :: n :: r)) (hm : vmaMergeable (s.mm.area v) (s.mm.area n) = true)
include h hm

theorem merge_sim : Sim W fits s (l ++ v :: n :: r) { s with
      mm := vmaRelease (vmaUnlink
        (s.mm.setArea v { s.mm.area v with stop := (s.mm.area n).stop }) n) n } (l ++ v :: r) := by
  let a : Area := { s.mm.area v with stop := (s.mm.area n).stop }
  have hsplit : l ++ v :: n :: r = (l ++ [v]) ++ n :: r := by simp
  have hrep : Rep (s.mm.setArea v a) ((l ++ [v]) ++ n :: r) := hsplit ▸ h.setArea v a
  have hstart : ∀ x, ((s.mm.setArea v a).area x).start = (s.mm.area x).start := by
    intro x
    rw [area_setArea]
    split_ifs with hx
    · rw [hx]
    · rfl
  have hsorted : Sorted (s.mm.setArea v a) ((l ++ [v]) ++ n :: r) := by
    simp only [Sorted, hstart]
    exact hsplit ▸ h.ord.starts
  have hrel := (unlink_rep hrep hsorted).1
  refine ⟨by simpa using hrel, .single ?_, ?_⟩
  · have hn : (l ++ v :: r).Nodup := by simpa using hrel.nodup
    simp only [release_areas]
    rw [areas_setArea hn, areas_append, areas_cons, areas_cons]
    exact .merge hm
  · have hh := release_heap (s.mm.setArea v a) n
    exact ⟨hh.brkStart, hh.brk, hh.mmapTop⟩

theorem merge_flags : SameFlags (s.mm.areas (l ++ v :: n :: r)) ((vmaRelease (vmaUnlink
        (s.mm.setArea v { s.mm.area v with stop := (s.mm.area n).stop }) n) n).areas
          (l ++ v :: r)) := by
  intro x
  have hn : (l ++ v :: r).Nodup := h.nodup.sublist
    (sublist_cons_self n r |>.cons_cons v |>.append_left l)
  rw [release_areas, areas_setArea hn, areas_append, areas_cons, areas_cons]
  exact look_flags_merge (h.ord.area (by simp)).nonempty (h.ord.area (by simp)).nonempty hm

end

theorem Free.cut (ho : Ordered (mm.areas l)) (hf : Free (mm.areas l) start stop) :
    ∃ l₁ l₂, l = l₁ ++ l₂ ∧ (∀ x ∈ l₁, (mm.area x).stop ≤ start) ∧
      ∀ x ∈ l₂, stop ≤ (mm.area x).start := by
  have hmono : l.Pairwise fun v w => (mm.area w).stop ≤ start → (mm.area v).stop ≤ start := by
    apply ho.apart.imp_of_mem
    intro v w _ hw hvw hle
    have := (ho.area hw).nonempty
    omega
  obtain ⟨l₁, l₂, rfl, h1, h2⟩ := exists_cut hmono
  refine ⟨l₁, l₂, rfl, h1, fun x hx => ?_⟩
  exact (hf _ (mem_map_of_mem (mem_append_right _ hx))).resolve_left (h2 x hx)

theorem link_spec (h : Listed mm l)
    (hn0 : n ≠ 0) (hn : n ∉ l) (hown : n ∈ mm.owned) (hne : (mm.area n).start < (mm.area n).stop)
    (hfree : Free (mm.areas l) (mm.area n).start (mm.area n).stop) :
    ∃ mm' l₁ l₂, l = l₁ ++ l₂ ∧ vmaLink A mm n = some mm' ∧ Rep mm' (l₁ ++ n :: l₂) ∧
      mm'.area = mm.area ∧ SameHeap mm mm' ∧ (∀ x ∈ l₁, (mm.area x).stop ≤ (mm.area n).start) ∧
      ∀ x ∈ l₂, (mm.area n).stop ≤ (mm.area x).start := by
  obtain ⟨l₁, l₂, rfl, h1, h2⟩ := hfree.cut h.ord
  obtain ⟨mm', he, hrep, harea, -, hheap⟩ := vmaLink_spec A h hn0 hn hown
    (fun x hx => lt_of_lt_of_le (h.ord.area (mem_append_left _ hx)).nonempty (h1 x hx))
    (fun x hx => lt_of_lt_of_le hne (h2 x hx))
  exact ⟨mm', l₁, l₂, rfl, he, hrep, harea, hheap, h1, h2⟩

theorem link_sim (h : Listed mm l) (hn0 : n ≠ 0) (hn : n ∉ l) (hown : n ∈ mm.owned)
    (hok : AreaOk (mm.area n)) (hfree : Free (mm.areas l) (mm.area n).start (mm.area n).stop) :
    ∃ mm' l', vmaLink A mm n = some mm' ∧ Sim W fits ⟨mm, p⟩ l ⟨mm', p⟩ l' ∧ n ∈ l' ∧
      mm'.area = mm.area := by
  obtain ⟨mm', l₁, l₂, rfl, he, hrep, harea, hheap, h1, h2⟩ :=
    link_spec A h hn0 hn hown hok.nonempty hfree
  refine ⟨mm', l₁ ++ n :: l₂, he, ⟨hrep, .single ?_, hheap⟩, by simp, harea⟩
  have hareas : ∀ l₀, mm'.areas l₀ = mm.areas l₀ := fun l₀ => by rw [MmT.areas, harea]; rfl
  simp only [hareas, areas_append, areas_cons]
  exact .insert hok (forall_areas.mpr h1) (forall_areas.mpr h2)

/-! ## Merging -/

theorem mergeLoop_sim (stop fuel : Nat) (h : Listed s.mm (l ++ r)) (hf : r.length < fuel) :
    ∃ mm' l', mergeLoop stop fuel s.mm (r.headD 0) = some mm' ∧
      Sim W fits s (l ++ r) { s with mm := mm' } l' ∧
      SameFlags (s.mm.areas (l ++ r)) (mm'.areas l') := by
  induction fuel generalizing s l r with
  | zero => omega
  | succ fuel ih =>
    cases r with
    | nil => exact ⟨s.mm, l ++ [], by simp [mergeLoop], .refl h, fun _ => rfl⟩
    | cons v r =>
      have hv0 : v ≠ 0 := h.ne_zero (v := v) (by simp)
      have hnext : s.mm.links.next v = r.headD 0 := h.list.next_eq
      simp only [headD_cons, mergeLoop, hnext]
      by_cases hs : (s.mm.area v).start ≤ stop
      · rw [if_pos ⟨hv0, hs⟩]
        split_ifs with hm
        · cases r with
          | nil => exact absurd rfl hm.1
          | cons n r =>
            have hsim := merge_sim W fits h hm.2
            obtain ⟨mm', l', he, hsim', hflags⟩ := ih (hsim.listed h) (by simpa using hf)
            exact ⟨mm', l', he, hsim.trans hsim', (merge_flags h hm.2).trans hflags⟩
        · have hl : l ++ v :: r = (l ++ [v]) ++ r := by simp
          rw [hl] at h ⊢
          exact ih h (by simpa using hf)
      · rw [if_neg (fun hc => hs hc.2)]
        exact ⟨s.mm, _, rfl, .refl h, fun _ => rfl⟩

theorem vmaMergeRange_sim (start stop : Nat) (h : Listed s.mm l) :
    ∃ mm' l', vmaMergeRange s.mm start stop = some mm' ∧
      Sim W fits s l { s with mm := mm' } l' ∧ SameFlags (s.mm.areas l) (mm'.areas l') := by
  obtain ⟨l₁, l₂, rfl, -, -, he⟩ := vmaFirstEndingAfter_spec h (start - 1)
  have hlen := h.length_le
  rw [length_append] at hlen
  have hm := mergeLoop_sim W fits stop (s.mm.owned.length + 1) h (by omega)
  simpa only [vmaMergeRange, he, bind_eq_bind, bind_some] using hm

/-! ## Unmapping a range -/

theorem Covers.split {v : Area} (h : Covers (a ++ v :: b) lo hi) (hs : hi ≤ at' ∨ at' ≤ lo) :
    Covers (a ++ v.below at' :: v.above at' :: b) lo hi := by
  obtain ⟨x, hx, hlo, hhi⟩ := h
  simp only [mem_append, mem_cons] at hx
  rcases hx with hx | rfl | hx
  · exact ⟨x, by simp [hx], hlo, hhi⟩
  · rcases hs with hs | hs
    · exact ⟨x.below at', by simp, hlo, hs⟩
    · exact ⟨x.above at', by simp, hs, hhi⟩
  · exact ⟨x, by simp [hx], hlo, hhi⟩

theorem Covers.erase {v : Area} (h : Covers (a ++ v :: b) lo hi)
    (hv : ¬ (v.start ≤ lo ∧ hi ≤ v.stop)) : Covers (a ++ b) lo hi := by
  obtain ⟨x, hx, hlo, hhi⟩ := h
  simp only [mem_append, mem_cons] at hx
  rcases hx with hx | rfl | hx
  · exact ⟨x, by simp [hx], hlo, hhi⟩
  · exact absurd ⟨hlo, hhi⟩ hv
  · exact ⟨x, by simp [hx], hlo, hhi⟩

end

/-- From `p` to `p'` by taking away the pages of areas inside `[lo, hi)`. -/
def Zapped (W : PageOps P) (lo hi : Nat) (p p' : P) : Prop :=
  ∃ zs : List Area, (∀ a ∈ zs, lo ≤ a.start ∧ a.stop ≤ hi) ∧ p' = zapAll W zs p

theorem Zapped.refl : Zapped W lo hi p p := ⟨[], by simp, rfl⟩

theorem Zapped.single {a : Area} (h1 : lo ≤ a.start) (h2 : a.stop ≤ hi) :
    Zapped W lo hi p (W.zap a a.start a.stop p) := ⟨[a], by simp [h1, h2], rfl⟩

theorem Zapped.trans {p' p'' : P} (h : Zapped W lo hi p p') (h' : Zapped W lo hi p' p'') :
    Zapped W lo hi p p'' := by
  obtain ⟨zs, hz, rfl⟩ := h
  obtain ⟨zs', hz', rfl⟩ := h'
  refine ⟨zs ++ zs', fun a ha => (mem_append.mp ha).elim (hz a) (hz' a), ?_⟩
  rw [zapAll, zapAll, zapAll, foldl_append]

/-- Outside `[start, stop)` the areas are seen as before, and no pages are taken away. -/
structure Outside (W : PageOps P) (start stop : Nat) (s : St P) (l : List Nat) (s' : St P)
    (l' : List Nat) : Prop where
  seen : ∀ x, x < start ∨ stop ≤ x → look Area.seenAt (s'.mm.areas l') x =
    look Area.seenAt (s.mm.areas l) x
  zapped : Zapped W start stop s.pages s'.pages

theorem Outside.refl : Outside W start stop s l s l := ⟨fun _ _ => rfl, .refl⟩

theorem Outside.trans (h : Outside W start stop s l s' l')
    (h' : Outside W start stop s' l' s'' l'') :
    Outside W start stop s l s'' l'' :=
  ⟨fun x hx => (h'.seen x hx).trans (h.seen x hx), h.zapped.trans h'.zapped⟩

/-- What unmapping `[start, stop)` does besides changing the list. -/
structure Unmapped (W : PageOps P) (fits : Prop) (start stop : Nat) (s : St P) (l : List Nat)
    (s' : St P) (rc : Int) (l' : List Nat) : Prop where
  sim : Sim W fits s l s' l'
  kept : Kept s.mm l s'.mm l'
  result : rc = 0 ∨ rc = enomem
  free : rc = 0 → Free (s'.mm.areas l') start stop
  covers : ∀ lo hi, lo < hi → hi ≤ start ∨ stop ≤ lo → Covers (s.mm.areas l) lo hi →
    Covers (s'.mm.areas l') lo hi
  outside : Outside W start stop s l s' l'

theorem Unmapped.cons {rc : Int} (hsim : Sim W fits s l s' l') (hk : Kept s.mm l s'.mm l')
    (hc : ∀ lo hi, lo < hi → hi ≤ start ∨ stop ≤ lo → Covers (s.mm.areas l) lo hi →
    Covers (s'.mm.areas l') lo hi)
    (ho : Outside W start stop s l s' l') (h : Unmapped W fits start stop s' l' s'' rc l'') :
    Unmapped W fits start stop s l s'' rc l'' :=
  ⟨hsim.trans h.sim, hk.trans h.kept, h.result, h.free,
    fun lo hi hlt hd hcov => h.covers lo hi hlt hd (hc lo hi hlt hd hcov), ho.trans h.outside⟩

theorem Unmapped.failed (start stop : Nat) (h : Rep s.mm l) :
    Unmapped W fits start stop s l s enomem l :=
  ⟨.refl h, fun _ hx hxl => ⟨hx, hxl⟩, .inr rfl, fun h0 => absurd h0 (by decide),
    fun _ _ _ _ hc => hc, .refl⟩

theorem Unmapped.done (start stop : Nat) (h : Rep s.mm l) (hf : Free (s.mm.areas l) start stop) :
    Unmapped W fits start stop s l s 0 l :=
  ⟨.refl h, fun _ hx hxl => ⟨hx, hxl⟩, .inl rfl, fun _ => hf, fun _ _ _ _ hc => hc, .refl⟩

theorem Cut.outside (hc : Cut W fits s l v r at' mm' n) (h1 : (s.mm.area v).start < at')
    (h2 : at' < (s.mm.area v).stop) :
    Outside W start stop s (l ++ v :: r) { s with mm := mm' } (l ++ v :: n :: r) := by
  refine ⟨fun x _ => ?_, .refl⟩
  rw [hc.areas, areas_append, areas_cons]
  exact look_seenAt_split h1 h2

theorem remove_outside (h1 : start ≤ (s.mm.area v).start) (h2 : (s.mm.area v).stop ≤ stop) :
    Outside W start stop s (l ++ v :: r) ⟨vmaRelease (vmaUnlink s.mm v) v,
      W.zap (s.mm.area v) (s.mm.area v).start (s.mm.area v).stop s.pages⟩ (l ++ r) := by
  refine ⟨fun x hx => ?_, .single h1 h2⟩
  simp only [release_areas, areas_append, areas_cons]
  exact look_erase (decide_eq_false (by omega))

variable (A W fits)

/-- The loop over the areas of the range unmaps all that it reaches. -/
theorem unmapLoop_spec (fuel : Nat) (ha : pg ∣ stop) (h : Listed s.mm (l ++ r))
    (hl : ∀ x ∈ l, (s.mm.area x).stop ≤ start) (hr : ∀ x ∈ r, start ≤ (s.mm.area x).start)
    (hf : r.length < fuel) :
    ∃ s' rc l', unmapLoop A W start stop fuel s (r.headD 0) = some (s', rc) ∧
      Unmapped W fits start stop s (l ++ r) s' rc l' := by
  induction fuel generalizing s r with
  | zero => omega
  | succ fuel ih =>
    have hend : (∀ x ∈ r, stop ≤ (s.mm.area x).start) → Free (s.mm.areas (l ++ r)) start stop := by
      intro hrs
      refine forall_areas.mpr fun x hx => ?_
      exact (mem_append.mp hx).elim (fun hx => .inl (hl x hx)) (fun hx => .inr (hrs x hx))
    cases r with
    | nil => exact ⟨s, 0, l ++ [], by simp [unmapLoop], .done _ _ h (hend (by simp))⟩
    | cons v r =>
      have hv0 : v ≠ 0 := h.ne_zero (v := v) (by simp)
      simp only [headD_cons]
      simp only [unmapLoop]
      by_cases hdone : stop ≤ (s.mm.area v).start
      · rw [if_pos (Or.inr hdone)]
        exact ⟨s, 0, _, rfl, .done _ _ h (hend (h.ord.from_start hdone))⟩
      rw [if_neg (by simp [hv0, hdone]), if_neg (not_lt.mpr (hr v (by simp)))]
      -- the mapping ends inside the range, perhaps after a split at its end
      split_ifs with hover
      · rcases split_sim A W fits h (not_le.mp hdone) hover ha with he | ⟨n, mm', hn0, he, hcut⟩
        · exact ⟨s, enomem, _, by rw [he]; rfl, .failed _ _ h⟩
        have h' := hcut.sim.listed h
        have hnext : mm'.links.next v = n := by simpa using h'.list.next_eq
        have hsim₁ := remove_sim W fits h'
        have hk₁ := (unlink_rep h' h'.ord.starts).2
        have hr₁ := hcut.from_start h
        have hlast : Free ((vmaRelease (vmaUnlink mm' v) v).areas (l ++ n :: r)) start stop := by
          rw [release_areas]
          refine forall_areas.mpr fun x hx => ?_
          rcases mem_append.mp hx with hx | hx
          · exact .inl (forall_of_areas_eq (fun a => a.stop ≤ start) hcut.left hl x hx)
          · exact .inr (hr₁ x hx)
        have hin : start ≤ (mm'.area v).start ∧ (mm'.area v).stop ≤ stop := by
          rw [hcut.below]
          exact ⟨hr v (by simp), le_refl stop⟩
        refine ⟨_, 0, _, ?_, .cons hcut.sim hcut.kept (fun lo hi _ hd hc => ?_)
          (hcut.outside (not_le.mp hdone) hover) (.cons hsim₁ hk₁ (fun lo hi hlt hd hc => ?_)
            (remove_outside hin.1 hin.2) (.done _ _ hsim₁.rep hlast))⟩
        · rw [he]
          simp only [bind_eq_bind, bind_some, if_neg hn0, hnext]
          cases fuel with
          | zero => simp at hf
          | succ fuel =>
            rw [unmapLoop]
            simp only [release_area]
            rw [if_pos (Or.inr (hr₁ n mem_cons_self))]
        · rw [hcut.areas]
          rw [areas_append, areas_cons] at hc
          refine hc.split (hd.imp_left fun hle => le_trans hle ?_)
          exact le_trans (hr v (by simp)) (not_le.mp hdone).le
        · simp only [release_areas, release_area, areas_append, areas_cons] at hc ⊢
          refine hc.erase fun hin => ?_
          have hstart := hr v (by simp)
          rw [hcut.below] at hin
          obtain ⟨hin1, hin2⟩ : (s.mm.area v).start ≤ lo ∧ hi ≤ stop := hin
          omega
      · have hnext : s.mm.links.next v = r.headD 0 := h.list.next_eq
        have hsim₁ := remove_sim W fits h
        have hk₁ := (unlink_rep h h.ord.starts).2
        simp only [bind_eq_bind, bind_some, if_neg hv0, hnext]
        obtain ⟨s', rc, l', he, hu⟩ := ih (hsim₁.listed h)
          (by simpa only [release_area] using hl)
          (by
            simp only [release_area]
            exact fun x hx => hr x (by simp [hx]))
          (by simpa using hf)
        refine ⟨s', rc, l', he, .cons hsim₁ hk₁ (fun lo hi hlt hd hc => ?_)
          (remove_outside (hr v (by simp)) (not_lt.mp hover)) hu⟩
        simp only [release_areas, areas_append, areas_cons] at hc ⊢
        refine hc.erase fun hin => ?_
        have hstart := hr v (by simp)
        omega

/-- The first area may begin before the range, and is cut. -/
theorem unmapLoop_first (fuel : Nat) (hle : start ≤ stop) (hs : pg ∣ start) (ha : pg ∣ stop)
    (h : Listed s.mm (l ++ r)) (h1 : ∀ x ∈ l, (s.mm.area x).stop ≤ start)
    (h2 : ∀ x ∈ r, start < (s.mm.area x).stop) (hf : r.length + 1 < fuel) :
    ∃ s' rc l', unmapLoop A W start stop fuel s (r.headD 0) = some (s', rc) ∧
      Unmapped W fits start stop s (l ++ r) s' rc l' := by
  cases r with
  | nil => exact unmapLoop_spec A W fits fuel ha h h1 (by simp) (by simp at hf ⊢; omega)
  | cons v r =>
    have hv0 : v ≠ 0 := h.ne_zero (v := v) (by simp)
    have hstop := h2 v (by simp)
    by_cases hover : (s.mm.area v).start < start
    · obtain ⟨fuel, rfl⟩ := Nat.exists_eq_succ_of_ne_zero (Nat.ne_zero_of_lt hf)
      simp only [headD_cons]
      simp only [unmapLoop]
      rw [if_neg (by simp only [hv0, false_or]; omega), if_pos hover]
      rcases split_sim A W fits h hover hstop hs with he | ⟨n, mm', hn0, he, hcut⟩
      · exact ⟨s, enomem, _, by rw [he]; rfl, .failed _ _ h⟩
      have h' := hcut.sim.listed h
      rw [append_cons] at h'
      obtain ⟨s', rc, l', he', hu⟩ := unmapLoop_spec A W fits fuel ha h' (hcut.up_to h1)
        (hcut.from_start h) (by simpa using hf)
      rw [← append_cons] at hu
      refine ⟨s', rc, l', ?_, .cons hcut.sim hcut.kept (fun lo hi _ hd hc => ?_)
        (hcut.outside hover hstop) hu⟩
      · rw [he]
        simp only [bind_eq_bind, bind_some, if_neg hn0]
        exact he'
      · rw [hcut.areas]
        rw [areas_append, areas_cons] at hc
        exact hc.split (hd.imp_right fun hsl => le_trans hle hsl)
    · exact unmapLoop_spec A W fits fuel ha h h1 (h.ord.from_start (not_lt.mp hover)) (by omega)

theorem unmapLocked_spec (hle : start ≤ stop) (hs : pg ∣ start) (ha : pg ∣ stop)
    (h : Listed s.mm l) :
    ∃ s' rc l', unmapLocked A W s start stop = some (s', rc) ∧
      Unmapped W fits start stop s l s' rc l' := by
  obtain ⟨l₁, l₂, rfl, h1, h2, he⟩ := vmaFirstEndingAfter_spec h start
  have hlen := h.length_le
  rw [length_append] at hlen
  simp only [unmapLocked, he, bind_eq_bind, bind_some]
  exact unmapLoop_first A W fits _ hle hs ha h h1 h2 (by omega)

end

end Cervus.Mm
