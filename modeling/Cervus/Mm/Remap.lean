import Cervus.Mm.Protect
import Cervus.Mm.Place

/-! Resizing and moving a mapping. -/

namespace Cervus.Mm

open Cervus.Lib List Option

theorem Free.split {a b : List Area} {v : Area} {at' lo hi : Nat} (h : Free (a ++ v :: b) lo hi)
    (h1 : v.start ≤ at') (h2 : at' ≤ v.stop) :
    Free (a ++ v.below at' :: v.above at' :: b) lo hi := by
  intro x hx
  have hv := h v (by simp)
  simp only [mem_append, mem_cons] at hx
  rcases hx with hx | rfl | rfl | hx
  · exact h x (by simp [hx])
  · exact hv.imp_left h2.trans
  · exact hv.imp_right fun hle => hle.trans h1
  · exact h x (by simp [hx])

theorem Free.erase {a b : List Area} {v : Area} {lo hi : Nat} (h : Free (a ++ v :: b) lo hi) :
    Free (a ++ b) lo hi := by
  intro x hx
  exact h x (mem_append.mpr ((mem_append.mp hx).imp_right (mem_cons_of_mem _)))

theorem Ordered.unique {mm : MmT} {l : List Nat} (ho : Ordered (mm.areas l)) {x y addr : Nat}
    (hx : x ∈ l) (hy : y ∈ l) (hx1 : (mm.area x).start ≤ addr) (hx2 : addr < (mm.area x).stop)
    (hy1 : (mm.area y).start ≤ addr) (hy2 : addr < (mm.area y).stop) : x = y := by
  obtain ⟨a, b, rfl⟩ := append_of_mem hx
  obtain ⟨-, hxb, hax⟩ := pairwise_append.mp ho.apart
  rcases mem_append.mp hy with hy | hy
  · have := hax y hy x (by simp)
    omega
  · rcases mem_cons.mp hy with rfl | hy
    · rfl
    · have := (pairwise_cons.mp hxb).1 y hy
      omega

section

variable {P : Type} (A : Allocator) (W : PageOps P) (fits : Prop) {s : St P} {l : List Nat}
  {dest newAddr newLen old oldLen v : Nat} {fixed : Bool}

structure Dest (mm : MmT) (l : List Nat) (v old oldLen newLen dest : Nat) : Prop where
  mem : v ∈ l
  start : (mm.area v).start ≤ old
  stop : old + oldLen ≤ (mm.area v).stop
  low : 0x1000 ≤ dest
  top : dest + newLen ≤ userTop
  aligned : pg ∣ dest
  free : Free (mm.areas l) dest (dest + newLen)
  apart : dest + newLen ≤ old ∨ old + oldLen ≤ dest

theorem commit_rest {mm : MmT} {a b : List Nat} {n newStop : Nat} (keep : Bool)
    (h : Listed mm (a ++ v :: b)) (hfree : Free (mm.areas (a ++ v :: b)) dest newStop)
    (hn : n ∈ mm.owned) (hnl : n ∉ a ++ v :: b) :
    let rest := if keep then a ++ v :: b else a ++ b
    let mm' := if keep then mm else vmaRelease (vmaUnlink mm v) v
    Listed mm' rest ∧ mm'.area = mm.area ∧ SameHeap mm mm' ∧ n ∈ mm'.owned ∧ n ∉ rest ∧
      Free (mm.areas rest) dest newStop := by
  cases keep with
  | true => exact ⟨h, rfl, .refl _, hn, hnl, hfree⟩
  | false =>
    obtain ⟨hrep, hkept⟩ := unlink_rep h h.ord.starts
    obtain ⟨hn', hnl'⟩ := hkept n hn hnl
    have ho := h.ord
    simp only [areas_append, areas_cons] at ho hfree
    refine ⟨⟨hrep, ?_⟩, release_area mm v, release_heap mm v, hn', hnl', ?_⟩
    · simpa only [Bool.false_eq_true, if_false, release_areas, areas_append] using ho.erase
    · simpa only [Bool.false_eq_true, if_false, areas_append] using hfree.erase

structure RemapArgs (old oldLen newLen newAddr : Nat) (fixed : Bool) : Prop where
  oldAligned : pg ∣ old
  oldLenAligned : pg ∣ oldLen
  newLenAligned : pg ∣ newLen
  oldPos : 0 < oldLen
  oldTop : old + oldLen ≤ userTop
  fixedOk : fixed = true → 0 < newLen ∧ pg ∣ newAddr ∧ 0x1000 ≤ newAddr ∧
    newAddr + newLen ≤ userTop ∧ (newAddr + newLen ≤ old ∨ old + oldLen ≤ newAddr)

variable (h : Listed s.mm l)
include h

theorem split_mem {at' : Nat} (hv : v ∈ l) (h1 : (s.mm.area v).start < at')
    (h2 : at' < (s.mm.area v).stop) (ha : pg ∣ at') :
    ∃ mm' n l', vmaSplit A s.mm v at' = some (mm', n) ∧ Sim W fits s l { s with mm := mm' } l' ∧
      (∀ lo hi, Free (s.mm.areas l) lo hi → Free (mm'.areas l') lo hi) ∧
      (n ≠ 0 → v ∈ l' ∧ n ∈ l' ∧ mm'.area v = (s.mm.area v).below at' ∧
        mm'.area n = (s.mm.area v).above at') := by
  obtain ⟨a, b, rfl⟩ := append_of_mem hv
  rcases split_sim A W fits h h1 h2 ha with he | ⟨n, mm', -, he, hcut⟩
  · exact ⟨s.mm, 0, _, he, .refl h, fun _ _ hf => hf, by simp⟩
  · refine ⟨mm', n, _, he, hcut.sim, fun lo hi hf => ?_, fun _ =>
      ⟨by simp, by simp, hcut.below, hcut.above⟩⟩
    rw [hcut.areas]
    rw [areas_append, areas_cons] at hf
    exact hf.split h1.le h2.le

/-- The range is cut out of its area, or memory fails. -/
theorem cutOut_spec {stop : Nat} (hv : v ∈ l) (h1 : (s.mm.area v).start ≤ old)
    (hlt : old < stop) (h2 : stop ≤ (s.mm.area v).stop) (ha : pg ∣ old) (hb : pg ∣ stop) :
    ∃ mm' v' l', cutOut A s.mm v old stop = some (mm', v') ∧
      Sim W fits s l { s with mm := mm' } l' ∧
      (∀ lo hi, Free (s.mm.areas l) lo hi → Free (mm'.areas l') lo hi) ∧
      (v' ≠ 0 → v' ∈ l' ∧ (mm'.area v').start = old ∧ (mm'.area v').stop = stop) := by
  have hlow : ∃ mm' v' l',
      splitIf A (decide ((s.mm.area v).start < old)) s.mm v old = some (mm', v') ∧
      Sim W fits s l { s with mm := mm' } l' ∧
      (∀ lo hi, Free (s.mm.areas l) lo hi → Free (mm'.areas l') lo hi) ∧
      (v' ≠ 0 → v' ∈ l' ∧ (mm'.area v').start = old ∧ stop ≤ (mm'.area v').stop) := by
    by_cases hover : (s.mm.area v).start < old
    · rw [splitIf, if_pos (decide_eq_true hover)]
      obtain ⟨mm', n, l', he, hsim, hf, hn⟩ :=
        split_mem A W fits h hv hover (lt_of_lt_of_le hlt h2) ha
      refine ⟨mm', n, l', he, hsim, hf, fun hn0 => ?_⟩
      obtain ⟨-, hnl, -, han⟩ := hn hn0
      rw [han]
      exact ⟨hnl, rfl, h2⟩
    · exact ⟨s.mm, v, l, by simp [splitIf, hover], .refl h, fun _ _ hf => hf,
        fun _ => ⟨hv, by omega, h2⟩⟩
  obtain ⟨mm₁, v₁, l₁, he₁, hsim₁, hf₁, hv₁⟩ := hlow
  simp only [cutOut, he₁, bind_eq_bind, bind_some]
  by_cases h0 : v₁ = 0
  · exact ⟨mm₁, 0, l₁, by rw [if_pos h0], hsim₁, hf₁, by simp⟩
  obtain ⟨hvl, hstart, hstop⟩ := hv₁ h0
  rw [if_neg h0]
  by_cases hover : (mm₁.area v₁).stop > stop
  · have hlt' : ((⟨mm₁, s.pages⟩ : St P).mm.area v₁).start < stop := lt_of_eq_of_lt hstart hlt
    obtain ⟨mm₂, n, l₂, he₂, hsim₂, hf₂, hn⟩ := split_mem A W fits (hsim₁.listed h) hvl
      hlt' hover hb
    simp only [splitIf, decide_eq_true hover, if_true]
    rw [he₂]
    refine ⟨mm₂, _, l₂, rfl, hsim₁.trans hsim₂, fun lo hi hf => hf₂ lo hi (hf₁ lo hi hf), ?_⟩
    split_ifs with hn0
    · simp
    · obtain ⟨hvl', -, hav, -⟩ := hn hn0
      rw [hav]
      exact fun _ => ⟨hvl', hstart, rfl⟩
  · simp only [splitIf, decide_eq_false hover, Bool.false_eq_true, if_false, bind_some,
      if_neg h0]
    exact ⟨mm₁, v₁, l₁, rfl, hsim₁, hf₁, fun _ => ⟨hvl, hstart, by omega⟩⟩

/-- The destination is free and apart from the range. -/
theorem remapPlace_spec (hk : HeapOk s.mm) (hv : v ∈ l) (h1 : (s.mm.area v).start ≤ old)
    (h2 : old + oldLen ≤ (s.mm.area v).stop) (hpos : 0 < oldLen) (hlen : pg ∣ newLen)
    (hfix : fixed = true → pg ∣ newAddr ∧ 0x1000 ≤ newAddr ∧ newAddr + newLen ≤ userTop ∧
      (newAddr + newLen ≤ old ∨ old + oldLen ≤ newAddr)) :
    ∃ s' place l', remapPlace A W s v old newLen fixed newAddr = some (s', place) ∧
      Sim W fits s l s' l' ∧
      ∀ dest v', place = .ok (dest, v') → Dest s'.mm l' v' old oldLen newLen dest := by
  unfold remapPlace
  cases fixed with
  | true =>
    obtain ⟨hal, hlow, htop, hsep⟩ := hfix rfl
    have hnw : newAddr + newLen < 2 ^ 64 := lt_of_le_of_lt htop (by decide)
    obtain ⟨s₁, rc, l₁, he, hu⟩ := unmapLocked_spec A W fits (Nat.le_add_right newAddr newLen) hal
      (dvd_add hal hlen) h
    simp only [if_true, add64_eq hnw, he, bind_eq_bind, bind_some]
    split_ifs with hneg
    · exact ⟨s₁, _, l₁, rfl, hu.sim, by simp⟩
    have hrc : rc = 0 := hu.result.resolve_right fun hc => hneg (by rw [hc]; decide)
    have h' := hu.sim.listed h
    obtain ⟨c, v₁, hfind, hrep, hv₁⟩ := mmFindVma_spec h' old
    -- the mapping around `old` is cut nowhere inside `[old, old + oldLen)`
    have hcov := hu.covers old (old + oldLen) (by omega) (by omega)
      ⟨_, mem_map_of_mem hv, h1, h2⟩
    obtain ⟨a, ha, hs, hstop⟩ := hcov
    obtain ⟨x, hx, rfl⟩ := mem_map.mp ha
    have hfound : v₁ ∈ l₁ ∧ (s₁.mm.area v₁).start ≤ old ∧ old < (s₁.mm.area v₁).stop :=
      hv₁.resolve_left fun hc => hc.2 x hx ⟨hs, by omega⟩
    obtain rfl : v₁ = x := h'.ord.unique hfound.1 hx hfound.2.1 hfound.2.2 hs (by omega)
    refine ⟨_, _, l₁, by rw [hfind]; rfl, hu.sim.trans (.cache hrep), fun dest v' hp => ?_⟩
    obtain ⟨rfl, rfl⟩ : newAddr = dest ∧ v₁ = v' := by simpa using hp
    exact ⟨hx, hs, hstop, hlow, htop, hal, hu.free hrc, hsep⟩
  | false =>
    obtain ⟨gap, hgap, hg⟩ := findGap_spec h hk hlen
    simp only [Bool.false_eq_true, if_false, hgap, bind_eq_bind, bind_some]
    refine ⟨s, _, l, rfl, .refl h, fun dest v' hp => ?_⟩
    split_ifs at hp with h0
    obtain ⟨rfl, rfl⟩ : gap = dest ∧ v = v' := by simpa using hp
    obtain ⟨hlow, htop, hal, hfree⟩ := hg h0
    refine ⟨hv, h1, h2, hlow, htop, hal, hfree, ?_⟩
    have := hfree _ (mem_map_of_mem hv)
    omega

theorem populateIfLocked_sim (v : Nat) :
    ∃ s', populateIfLocked W s v = some s' ∧ Sim W fits s l s' l := by
  unfold populateIfLocked
  split_ifs with hl
  · obtain ⟨s', c, he, -, hsim⟩ := populateLockedVma_sim W fits h v
    exact ⟨s', he, hsim⟩
  · exact ⟨s, rfl, .refl h⟩

theorem remapCommit_sim {n : Nat} (oldLen : Nat) (keep : Bool) (hv : v ∈ l)
    (hlen : (s.mm.area v).stop = (s.mm.area v).start + oldLen) (hn0 : n ≠ 0) (hn : n ∈ s.mm.owned)
    (hnl : n ∉ l) (harea : s.mm.area n = (s.mm.area v).movedTo dest (dest + newLen))
    (hok : AreaOk ((s.mm.area v).movedTo dest (dest + newLen)))
    (hfree : Free (s.mm.areas l) dest (dest + newLen))
    (hsep : dest + newLen ≤ (s.mm.area v).start ∨ (s.mm.area v).stop ≤ dest)
    (hfits : fits → oldLen ≤ newLen) :
    ∃ s' rc l', remapCommit A W s v n (s.mm.area v).start dest oldLen keep = some (s', rc) ∧
      Sim W fits s l s' l' := by
  obtain ⟨a, b, rfl⟩ := append_of_mem hv
  obtain ⟨h₁, harea₁, hheap₁, hn₁, hnl₁, hfree₁⟩ := commit_rest keep h hfree hn hnl
  generalize hmm : (if keep then s.mm else vmaRelease (vmaUnlink s.mm v) v) = mm₁ at *
  have hareas : ∀ l₀, mm₁.areas l₀ = s.mm.areas l₀ := fun l₀ => by rw [MmT.areas, harea₁]; rfl
  obtain ⟨mm₂, l₁, l₂, hrest, hlink, hrep₂, harea₂, hheap₂, hb, hc⟩ := link_spec A h₁ hn0 hnl₁ hn₁
    (by rw [harea₁, harea]; exact hok.nonempty) (by rw [hareas, harea₁, harea]; exact hfree₁)
  have hareas₂ : ∀ l₀, mm₂.areas l₀ = s.mm.areas l₀ := fun l₀ => by
    rw [MmT.areas, harea₂, harea₁]; rfl
  have hsim : Sim W fits s (a ++ v :: b)
      ⟨mm₂, W.move (s.mm.area v).start dest oldLen s.pages⟩ (l₁ ++ n :: l₂) := by
    refine ⟨hrep₂, .single ?_, hheap₁.trans hheap₂⟩
    simp only [hareas₂, areas_append, areas_cons, harea]
    have hmove : Change W fits (s.mm.areas a ++ s.mm.area v :: s.mm.areas b, s.pages)
        (s.mm.areas l₁ ++ (s.mm.area v).movedTo dest (dest + newLen) :: s.mm.areas l₂,
          W.move (s.mm.area v).start dest ((s.mm.area v).stop - (s.mm.area v).start) s.pages) := by
      refine .move keep ?_ hok ?_ ?_ hsep ?_
      · rw [← areas_append, ← hrest]
        cases keep <;> simp [areas_append, areas_cons]
      · refine forall_areas.mpr fun x hx => ?_
        have := hb x hx
        rw [harea₁, harea] at this
        exact this
      · refine forall_areas.mpr fun x hx => ?_
        have := hc x hx
        rw [harea₁, harea] at this
        exact this
      · intro hf
        have := hfits hf
        omega
    rwa [hlen, Nat.add_sub_cancel_left] at hmove
  obtain ⟨s₃, he₃, hsim₃⟩ := populateIfLocked_sim W fits (hsim.listed h) n
  refine ⟨s₃, dest, _, ?_, hsim.trans hsim₃⟩
  simp only [remapCommit, hmm, hlink, bind_eq_bind, bind_some, he₃]

theorem remapMove_sim (hk : HeapOk s.mm) (keep : Bool) (hv : v ∈ l) (h1 : (s.mm.area v).start ≤ old)
    (h2 : old + oldLen ≤ (s.mm.area v).stop) (ha : RemapArgs old oldLen newLen newAddr fixed)
    (hpos : 0 < newLen) (hfits : fits → oldLen ≤ newLen) :
    ∃ s' rc l', remapMove A W s v old oldLen newLen fixed keep newAddr = some (s', rc) ∧
      Sim W fits s l s' l' := by
  have hbound : userTop + userTop < 2 ^ 64 := by decide
  have htop := ha.oldTop
  obtain ⟨s₁, place, l₁, hplace, hsim₁, hdest⟩ := remapPlace_spec A W fits h hk hv h1 h2
    ha.oldPos ha.newLenAligned fun hf => (ha.fixedOk hf).2
  simp only [remapMove, hplace, bind_eq_bind, bind_some]
  rcases place with rc | ⟨dest, v₁⟩
  · exact ⟨s₁, rc, l₁, rfl, hsim₁⟩
  have hd := hdest dest v₁ rfl
  have hdtop := hd.top
  obtain ⟨mm₂, v₂, l₂, hcut, hsim₂, hfree₂, hv₂⟩ :=
    cutOut_spec A W fits (hsim₁.listed h) hd.mem hd.start
    (Nat.lt_add_of_pos_right ha.oldPos) hd.stop ha.oldAligned
    (dvd_add ha.oldAligned ha.oldLenAligned)
  have hsim := hsim₁.trans hsim₂
  simp only [add64_eq (show old + oldLen < 2 ^ 64 by omega), hcut, bind_some]
  by_cases h0 : v₂ = 0
  · exact ⟨_, _, l₂, by rw [if_pos h0], hsim⟩
  obtain ⟨hvl, hstart, hstop⟩ := hv₂ h0
  rw [if_neg h0]
  cases hp : W.prepare dest (add64 dest oldLen) s₁.pages with
  | none => exact ⟨_, _, l₂, rfl, hsim⟩
  | some pages =>
    have hsim₃ : Sim W fits s l ⟨mm₂, pages⟩ l₂ :=
      hsim.trans ⟨hsim.rep, .single (.prepare hp), .refl _⟩
    simp only [add64_eq (show dest + newLen < 2 ^ 64 by omega)]
    rcases vmaNew_cases A mm₂ { mm₂.area v₂ with start := dest, stop := dest + newLen } with
      hnew | ⟨n, hn0, hfresh, hnew⟩
    · exact ⟨_, _, l₂, by rw [hnew]; rfl, hsim₃⟩
    have hnl : n ∉ l₂ := fun hm => hfresh (hsim₃.rep.owned n hm)
    have hnv : v₂ ≠ n := fun e => hnl (e ▸ hvl)
    let moved := (mm₂.area v₂).movedTo dest (dest + newLen)
    have hsim₄ : Sim W fits s l ⟨mm₂.addObject n moved, pages⟩ l₂ :=
      hsim₃.trans (addObject_sim W fits hsim₃.rep hnl moved)
    -- the allocation leaves the area of the mapping that moves alone
    have hav : (mm₂.addObject n moved).area v₂ = mm₂.area v₂ := by
      rw [area_addObject, if_neg hnv]
    have han : (mm₂.addObject n moved).area n = moved := by rw [area_addObject, if_pos rfl]
    have hok : AreaOk moved := ⟨Nat.lt_add_of_pos_right hpos, hd.aligned,
      dvd_add hd.aligned ha.newLenAligned, hd.low, hd.top⟩
    have hfree : Free ((mm₂.addObject n moved).areas l₂) dest (dest + newLen) := by
      rw [areas_addObject _ hnl]
      exact hfree₂ _ _ hd.free
    obtain ⟨s₅, rc, l₅, he₅, hsim₅⟩ := remapCommit_sim A W fits (hsim₄.listed h) (n :=
      n) oldLen keep hvl (by rw [hav, hstop, hstart]) hn0 (mem_cons_self ..)
      hnl (by rw [han, hav]) (by rw [hav]; exact hok) hfree
      (by rw [hav, hstart, hstop]; exact hd.apart) hfits
    rw [hav, hstart] at he₅
    rw [hnew]
    exact ⟨s₅, rc, l₅, by rw [if_neg hn0]; exact he₅, hsim₄.trans hsim₅⟩

theorem remapInPlace_sim (hv : v ∈ l)
    (ha : pg ∣ old) (hb : pg ∣ oldLen) (hc : pg ∣ newLen) (htop : old + oldLen ≤ userTop)
    (hnew : old + newLen < 2 ^ 64) :
    ∃ s' r l', remapInPlace A W s v old oldLen newLen = some (s', r) ∧ Sim W fits s l s' l' ∧
      (r = none → s' = s ∧ oldLen < newLen) := by
  have hbound : userTop < 2 ^ 64 := by decide
  simp only [remapInPlace, add64_eq hnew, add64_eq (show old + oldLen < 2 ^ 64 by omega)]
  split_ifs with heq hlt
  · exact ⟨s, _, l, rfl, .refl h, by simp⟩
  · obtain ⟨s', rc, l', he, hu⟩ := unmapLocked_spec A W fits
      (show old + newLen ≤ old + oldLen by omega)
      (dvd_add ha hc) (dvd_add ha hb) h
    exact ⟨s', _, l', by rw [he]; rfl, hu.sim, by simp⟩
  · obtain ⟨free, hfree, hf⟩ := rangeFree_spec h (old + oldLen) (old + newLen)
    simp only [hfree, bind_eq_bind, bind_some]
    split_ifs with hext
    · obtain ⟨hstop, -, htop', hfr⟩ := hext
      have hsim := extend_sim W fits (old + newLen) h hv (by omega) (dvd_add ha hc)
        htop' (hstop ▸ hf hfr)
      obtain ⟨s', he, hsim'⟩ := populateIfLocked_sim W fits (hsim.listed h) v
      exact ⟨s', some old, l, by simp only [he, bind_some], hsim.trans hsim', by simp⟩
    · exact ⟨s, none, l, rfl, .refl h, fun _ => ⟨rfl, by omega⟩⟩

theorem remapLocked_sim (hk : HeapOk s.mm) {maymove keep : Bool} (hnew : old + newLen < 2 ^ 64)
    (ha : RemapArgs old oldLen newLen newAddr fixed) (hfits : fits → fixed = true → oldLen ≤ newLen)
    (hkeep : keep = true → oldLen = newLen) :
    ∃ s' rc l', remapLocked A W s old oldLen newLen maymove fixed keep newAddr = some (s', rc) ∧
      Sim W fits s l s' l' := by
  have htop := ha.oldTop
  have hpos := ha.oldPos
  have hbound : userTop < 2 ^ 64 := by decide
  obtain ⟨c, v, hfind, hrep, hv⟩ := mmFindVma_spec h old
  have hsim₁ : Sim W fits s l { s with mm := { s.mm with vcache := c } } l := .cache hrep
  simp only [remapLocked, hfind, bind_eq_bind, bind_some,
    add64_eq (show old + oldLen < 2 ^ 64 by omega)]
  by_cases hbad : v = 0 ∨ old + oldLen > (s.mm.area v).stop
  · exact ⟨_, _, l, by rw [if_pos hbad], hsim₁⟩
  rw [if_neg hbad]
  rw [not_or, not_lt] at hbad
  obtain ⟨hvl, h1, -⟩ := hv.resolve_left fun hc => hbad.1 hc.1
  have hmove : 0 < newLen → (fits → oldLen ≤ newLen) → ∃ s' rc l',
      remapMove A W { s with mm := { s.mm with vcache := c } } v old oldLen newLen fixed keep
      newAddr =
        some (s', rc) ∧ Sim W fits s l s' l' := by
    intro hn hf
    obtain ⟨s', rc, l', he, hsim⟩ := remapMove_sim A W fits hrep
      (hsim₁.heap.heapOk hk) keep hvl h1 hbad.2 ha hn hf
    exact ⟨s', rc, l', he, hsim₁.trans hsim⟩
  by_cases hfk : fixed = true ∨ keep = true
  · rw [if_pos hfk]
    refine hmove ?_ fun hf => hfk.elim (hfits hf) fun hkp => (hkeep hkp).le
    exact hfk.elim (fun hf => (ha.fixedOk hf).1) fun hkp => hkeep hkp ▸ hpos
  rw [if_neg hfk]
  obtain ⟨s₂, r, l₂, he, hsim₂, hr⟩ := remapInPlace_sim A W fits (hsim₁.listed h) hvl
    ha.oldAligned ha.oldLenAligned ha.newLenAligned htop hnew
  simp only [he, bind_some]
  cases r with
  | some r => exact ⟨s₂, r, l₂, rfl, hsim₁.trans hsim₂⟩
  | none =>
    obtain ⟨rfl, hlt⟩ := hr rfl
    cases maymove with
    | false => exact ⟨_, _, l, rfl, hsim₁⟩
    | true => exact hmove (by omega) fun _ => hlt.le

/-- A remap is a sequence of changes of the areas. -/
theorem mmRemap_sim (hk : HeapOk s.mm) {flags : BitVec 32} (hold : old < 2 ^ 64)
    (hnewAddr : newAddr < 2 ^ 64) (h1 : oldLen + 4095 < 2 ^ 64)
    (h2 : flags &&& remapFixed ≠ 0 → newLen + 4095 < 2 ^ 64) (h3 : old + pup newLen < 2 ^ 64)
    (hfits : fits → flags &&& remapFixed ≠ 0 → pup oldLen ≤ pup newLen) :
    ∃ s' rc l', mmRemap A W s old oldLen newLen flags newAddr = some (s', rc) ∧
      Sim W fits s l s' l' := by
  have hnone : ∀ rc : Int, ∃ s' rc' l', some (s, rc) = some (s', rc') ∧ Sim W fits s l s' l' :=
    fun rc => ⟨s, rc, l, rfl, .refl h⟩
  have hop := pup_bounds h1
  have hfx : (flags &&& remapFixed != 0) = true → flags &&& remapFixed ≠ 0 := fun hf => by
    simpa using hf
  simp only [mmRemap]
  generalize (flags &&& remapMaymove != 0) = maymove
  generalize (flags &&& remapFixed != 0) = fixed at hfx ⊢
  generalize (flags &&& remapDontunmap != 0) = keep
  split_ifs with hzero hbits hmay hkeep hrange hfix hover
  all_goals try exact hnone _
  simp only [not_or, not_lt, not_not] at hzero hrange
  obtain ⟨hal, hn0, ho0⟩ := hzero
  have hpo := pup_pos h1 ho0
  have hpn : fixed = true → 0 < pup newLen := fun hf => pup_pos (h2 (hfx hf)) hn0
  have hdo := pg_dvd_pup oldLen
  have hdn := pg_dvd_pup newLen
  generalize pup oldLen = oldSize at *
  generalize pup newLen = newSize at *
  have hnw := add64_noWrap hold (by omega) hrange.1
  rw [add64_eq hnw] at hrange hover
  refine remapLocked_sim A W fits h hk h3 ?_ (fun hf hfixed => hfits hf (hfx hfixed))
    (fun hkp => by_contra fun hne => hkeep ⟨hkp, hne⟩)
  refine ⟨Nat.dvd_of_mod_eq_zero hal, hdo, hdn, hpo, hrange.2, fun hfixed => ?_⟩
  simp only [hfixed, true_and, not_or, not_lt, not_not] at hfix hover
  obtain ⟨ha, hlow, hw, htop⟩ := hfix
  have hnw' := add64_noWrap hnewAddr (by omega) hw
  rw [add64_eq hnw'] at htop hover
  exact ⟨hpn hfixed, Nat.dvd_of_mod_eq_zero ha, hlow, htop, by omega⟩

end

end Cervus.Mm
