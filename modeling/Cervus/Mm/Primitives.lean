import Cervus.Mm.Invariant

/-! Linking, unlinking, splitting and merging mappings, and the search for a gap. -/

namespace Cervus.Mm

open Cervus.Lib List

structure SameHeap (mm mm' : MmT) : Prop where
  brkStart : mm'.brkStart = mm.brkStart
  brk : mm'.brk = mm.brk
  mmapTop : mm'.mmapTop = mm.mmapTop

theorem SameHeap.refl (mm : MmT) : SameHeap mm mm := ⟨rfl, rfl, rfl⟩

theorem SameHeap.trans {a b c : MmT} (h : SameHeap a b) (h' : SameHeap b c) : SameHeap a c :=
  ⟨h'.brkStart.trans h.brkStart, h'.brk.trans h.brk, h'.mmapTop.trans h.mmapTop⟩

variable {l r : List Nat} {mm : MmT}

theorem insertIdx_length_append {x : Nat} : (l ++ r).insertIdx l.length x = l ++ x :: r := by
  induction l with
  | nil => rfl
  | cons y l ih => simp [insertIdx_succ_cons, ih]

theorem linkPosition_spec {start : Nat} (h : Rep mm (l ++ r))
    (hl : ∀ x ∈ l, (mm.area x).start < start) (hr : ∀ x ∈ r, start < (mm.area x).start) :
    ∃ i, linkPosition mm start = some (i, l.getLastD 0, r.headD 0) ∧
      (mm.vbad = false → i = l.length) := by
  cases hb : mm.vbad with
  | true =>
    have hw := h.walk (fun v => decide ((mm.area v).start < start))
      (fun x hx => decide_eq_true (hl x hx))
      (fun x hx => decide_eq_false (hr x (mem_of_mem_head? hx)).not_gt)
    refine ⟨0, ?_, by simp⟩
    rw [linkPosition, if_pos hb, hw]
    rfl
  | false =>
    have hidx := h.index hb
    have hup := vidxUpper_eq hidx (fun x hx => (hl x hx).le) hr
    have hb' : ¬ mm.vbad = true := by simp [hb]
    refine ⟨l.length, ?_, fun _ => rfl⟩
    simp only [linkPosition, if_neg hb', hup, hidx]
    rcases eq_nil_or_concat l with rfl | ⟨l, x, rfl⟩
    · simpa using h.list.head_eq
    · rw [concat_eq_append] at *
      have hx0 : x ≠ 0 := h.ne_zero (v := x) (by simp)
      have hnext : mm.links.next x = r.headD 0 := by
        have hlist : DList mm.links 0 mm.vmas (l ++ x :: r) := by simpa using h.list
        exact hlist.next_eq
      rw [getD_length_pred, if_pos (by simp), if_pos hx0, hnext]
      simp

/-- Linking puts the area at its place in the list and the index. -/
theorem vmaLink_spec (A : Allocator) {n : Nat} (h : Rep mm (l ++ r)) (hn0 : n ≠ 0) (hn : n ∉ l ++ r)
    (hown : n ∈ mm.owned) (hl : ∀ x ∈ l, (mm.area x).start < (mm.area n).start)
    (hr : ∀ x ∈ r, (mm.area n).start < (mm.area x).start) :
    ∃ mm', vmaLink A mm n = some mm' ∧ Rep mm' (l ++ n :: r) ∧ mm'.area = mm.area ∧
      mm'.owned = mm.owned ∧ SameHeap mm mm' := by
  obtain ⟨i, hpos, hi⟩ := linkPosition_spec h hl hr
  have hlist := h.list.insert (h.list.zero_nodup h.nodup) hn0 (by simpa [hn0] using hn)
  have hhead : (if l.getLastD 0 ≠ 0 then mm.vmas else n) = if l = [] then n else mm.vmas := by
    by_cases hnil : l = []
    · simp [hnil]
    · have := h.ne_zero (mem_append_left r (DList.getLastD_mem (p := 0) hnil))
      rw [if_pos this, if_neg hnil]
  rw [← hhead] at hlist
  have hnodup : (l ++ n :: r).Nodup := nodup_middle.mpr (nodup_cons.mpr ⟨hn, h.nodup⟩)
  have hcache : mm.vcache = 0 ∨ mm.vcache ∈ l ++ n :: r :=
    h.cache.imp_right fun hm => mem_append.mpr
      ((mem_append.mp hm).imp_right (mem_cons_of_mem _))
  have howned : ∀ v ∈ l ++ n :: r, v ∈ mm.owned := by
    intro v hv
    rcases mem_append.mp hv with hv | hv
    · exact h.owned v (mem_append_left _ hv)
    · rcases mem_cons.mp hv with rfl | hv
      · exact hown
      · exact h.owned v (mem_append_right _ hv)
  have hidx : mm.vbad = false → mm.vidx.insertIdx i n = l ++ n :: r := by
    intro hb
    rw [h.index hb, hi hb]
    exact insertIdx_length_append
  unfold vmaLink
  simp only [hpos, Option.bind_eq_bind, Option.bind_some]
  generalize (if l.getLastD 0 ≠ 0 then mm.vmas else n) = head at hlist
  generalize (if mm.vcap ≠ 0 then mm.vcap * 2 else initialCap) = ncap
  split_ifs with hb hfull hg
  · exact ⟨_, rfl, ⟨hlist, hnodup, by simp [hb], hcache, howned⟩, rfl, rfl, ⟨rfl, rfl, rfl⟩⟩
  · exact ⟨_, rfl, ⟨hlist, hnodup, hidx, hcache, howned⟩, rfl, rfl, ⟨rfl, rfl, rfl⟩⟩
  · exact ⟨_, rfl, ⟨hlist, hnodup, by simp, hcache, howned⟩, rfl, rfl, ⟨rfl, rfl, rfl⟩⟩
  · exact ⟨_, rfl, ⟨hlist, hnodup, hidx, hcache, howned⟩, rfl, rfl, ⟨rfl, rfl, rfl⟩⟩

theorem vmaUnlink_area (mm : MmT) (v : Nat) : (vmaUnlink mm v).area = mm.area := by
  simp only [vmaUnlink]
  split_ifs <;> rfl

theorem vmaUnlink_owned (mm : MmT) (v : Nat) : (vmaUnlink mm v).owned = mm.owned := by
  simp only [vmaUnlink]
  split_ifs <;> rfl

theorem vmaUnlink_heap (mm : MmT) (v : Nat) : SameHeap mm (vmaUnlink mm v) := by
  simp only [vmaUnlink]
  split_ifs <;> exact ⟨rfl, rfl, rfl⟩

/-- Unlinking takes it out of both. -/
theorem vmaUnlink_spec {v : Nat} (h : Rep mm (l ++ v :: r))
    (hs : Sorted mm (l ++ v :: r)) : Rep (vmaUnlink mm v) (l ++ r) := by
  have hmem : v ∈ l ++ v :: r := by simp
  obtain ⟨hv, hnodup⟩ := nodup_cons.mp (nodup_middle.mp h.nodup)
  have herase : (l ++ v :: r).erase v = l ++ r := by
    rw [erase_append_right _ (fun hm => hv (mem_append_left _ hm)), erase_cons_head]
  have hlist := h.list.remove h.nodup hmem
  rw [herase] at hlist
  have hcache : (if mm.vcache = v then 0 else mm.vcache) = 0 ∨
      (if mm.vcache = v then 0 else mm.vcache) ∈ l ++ r := by
    by_cases hc : mm.vcache = v
    · exact .inl (if_pos hc)
    · rw [if_neg hc]
      exact h.cache.imp_right fun hm => by simpa [hc] using hm
  have howned : ∀ x ∈ l ++ r, x ∈ mm.owned := fun x hx =>
    h.owned x (mem_append.mpr ((mem_append.mp hx).imp_right (mem_cons_of_mem _)))
  unfold vmaUnlink
  cases hb : mm.vbad with
  | true => exact ⟨hlist, hnodup, by simp, hcache, howned⟩
  | false =>
    have hidx : mm.vidx = (l ++ [v]) ++ r := by rw [h.index hb]; simp
    obtain ⟨-, hs2, hs1⟩ := pairwise_append.mp hs
    have hup : vidxUpper mm (mm.area v).start = (l ++ [v]).length := by
      apply vidxUpper_eq hidx
      · intro x hx
        rcases mem_append.mp hx with hx | hx
        · exact (hs1 x hx v (by simp)).le
        · rw [mem_singleton.mp hx]
      · exact (pairwise_cons.mp hs2).1
    have hpos : (l ++ [v]).length ≥ 1 ∧ True := ⟨by simp, trivial⟩
    simp only [hup, hidx, getD_length_pred, if_pos hpos, Bool.false_eq_true, if_false]
    refine ⟨hlist, hnodup, fun _ => ?_, hcache, howned⟩
    simp [eraseIdx_append_of_length_le]

theorem Rep.release {v : Nat} (h : Rep mm l) (hv : v ∉ l) : Rep (vmaRelease mm v) l := by
  refine ⟨h.list, h.nodup, h.index, h.cache, fun x hx => ?_⟩
  have hxv : x ≠ v := fun e => hv (e ▸ hx)
  exact (mem_erase_of_ne hxv).mpr (h.owned x hx)

theorem area_addObject {n w : Nat} {a : Area} :
    (mm.addObject n a).area w = if w = n then a else mm.area w :=
  area_setArea

theorem Rep.addObject (h : Rep mm l) (n : Nat) (a : Area) : Rep (mm.addObject n a) l :=
  ⟨h.list, h.nodup, h.index, h.cache, fun v hv => mem_cons_of_mem _ (h.owned v hv)⟩

theorem vmaNew_cases (A : Allocator) (mm : MmT) (a : Area) :
    vmaNew A mm a = (mm, 0) ∨ ∃ n, n ≠ 0 ∧ n ∉ mm.owned ∧
      vmaNew A mm a = (mm.addObject n a, n) := by
  unfold vmaNew
  cases hp : A.pick mm.owned with
  | none => exact .inl rfl
  | some n => exact .inr ⟨n, (A.fresh _ _ hp).1, (A.fresh _ _ hp).2, rfl⟩

/-- A split makes two areas of one, or fails and changes nothing. -/
theorem vmaSplit_spec (A : Allocator) {v at' : Nat} (h : Listed mm (l ++ v :: r))
    (h1 : (mm.area v).start < at') (h2 : at' < (mm.area v).stop) :
    vmaSplit A mm v at' = some (mm, 0) ∨
      ∃ n mm', n ≠ 0 ∧ n ∉ mm.owned ∧ vmaSplit A mm v at' = some (mm', n) ∧
        Rep mm' (l ++ v :: n :: r) ∧ mm'.area v = (mm.area v).below at' ∧
        mm'.area n = (mm.area v).above at' ∧ (∀ x, x ≠ v → x ≠ n → mm'.area x = mm.area x) ∧
        mm'.owned = n :: mm.owned ∧ SameHeap mm mm' := by
  unfold vmaSplit
  rcases vmaNew_cases A mm ((mm.area v).above at') with hnew | ⟨n, hn0, hnew, he⟩
  · exact .inl (by rw [hnew]; rfl)
  have hnl : n ∉ l ++ v :: r := fun hm => hnew (h.owned n hm)
  have hnv : n ≠ v := fun e => hnl (by simp [e])
  obtain ⟨hvl, hvr⟩ : v ∉ l ∧ v ∉ r := by
    simpa using (nodup_cons.mp (nodup_middle.mp h.nodup)).1
  let mm₁ := mm.addObject n ((mm.area v).above at')
  let mm₂ := mm₁.setArea v ((mm₁.area v).below at')
  have hav : mm₁.area v = mm.area v := by rw [area_addObject, if_neg hnv.symm]
  have hv : mm₂.area v = (mm.area v).below at' := by rw [area_setArea, if_pos rfl, hav]
  have hn : mm₂.area n = (mm.area v).above at' := by
    rw [area_setArea, if_neg hnv, area_addObject, if_pos rfl]
  have hother : ∀ x, x ≠ v → x ≠ n → mm₂.area x = mm.area x := by
    intro x hxv hxn
    rw [area_setArea, if_neg hxv, area_addObject, if_neg hxn]
  have hrep : Rep mm₂ ((l ++ [v]) ++ r) := by
    rw [append_assoc]
    exact (h.addObject n _).setArea v _
  have ho := h.ord
  rw [areas_append, areas_cons] at ho
  obtain ⟨-, ho₂, hlv⟩ := ordered_append.mp ho
  obtain ⟨-, -, hvr'⟩ := ordered_cons.mp ho₂
  have hstart : (mm₂.area n).start = at' := by rw [hn]; rfl
  have hl : ∀ x ∈ l ++ [v], (mm₂.area x).start < (mm₂.area n).start := by
    intro x hx
    rw [hstart]
    rcases mem_append.mp hx with hx | hx
    · have hxv : x ≠ v := fun e => hvl (e ▸ hx)
      have hxn : x ≠ n := fun e => hnl (by simp [← e, hx])
      rw [hother x hxv hxn]
      have hle := hlv _ (mem_map_of_mem hx) (mm.area v) (by simp)
      have := (ho.ok _ (mem_append_left _ (mem_map_of_mem hx))).nonempty
      omega
    · rw [mem_singleton.mp hx, hv]
      exact h1
  have hr : ∀ x ∈ r, (mm₂.area n).start < (mm₂.area x).start := by
    intro x hx
    have hxv : x ≠ v := fun e => hvr (e ▸ hx)
    have hxn : x ≠ n := fun e => hnl (by simp [← e, hx])
    rw [hstart, hother x hxv hxn]
    exact lt_of_lt_of_le h2 (hvr' _ (mem_map_of_mem hx))
  obtain ⟨mm', hlink, hrep', harea, hown, hheap⟩ :=
    vmaLink_spec A hrep hn0 (by simpa using hnl) (mem_cons_self ..) hl hr
  refine .inr ⟨n, mm', hn0, hnew, ?_, by simpa using hrep', by rw [harea, hv], by rw [harea, hn],
    fun x hx hx' => by rw [harea, hother x hx hx'], hown, ?_⟩
  · rw [he]
    simp only [if_neg hn0]
    rw [show vmaLink A (mm₁.setArea v ((mm₁.area v).below at')) n = some mm' from hlink]
    rfl
  · exact ⟨hheap.brkStart, hheap.brk, hheap.mmapTop⟩

end Cervus.Mm
