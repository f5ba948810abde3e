import Mathlib.Algebra.Order.Sub.Basic
import Mathlib.Algebra.Ring.Divisibility.Basic
import Mathlib.Data.List.Nodup
import Mathlib.Data.List.Perm.Basic
import Cervus.Mm.Change

/-! How the links, the index and the cache of an address space represent its list of
mappings, and what the searches return. -/

namespace Cervus.Mm

open Cervus.Lib List

/-! ## Address arithmetic -/

theorem pg_dvd_pdown (a : Nat) : pg ∣ pdown a := Dvd.intro_left _ rfl

theorem pdown_le (a : Nat) : pdown a ≤ a := Nat.div_mul_le_self a pg

theorem pg_dvd_pup (a : Nat) : pg ∣ pup a := pg_dvd_pdown _

variable {a b v : Nat} {mm : MmT} {l r : List Nat}

theorem pg_dvd_add64 (ha : pg ∣ a) (hb : pg ∣ b) : pg ∣ add64 a b :=
  (Nat.dvd_mod_iff (show pg ∣ 2 ^ 64 by decide)).mpr (dvd_add ha hb)

theorem add64_eq (h : a + b < 2 ^ 64) : add64 a b = a + b := Nat.mod_eq_of_lt h

theorem add64_noWrap (ha : a < 2 ^ 64) (hb : b < 2 ^ 64) (h : a ≤ add64 a b) : a + b < 2 ^ 64 := by
  by_contra hc
  have : add64 a b = a + b - 2 ^ 64 := by
    unfold add64
    omega
  omega

theorem pup_bounds (h : a + 4095 < 2 ^ 64) : a ≤ pup a ∧ pup a < a + 4096 := by
  have he : pup a = (a + 4095) / 4096 * 4096 := by
    show (add64 a 4095) / 4096 * 4096 = _
    rw [add64_eq h]
  omega

theorem pup_pos (h : a + 4095 < 2 ^ 64) (h0 : a ≠ 0) : 0 < pup a := by
  have := pup_bounds h
  omega

/-! ## The list of mappings -/

def MmT.areas (mm : MmT) (l : List Nat) : List Area := l.map mm.area

structure Rep (mm : MmT) (l : List Nat) : Prop where
  list : DList mm.links 0 mm.vmas l
  nodup : l.Nodup
  index : mm.vbad = false → mm.vidx = l
  cache : mm.vcache = 0 ∨ mm.vcache ∈ l
  owned : ∀ v ∈ l, v ∈ mm.owned

def Sorted (mm : MmT) (l : List Nat) : Prop :=
  l.Pairwise fun v w => (mm.area v).start < (mm.area w).start

theorem Rep.length_le (h : Rep mm l) : l.length ≤ mm.owned.length :=
  (subperm_of_subset h.nodup h.owned).length_le

theorem Rep.ne_zero (h : Rep mm l) (hv : v ∈ l) : v ≠ 0 :=
  h.list.ne_zero hv

theorem Rep.setArea (h : Rep mm l) (v : Nat) (a : Area) : Rep (mm.setArea v a) l :=
  ⟨h.list, h.nodup, h.index, h.cache, h.owned⟩

theorem area_setArea {w : Nat} {a : Area} :
    (mm.setArea v a).area w = if w = v then a else mm.area w := by
  simp [MmT.setArea, Function.update_apply]

theorem areas_setArea_of_notMem {a : Area} (hv : v ∉ l) :
    (mm.setArea v a).areas l = mm.areas l := by
  apply map_congr_left
  intro w hw
  have hwv : w ≠ v := fun e => hv (e ▸ hw)
  rw [area_setArea, if_neg hwv]

theorem areas_append (mm : MmT) (l r : List Nat) : mm.areas (l ++ r) = mm.areas l ++ mm.areas r :=
  map_append

theorem areas_cons (mm : MmT) (v : Nat) (r : List Nat) :
    mm.areas (v :: r) = mm.area v :: mm.areas r := rfl

theorem areas_setArea {a : Area} (hn : (l ++ v :: r).Nodup) :
    (mm.setArea v a).areas (l ++ v :: r) = mm.areas l ++ a :: mm.areas r := by
  obtain ⟨h1, h2⟩ : v ∉ l ∧ v ∉ r := by
    have := nodup_middle.mp hn
    simpa using (nodup_cons.mp this).1
  rw [areas_append, areas_cons, areas_setArea_of_notMem h1, areas_setArea_of_notMem h2,
    area_setArea, if_pos rfl]

theorem forall_areas {p : Area → Prop} : (∀ a ∈ mm.areas l, p a) ↔ ∀ v ∈ l, p (mm.area v) := by
  simp [MmT.areas]

theorem Ordered.area (h : Ordered (mm.areas l)) (hv : v ∈ l) : AreaOk (mm.area v) :=
  h.ok _ (mem_map_of_mem hv)

theorem Ordered.apart (h : Ordered (mm.areas l)) :
    l.Pairwise fun v w => (mm.area v).stop ≤ (mm.area w).start :=
  pairwise_map.mp h.sorted

theorem Ordered.behind (h : Ordered (mm.areas (l ++ v :: r))) :
    ∀ x ∈ r, (mm.area v).stop ≤ (mm.area x).start :=
  (pairwise_cons.mp (pairwise_append.mp h.apart).2.1).1

theorem Ordered.from_start (h : Ordered (mm.areas (l ++ v :: r))) {lo : Nat}
    (hv : lo ≤ (mm.area v).start) :
    ∀ x ∈ v :: r, lo ≤ (mm.area x).start := by
  intro x hx
  rcases mem_cons.mp hx with rfl | hx
  · exact hv
  · exact hv.trans ((h.area (by simp)).nonempty.le.trans (h.behind x hx))

theorem Ordered.starts (h : Ordered (mm.areas l)) : Sorted mm l := by
  apply h.apart.imp_of_mem
  intro v w hv _ hvw
  have := (h.area hv).nonempty
  omega

/-! ## Walks along the list -/

theorem walkWhile_eq {skip : Nat → Bool} {fuel p : Nat}
    (hd : DList mm.links p v (l ++ r)) (hl : ∀ x ∈ l, skip x = true)
    (hr : ∀ x ∈ r.head?, skip x = false) (hf : l.length < fuel) :
    walkWhile mm skip fuel p v = some (l.getLastD p, r.headD 0) := by
  induction l generalizing fuel p v with
  | nil =>
    obtain ⟨fuel, rfl⟩ := Nat.exists_eq_succ_of_ne_zero (Nat.ne_zero_of_lt hf)
    have hv : v = r.headD 0 := hd.head_eq
    rw [walkWhile, if_neg, hv]
    · rfl
    · rintro ⟨h0, hs⟩
      cases r with
      | nil => exact h0 hv
      | cons x r =>
        rw [hv] at hs
        exact Bool.false_ne_true ((hr x rfl).symm.trans hs)
  | cons x l ih =>
    obtain ⟨fuel, rfl⟩ := Nat.exists_eq_succ_of_ne_zero (Nat.ne_zero_of_lt hf)
    obtain ⟨rfl, h0, -, ht⟩ := hd
    rw [walkWhile, if_pos ⟨h0, hl v (by simp)⟩, getLastD_cons]
    exact ih ht (fun y hy => hl y (by simp [hy])) (by simpa using hf)

theorem Rep.walk (skip : Nat → Bool) (h : Rep mm (l ++ r))
    (hl : ∀ x ∈ l, skip x = true) (hr : ∀ x ∈ r.head?, skip x = false) :
    mm.walk skip mm.vmas = some (l.getLastD 0, r.headD 0) := by
  apply walkWhile_eq h.list hl hr
  have := h.length_le
  simp only [length_append] at this
  omega

/-! ## The index -/

theorem getD_length_append : (l ++ r).getD l.length 0 = r.headD 0 := by
  cases r <;> simp [getD_eq_getElem?_getD]

theorem getD_length_pred {x : Nat} : ((l ++ [x]) ++ r).getD ((l ++ [x]).length - 1) 0 = x := by
  simp [getD_eq_getElem?_getD]

theorem vidxUpper_eq {addr : Nat} (hi : mm.vidx = l ++ r)
    (hl : ∀ x ∈ l, (mm.area x).start ≤ addr) (hr : ∀ x ∈ r, addr < (mm.area x).start) :
    vidxUpper mm addr = l.length := by
  have hlen : mm.vidx.length = l.length + r.length := by rw [hi, length_append]
  apply searchUpper_eq (n := mm.vidx.length) _ (Nat.zero_le _) (by omega) le_rfl (by omega)
  intro i hin
  rw [decide_eq_true_iff, hi]
  by_cases hil : i < l.length
  · have hg : (l ++ r).getD i 0 = l.get ⟨i, hil⟩ := by
      simp [getD_eq_getElem?_getD, List.getElem?_append_left hil, List.getElem?_eq_getElem hil]
    rw [hg]
    exact iff_of_true (hl _ (get_mem l ⟨i, hil⟩)) hil
  · have hir : i - l.length < r.length := by omega
    have hg : (l ++ r).getD i 0 = r.get ⟨i - l.length, hir⟩ := by
      simp [getD_eq_getElem?_getD, List.getElem?_append_right (not_lt.mp hil),
        List.getElem?_eq_getElem hir]
    rw [hg]
    exact iff_of_false (not_le.mpr (hr _ (get_mem r ⟨_, hir⟩))) hil

theorem Sorted.cut (h : Sorted mm l) (addr : Nat) :
    ∃ l₁ l₂, l = l₁ ++ l₂ ∧ (∀ x ∈ l₁, (mm.area x).start ≤ addr) ∧
      ∀ x ∈ l₂, addr < (mm.area x).start := by
  have hc := exists_cut (p := fun x => (mm.area x).start ≤ addr)
    (h.imp fun hvw hw => le_trans hvw.le hw)
  simpa only [not_le] using hc

/-- The list of the areas is in the order of their addresses. -/
structure Listed (mm : MmT) (l : List Nat) : Prop extends Rep mm l where
  ord : Ordered (mm.areas l)

instance : Coe (Listed mm l) (Rep mm l) := ⟨Listed.toRep⟩

/-- The index and the walk over the list find the same area. -/
theorem vmaFirstEndingAfter_spec (h : Listed mm l) (addr : Nat) :
    ∃ l₁ l₂, l = l₁ ++ l₂ ∧ (∀ x ∈ l₁, (mm.area x).stop ≤ addr) ∧
      (∀ x ∈ l₂, addr < (mm.area x).stop) ∧ vmaFirstEndingAfter mm addr = some (l₂.headD 0) := by
  cases hb : mm.vbad with
  | true =>
    have hmono : l.Pairwise fun v w => (mm.area w).stop ≤ addr → (mm.area v).stop ≤ addr := by
      apply h.ord.apart.imp_of_mem
      intro v w _ hw hvw hle
      have := (h.ord.area hw).nonempty
      omega
    obtain ⟨l₁, l₂, rfl, h1, h2⟩ := exists_cut hmono
    refine ⟨l₁, l₂, rfl, h1, fun x hx => not_le.mp (h2 x hx), ?_⟩
    have hw := h.walk (fun v => decide ((mm.area v).stop ≤ addr))
      (fun x hx => decide_eq_true (h1 x hx))
      (fun x hx => decide_eq_false (h2 x (mem_of_mem_head? hx)))
    rw [vmaFirstEndingAfter, if_pos hb, hw]
    rfl
  | false =>
    obtain ⟨l₁, l₂, rfl, h1, h2⟩ := h.ord.starts.cut addr
    have hidx := h.index hb
    have hup := vidxUpper_eq hidx h1 h2
    have hstop : ∀ x ∈ l₂, addr < (mm.area x).stop := fun x hx =>
      lt_trans (h2 x hx) (h.ord.area (mem_append_right _ hx)).nonempty
    have hb' : ¬ mm.vbad = true := by simp [hb]
    simp only [vmaFirstEndingAfter, if_neg hb', hup, hidx]
    -- only the last mapping that starts at or below the address can reach over it
    rcases eq_nil_or_concat l₁ with rfl | ⟨l₁, x, rfl⟩
    · refine ⟨[], l₂, rfl, by simp, hstop, ?_⟩
      rw [if_neg (by simp), getD_length_append]
    rw [concat_eq_append] at *
    rw [getD_length_pred, getD_length_append]
    by_cases hx : addr < (mm.area x).stop
    · rw [if_pos ⟨by simp, hx⟩]
      refine ⟨l₁, x :: l₂, by simp, fun y hy => ?_, fun y hy => ?_, rfl⟩
      · have hap := (pairwise_append.mp (pairwise_append.mp h.ord.apart).1).2.2
        exact le_trans (hap y hy x (by simp)) (h1 x (by simp))
      · exact (mem_cons.mp hy).elim (fun e => e ▸ hx) (hstop y)
    · rw [if_neg (fun hc => hx hc.2)]
      refine ⟨l₁ ++ [x], l₂, rfl, fun y hy => ?_, hstop, rfl⟩
      rcases mem_append.mp hy with hy | hy
      · have hap := (pairwise_append.mp (pairwise_append.mp h.ord.apart).1).2.2
        exact le_trans (hap y hy x (by simp)) (h1 x (by simp))
      · rw [mem_singleton.mp hy]
        exact not_lt.mp hx

theorem mmFindVma_spec (h : Listed mm l) (addr : Nat) :
    ∃ c v, mmFindVma mm addr = some ({ mm with vcache := c }, v) ∧
      Listed { mm with vcache := c } l ∧
      ((v = 0 ∧ ∀ x ∈ l, ¬ ((mm.area x).start ≤ addr ∧ addr < (mm.area x).stop)) ∨
        v ∈ l ∧ (mm.area v).start ≤ addr ∧ addr < (mm.area v).stop) := by
  unfold mmFindVma
  by_cases hc : mm.vcache ≠ 0 ∧ (mm.area mm.vcache).start ≤ addr ∧ addr < (mm.area mm.vcache).stop
  · refine ⟨mm.vcache, mm.vcache, by rw [if_pos hc], h, .inr ⟨?_, hc.2⟩⟩
    exact h.cache.resolve_left hc.1
  rw [if_neg hc]
  obtain ⟨l₁, l₂, rfl, h1, h2, he⟩ := vmaFirstEndingAfter_spec h addr
  rw [he]
  cases l₂ with
  | nil =>
    refine ⟨mm.vcache, 0, by simp, h, .inl ⟨rfl, fun x hx hc => ?_⟩⟩
    have := h1 x (by simpa using hx)
    omega
  | cons v l₂ =>
    have hv0 : v ≠ 0 := h.ne_zero (v := v) (by simp)
    by_cases hlt : addr < (mm.area v).start
    · refine ⟨mm.vcache, 0, by simp [hlt], h, .inl ⟨rfl, fun x hx hc => ?_⟩⟩
      rcases mem_append.mp hx with hx | hx
      · have := h1 x hx
        omega
      · have := h.ord.from_start hlt x hx
        omega
    · refine ⟨v, v, by simp [hlt, hv0], ?_, .inr ⟨by simp, not_lt.mp hlt, h2 v (by simp)⟩⟩
      exact { h with cache := .inr (by simp) }

end Cervus.Mm
