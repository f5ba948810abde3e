import Cervus.Pmm.Safety
import Cervus.Slab.Free

/-! Runs of the slab allocator. Between its calls the owners of live objects write
to them, and the rest of the kernel uses the page allocator and its own pages. -/

namespace Cervus.Slab

open Cervus.Lib Cervus.Pmm Multiset

def objBytes (h : Heap) (p : Nat) : Nat := (h.slabs (pageOf p)).objSize

def extent (h : Heap) (p : Nat) : Set Nat := Set.Ico p (p + objBytes h p)

def MayWrite (h : Heap) (live other : Finset Nat) (a : Nat) : Prop :=
  (∃ p ∈ live, p ≤ a ∧ a + 8 ≤ p + objBytes h p) ∨ a / pageSize ∈ other ∨
    a / pageSize ∈ freePagesOf h.buddy

/-- `ok` restricts the calls of `kfree`. -/
inductive Reach (mmap : List BootMmapEntry) (ok : Heap → Nat → Prop) :
    Heap → Finset Nat → Finset Nat → Prop
  | init {b : Buddy} {out : Finset Nat} (hr : Pmm.Reach mmap b out) (links : Links)
      (slabs : Nat → SlabT) (mem : Nat → Nat) :
      Reach mmap ok (slabInit b links slabs mem) ∅ out
  | kmalloc {h h' : Heap} {live other : Finset Nat} {vm r : Option Nat} {size : Nat}
      (hr : Reach mmap ok h live other) (hs : size ≤ slabMaxSize)
      (he : kmalloc vm h size = .ret h' r) : Reach mmap ok h' (live ∪ r.toFinset) other
  | kfree {h h' : Heap} {live other : Finset Nat} {p : Nat} (hr : Reach mmap ok h live other)
      (hp : p ∈ live) (hok : ok h p) (he : kfree h (some p) = .ret h' ()) :
      Reach mmap ok h' (live.erase p) other
  | write {h : Heap} {live other : Finset Nat} {a : Nat} (hr : Reach mmap ok h live other)
      (h8 : 8 ∣ a) (ha : MayWrite h live other a) (v : Nat) :
      Reach mmap ok (storeWord h a v) live other
  | page {h : Heap} {live other : Finset Nat} {op : Op} {b : Buddy} {r : Option Nat}
      (hr : Reach mmap ok h live other) (hv : ValidFree other op)
      (he : exec h.buddy op = .ret b r) :
      Reach mmap ok { h with buddy := b } live (other \ op.freedPages ∪ op.handedOut r)

variable {a c i s : Nat} {h : Heap} {sh : Shape} {mmap : List BootMmapEntry}

theorem page_of_extent (hc : c < slabNumCaches) (hs : pageSize ∣ s)
    (hi : i < capacity c) (h1 : slot s c i ≤ a) (h2 : a < slot s c i + sizeClass c) :
    a / pageSize ∈ pagesOf s (slabOrder c) := by
  have hl := (class_layout hc).2.2.2.2.2.2.1
  have hm : (i + 1) * sizeClass c ≤ capacity c * sizeClass c := Nat.mul_le_mul_right _ hi
  rw [add_mul, one_mul] at hm
  rw [slot] at h1 h2
  rw [pagesOf, mem_block]
  refine ⟨Nat.div_le_div_right (by omega), ?_⟩
  rw [← Nat.add_mul_div_left _ _ pageSize_pos]
  exact Nat.div_lt_div_of_lt_of_dvd (dvd_add hs (dvd_mul_right _ _)) (by omega)

variable {other : Multiset Nat} {live : Finset Nat} {empty : Option Nat}

section

variable {pool : Finset Nat} (hi : HeapInv pool h sh other live empty)

include hi

theorem HeapInv.object_unique {c' s' i' : Nat} (hcs : (c, s) ∈ sh.slabs) (hic : i < capacity c)
    (hcs' : (c', s') ∈ sh.slabs) (hic' : i' < capacity c')
    (ha : slot s c i ≤ a ∧ a < slot s c i + sizeClass c)
    (ha' : slot s' c' i' ≤ a ∧ a < slot s' c' i' + sizeClass c') : c = c' ∧ s = s' ∧ i = i' := by
  obtain ⟨hc, -⟩ := hi.bound c s hcs
  obtain ⟨hc', -⟩ := hi.bound c' s' hcs'
  obtain ⟨rfl, rfl⟩ := hi.slab_unique hcs hcs' (page_of_extent hc (hi.aligned hcs) hic ha.1 ha.2)
    (page_of_extent hc' (hi.aligned hcs') hic' ha'.1 ha'.2)
  refine ⟨rfl, rfl, ?_⟩
  simp only [slot] at ha ha'
  by_contra hne
  rcases lt_or_gt_of_ne hne with hlt | hlt
  · have hm : (i + 1) * sizeClass c ≤ i' * sizeClass c := Nat.mul_le_mul_right _ hlt
    rw [add_mul, one_mul] at hm
    omega
  · have hm : (i' + 1) * sizeClass c ≤ i * sizeClass c := Nat.mul_le_mul_right _ hlt
    rw [add_mul, one_mul] at hm
    omega

theorem HeapInv.objBytes_eq (hcs : (c, s) ∈ sh.slabs) (hic : i < capacity c) :
    objBytes h (slot s c i) = sizeClass c := by
  rw [objBytes, pageOf_slot (hi.bound c s hcs).1 (hi.aligned hcs) hic]
  exact (hi.slab c s hcs).objSize

/-- No byte lies in two objects that are out. -/
theorem HeapInv.live_unique {p q : Nat} (hp : p ∈ live) (hq : q ∈ live) (ha : a ∈ extent h p)
    (ha' : a ∈ extent h q) :
    p = q := by
  obtain ⟨c, s, i, hcs, hic, -, rfl⟩ := (hi.live_iff p).mp hp
  obtain ⟨c', s', i', hcs', hic', -, rfl⟩ := (hi.live_iff q).mp hq
  rw [extent, hi.objBytes_eq hcs hic] at ha
  rw [extent, hi.objBytes_eq hcs' hic'] at ha'
  obtain ⟨rfl, rfl, rfl⟩ := hi.object_unique hcs hic hcs' hic' ha ha'
  rfl

theorem write_object_inv {p : Nat} (hp : p ∈ live) (h1 : p ≤ a) (h2 : a + 8 ≤ p + objBytes h p)
    (v : Nat) :
    HeapInv pool (storeWord h a v) sh other live empty := by
  obtain ⟨c, s, i, hcs, hic, hib, rfl⟩ := (hi.live_iff p).mp hp
  rw [hi.objBytes_eq hcs hic] at h2
  have hc := (hi.bound c s hcs).1
  have hsame := storeWord_sameOff h a v
  have hpage := page_of_extent hc (hi.aligned hcs) hic h1 (by omega)
  apply hi.frame (by rw [storeWord_buddy]; exact hi.buddy) hsame.caches
  · intro d x hd
    by_cases hx : x = pageOf a
    · -- the only slab header in the pages of `s` is that of `s`, below the object
      have hxp : x / pageSize ∈ pagesOf s (slabOrder c) := by
        rw [hx, pageOf, Nat.mul_div_cancel _ pageSize_pos]
        exact hpage
      obtain ⟨-, rfl⟩ := hi.slab_unique hcs hd hxp (head_mem_pagesOf _ _)
      have hob : slabBytes ≤ a % pageSize := by
        have hmod := Nat.div_add_mod a pageSize
        rw [pageOf] at hx
        rw [slot] at h1
        rw [mul_comm, ← hx] at hmod
        omega
      rw [storeWord_object v hob]
      exact ⟨rfl, rfl, rfl⟩
    · have hne : ¬ pageOf x = pageOf a := by rwa [pageOf_of_dvd (hi.aligned hd)]
      exact ⟨hsame.slabs x hne, hsame.next x hne, hsame.prev x hne⟩
  · intro d x j hd hjc hjb
    apply storeWord_mem
    rintro rfl
    have h8 := (class_layout (hi.bound d x hd).1).1
    obtain ⟨rfl, rfl, rfl⟩ := hi.object_unique hcs hic hd hjc ⟨h1, by omega⟩ ⟨le_rfl, by omega⟩
    simp [hib] at hjb

theorem write_page_inv (ha : a / pageSize ∉ held sh.slabs) (v : Nat) :
    HeapInv pool (storeWord h a v) sh other live empty := by
  apply hi.sameOff (by rw [storeWord_buddy]; exact hi.buddy) (storeWord_sameOff h a v)
  rintro d x hd rfl
  refine ha (mem_sum_map.mpr ⟨(d, pageOf a), hd, ?_⟩)
  have hh := head_mem_pagesOf (pageOf a) (slabOrder d)
  rwa [pageOf, Nat.mul_div_cancel _ pageSize_pos] at hh

theorem HeapInv.not_held {q : Nat} (hq : q ∈ other ∨ q ∈ freePagesOf h.buddy) :
    q ∉ held sh.slabs := by
  obtain ⟨-, hrest, hdis⟩ := nodup_add.mp hi.buddy.nodup
  intro hx
  rcases hq with hq | hq
  · exact disjoint_left.mp (nodup_add.mp hrest).2.2 hx hq
  · exact disjoint_left.mp hdis hq (mem_add.mpr (.inl hx))

end

/-- The page operations of others leave the heap alone. -/
theorem page_inv {pool : Finset Nat} {mine : Multiset Nat} {other : Finset Nat}
    (hi : HeapInv pool h sh (mine + other.val) live empty) {op : Op} {b : Buddy}
    {r : Option Nat} (hv : ValidFree other op) (he : exec h.buddy op = .ret b r) :
    HeapInv pool { h with buddy := b } sh (mine + (other \ op.freedPages ∪ op.handedOut r).val) live
      empty := by
  have hbuddy : Inv pool h.buddy ((held sh.slabs + mine) + other.val) := by
    rw [add_assoc]
    exact hi.buddy
  generalize hkept : held sh.slabs + mine = kept at hbuddy
  obtain ⟨hheld, -, hdis⟩ := nodup_add.mp (nodup_add.mp hbuddy.nodup).2.1
  let out : Finset Nat := kept.toFinset ∪ other
  have hout : kept + other.val = out.val := by
    refine (Multiset.Nodup.ext (nodup_add.mp hbuddy.nodup).2.1 out.nodup).mpr fun q => ?_
    simp [out]
  have hinv : Inv pool h.buddy out.val := hout ▸ hbuddy
  have hsub : other ⊆ out := Finset.subset_union_right
  have hvo : ValidFree out op := fun phys order hf =>
    ⟨(hv phys order hf).1, fun q hq => hsub ((hv phys order hf).2 q hq)⟩
  have hfreed : op.freedPages ⊆ other := by
    intro q hq
    cases hf : op.freed with
    | none => simp [Op.freedPages, hf] at hq
    | some x =>
      simp only [Op.freedPages, hf, mem_toFinset] at hq
      exact (hv x.1 x.2 hf).2 q hq
  have hnew : ∀ q ∈ op.handedOut r, q ∉ out := by
    intro q hq
    cases r with
    | none => simp [Op.handedOut] at hq
    | some phys => exact Finset.disjoint_left.mp (exec_fresh hinv he).2 hq
  refine hi.frame ?_ rfl (fun _ _ _ => ⟨rfl, rfl, rfl⟩) (fun _ _ _ _ _ _ => rfl)
  have hafter := exec_inv hinv hvo he
  have heq : (out \ op.freedPages ∪ op.handedOut r).val =
      kept + (other \ op.freedPages ∪ op.handedOut r).val := by
    refine ((Multiset.Nodup.ext (Finset.nodup _) (nodup_add.mpr
      ⟨hheld, Finset.nodup _, disjoint_left.mpr fun hq hm => ?_⟩)).mpr fun q => ?_)
    · rcases Finset.mem_union.mp hm with hm | hm
      · exact disjoint_left.mp hdis hq (Finset.mem_sdiff.mp hm).1
      · exact hnew _ hm (Finset.mem_union_left _ (mem_toFinset.mpr hq))
    · have hq : q ∈ kept → q ∉ op.freedPages := fun hq hf =>
        disjoint_left.mp hdis hq (hfreed hf)
      simp only [out, Finset.mem_val, Finset.mem_union, Finset.mem_sdiff, mem_toFinset,
        mem_add]
      tauto
  rwa [heq, ← hkept, add_assoc] at hafter

theorem slabInit_inv (hd : UsableDisjoint mmap)
    (hf : (fstatePhys mmap).isSome) {b : Buddy} {out : Finset Nat} (hr : Pmm.Reach mmap b out)
    (links : Links) (slabs : Nat → SlabT) (mem : Nat → Nat) :
    HeapInv (pool hd) (slabInit b links slabs mem) ⟨[], fun _ => []⟩ out.val ∅ none := by
  refine ⟨?_, fun c _ => rfl, by simp, by simp, ⟨fun k => ?_, by simp, by simp⟩, by simp, by simp,
    by simp, by simp⟩
  · simpa [held, slabInit] using hr.inv hd hf
  · obtain ⟨c, k⟩ := k
    cases k <;> rfl

/-- No freed object looks like a large allocation. -/
def NotLarge (h : Heap) (p : Nat) : Prop := isLargeAlloc h p = false

/-- The invariant holds in every state reached. -/
theorem Reach.inv (hd : UsableDisjoint mmap) (hf : (fstatePhys mmap).isSome) {other : Finset Nat}
    (hr : Reach mmap NotLarge h live other) : ∃ sh, HeapInv (pool hd) h sh other.val live none := by
  induction hr with
  | init hr links slabs mem => exact ⟨_, slabInit_inv hd hf hr links slabs mem⟩
  | @kmalloc h h' live other vm r size _ hs he ih =>
    obtain ⟨sh, hi⟩ := ih
    rcases kmalloc_inv hi vm hs with hn | ⟨h₁, sh', c, s, i, hret, -, -, -, -, -, -, hi'⟩
    · rw [hn] at he
      cases he
      exact ⟨sh, by simpa using hi⟩
    · rw [hret] at he
      cases he
      exact ⟨sh', by simpa [Finset.union_comm] using hi'⟩
  | kfree _ hp hok he ih =>
    obtain ⟨sh, hi⟩ := ih
    obtain ⟨h₁, sh', hret, -, hi'⟩ := kfree_inv hi hp hok
    rw [hret] at he
    cases he
    exact ⟨sh', hi'⟩
  | write _ _ ha v ih =>
    obtain ⟨sh, hi⟩ := ih
    rcases ha with ⟨p, hp, h1, h2⟩ | ha
    · exact ⟨sh, write_object_inv hi hp h1 h2 v⟩
    · exact ⟨sh, write_page_inv hi (hi.not_held ha) v⟩
  | @page h live other op b r _ hv he ih =>
    obtain ⟨sh, hi⟩ := ih
    rw [← zero_add other.val] at hi
    have hi' := page_inv hi hv he
    rw [zero_add] at hi'
    exact ⟨sh, hi'⟩

end Cervus.Slab
