import Cervus.Mm.Place
import Cervus.Mm.Remap

/-! Copying an address space, and giving one up. -/

namespace Cervus.Mm

open Cervus.Lib List

section

variable {P : Type} (A : Allocator) (W : PageOps P) {l r : List Nat}

theorem putLoop_eq {mm : MmT} (fuel : Nat) (pages : P) (h : Rep mm (l ++ r))
    (hf : r.length < fuel) :
    putLoop W mm fuel pages (r.headD 0) = some (zapAll W (mm.areas r) pages) := by
  induction fuel generalizing l r pages with
  | zero => omega
  | succ fuel ih =>
    cases r with
    | nil => rfl
    | cons v r =>
      have hv0 : v ≠ 0 := h.ne_zero (v := v) (by simp)
      have hnext : mm.links.next v = r.headD 0 := h.list.next_eq
      have hl : l ++ v :: r = (l ++ [v]) ++ r := by simp
      rw [hl] at h
      rw [headD_cons, putLoop, if_neg hv0, hnext, ih _ h (by simpa using hf)]
      rfl

theorem mmPut_eq {mm : MmT} (h : Rep mm l) (pages : P) :
    mmPut W mm pages = some (zapAll W (mm.areas l) pages) := by
  have hlen := h.length_le
  have hp := putLoop_eq W (l := []) (mm.owned.length + 1) pages h (by omega)
  rwa [← h.list.head_eq] at hp

theorem link_last {child : MmT} {n : Nat} (h : Listed child l) (hn0 : n ≠ 0) (hn : n ∉ l)
    (hown : n ∈ child.owned) (hok : AreaOk (child.area n))
    (hlast : ∀ x ∈ l, (child.area x).stop ≤ (child.area n).start) :
    ∃ child', vmaLink A child n = some child' ∧ Rep child' (l ++ [n]) ∧ child'.area = child.area ∧
      SameHeap child child' := by
  obtain ⟨child', l₁, l₂, rfl, he, hrep, harea, hheap, -, h2⟩ :=
    link_spec A h hn0 hn hown hok.nonempty
    (forall_areas.mpr fun x hx => .inl (hlast x hx))
  cases l₂ with
  | nil => exact ⟨child', he, by simpa using hrep, harea, hheap⟩
  | cons x l₂ =>
    have hx : x ∈ l₁ ++ x :: l₂ := by simp
    have := h2 x (by simp)
    have := hlast x hx
    have := (h.ord.area hx).nonempty
    have := hok.nonempty
    omega

/-- The child gets a copy of the areas, or of the first of them. -/
theorem forkLoop_spec {parent child : MmT} {lc : List Nat} (fuel : Nat) (pages : P)
    (h : Rep parent (l ++ r)) (hc : Rep child lc) (ho : Ordered (child.areas lc ++ parent.areas r))
    (hf : r.length < fuel) :
    ∃ child' pages' ok lc' done, forkLoop A W parent fuel child pages (r.headD 0) =
        some (child', pages', ok) ∧ Rep child' lc' ∧ SameHeap child child' ∧
      child'.areas lc' = child.areas lc ++ done ∧ done.Sublist (parent.areas r) ∧
      Copies W done pages pages' := by
  induction fuel generalizing l r child lc pages with
  | zero => omega
  | succ fuel ih =>
    cases r with
    | nil => exact ⟨child, pages, true, lc, [], rfl, hc, .refl _, by simp, by simp, .nil _⟩
    | cons v r =>
      have hv0 : v ≠ 0 := h.ne_zero (v := v) (by simp)
      have hnext : parent.links.next v = r.headD 0 := h.list.next_eq
      have hl : l ++ v :: r = (l ++ [v]) ++ r := by simp
      rw [hl] at h
      rw [areas_cons] at ho ⊢
      simp only [headD_cons]
      simp only [forkLoop, if_neg hv0, hnext]
      by_cases hd : (parent.area v).has vmDontcopy = true
      · rw [if_pos hd]
        obtain ⟨child', pages', ok, lc', done, he, hrep, hheap, ha, hs, hcp⟩ :=
          ih pages h hc ho.erase (by simpa using hf)
        exact ⟨child', pages', ok, lc', done, he, hrep, hheap, ha, hs.cons _, hcp⟩
      rw [if_neg hd]
      rcases vmaNew_cases A child (parent.area v) with hnew | ⟨n, hn0, hfresh, hnew⟩
      · exact ⟨child, pages, false, lc, [], by simp [hnew], hc, .refl _, by simp, by simp, .nil _⟩
      have hnl : n ∉ lc := fun hm => hfresh (hc.owned n hm)
      obtain ⟨hoc, hov, hlast⟩ := ordered_append.mp ho
      have han : (child.addObject n (parent.area v)).area n = parent.area v := by
        rw [area_addObject, if_pos rfl]
      have hac : (child.addObject n (parent.area v)).areas lc = child.areas lc :=
        areas_addObject _ hnl
      obtain ⟨child₁, hlink, hrep₁, harea₁, hheap₁⟩ := link_last A
        ⟨hc.addObject n (parent.area v), by rw [hac]; exact hoc⟩ hn0 hnl (mem_cons_self ..)
          (by rw [han]; exact hov.ok _ (by simp))
        (by
          rw [han]
          exact forall_of_areas_eq (fun a => a.stop ≤ (parent.area v).start) hac
            (forall_areas.mp fun a ha => hlast a ha _ (by simp)))
      have hheap : SameHeap child child₁ := ⟨hheap₁.brkStart, hheap₁.brk, hheap₁.mmapTop⟩
      have hareas : child₁.areas (lc ++ [n]) = child.areas lc ++ [parent.area v] := by
        rw [areas_append]
        congr 1
        · rw [← hac, MmT.areas, harea₁]
          rfl
        · rw [areas_cons, harea₁, han]
          rfl
      simp only [hnew, if_neg hn0, hlink, Option.bind_eq_bind, Option.bind_some]
      by_cases hok : (W.fork (parent.area v) pages).2 = true
      · obtain ⟨child', pages', ok, lc', done, he, hrep, hheap', ha, hs, hcp⟩ :=
          ih (W.fork (parent.area v) pages).1 h hrep₁
            (by rw [hareas]; simpa using ho) (by simpa using hf)
        refine ⟨child', pages', ok, lc', parent.area v :: done, by rw [if_pos hok, he], hrep,
          hheap.trans hheap', ?_, hs.cons_cons _, .cons hcp⟩
        rw [ha, hareas]
        simp
      · exact ⟨child₁, _, false, lc ++ [n], [parent.area v], by rw [if_neg hok], hrep₁, hheap,
          hareas, (nil_sublist _).cons_cons _, .cons (.nil _)⟩

theorem mmFork_spec (W' : PageOps P) (parent : St P) (h : Listed parent.mm l) :
    ∃ child pages, mmFork A W W' parent = some (child, pages) ∧
      ∃ done pages', done.Sublist (parent.mm.areas l) ∧ Copies W done parent.pages pages' ∧
        match child with
        | none => pages = zapAll W' done pages'
        | some child => pages = pages' ∧ ∃ lc, Rep child lc ∧ child.areas lc = done ∧
            SameHeap parent.mm child := by
  have hlen := h.length_le
  have hcreate : Rep { mmCreate with
      brkStart := parent.mm.brkStart, brk := parent.mm.brk, mmapTop := parent.mm.mmapTop } [] :=
    ⟨rfl, nodup_nil, fun _ => rfl, .inl rfl, by simp⟩
  obtain ⟨child, pages, ok, lc, done, he, hrep, hheap, ha, hs, hcp⟩ := forkLoop_spec A W (l := [])
    (parent.mm.owned.length + 1) parent.pages h.toRep hcreate h.ord (by omega)
  rw [← h.list.head_eq] at he
  have ha' : child.areas lc = done := ha
  simp only [mmFork, he, Option.bind_eq_bind, Option.bind_some]
  cases ok with
  | true =>
    exact ⟨some child, pages, rfl, done, pages, hs, hcp, rfl, lc, hrep, ha',
      hheap.brkStart, hheap.brk, hheap.mmapTop⟩
  | false =>
    refine ⟨none, zapAll W' done pages, ?_, done, pages, hs, hcp, rfl⟩
    rw [mmPut_eq W' hrep, ha']
    rfl

end

/-! Runs of the operations on address spaces. -/

open Prod

/-- A call on one address space, with its arguments as words. -/
inductive Op
  | mapAnon (addr len : BitVec 64) (flags : BitVec 32) (fixed : Bool)
  | mapFile (addr len : BitVec 64) (flags : BitVec 32) (fixed : Bool) (vnode : Nat)
      (offset : BitVec 64)
  | mapPfn (addr len : BitVec 64) (flags : BitVec 32) (fixed : Bool) (dev : Area)
  | unmap (addr len : BitVec 64)
  | protect (readonly : Nat → Bool) (addr len : BitVec 64) (prot : BitVec 32)
  | mlock (addr len : BitVec 64) (lock : Bool)
  | remap (old oldLen newLen : BitVec 64) (flags : BitVec 32) (newAddr : BitVec 64)
  | discard (addr len : BitVec 64)
  | fault (addr : BitVec 64) (how : How)
  | initHeap (start : BitVec 64)
  | setBrk (newBrk : BitVec 64)

namespace Op

def run {P : Type} (A : Allocator) (W : PageOps P) (s : St P) : Op → Option (St P)
  | mapAnon addr len flags fixed =>
    (mmMapAnon A W s addr.toNat len.toNat flags fixed).map fst
  | mapFile addr len flags fixed vnode offset =>
    (mmMapFile A W s addr.toNat len.toNat flags fixed vnode offset.toNat).map fst
  | mapPfn addr len flags fixed dev =>
    (mmMapPfn A W s addr.toNat len.toNat flags fixed dev).map fst
  | unmap addr len => (mmUnmap A W s addr.toNat len.toNat).map fst
  | protect readonly addr len prot =>
    (mmProtect A W readonly s addr.toNat len.toNat prot).map fst
  | mlock addr len lock => (mmMlock A W s addr.toNat len.toNat lock).map fst
  | remap old oldLen newLen flags newAddr =>
    (mmRemap A W s old.toNat oldLen.toNat newLen.toNat flags newAddr.toNat).map fst
  | discard addr len => (mmDiscard W s addr.toNat len.toNat).map fst
  | fault addr how => (mmFault W s addr.toNat how).map fst
  | initHeap start => some (mmInitHeap s start.toNat)
  | setBrk newBrk => (mmSetBrk A W s newBrk.toNat).map fst

/-- What the callers check: `sys_mmap` bounds the length, and the loader places the heap
inside the user range. -/
def Allowed : Op → Prop
  | mapAnon _ len _ _ | mapFile _ len _ _ _ _ | mapPfn _ len _ _ _ =>
    0 < len.toNat ∧ len.toNat ≤ 2 ^ 46
  | initHeap start => 0x1000 ≤ pup start.toNat ∧ pup start.toNat ≤ userTop
  | _ => True

/-- No address computed from the arguments wraps, and the heap has been placed before it
is moved. -/
def NoWrap (mm : MmT) : Op → Prop
  | mapAnon addr len _ fixed | mapFile addr len _ fixed _ _ | mapPfn addr len _ fixed _ =>
    fixed = false → pdown addr.toNat + pup len.toNat < 2 ^ 64
  | remap old oldLen newLen flags _ =>
    oldLen.toNat + 4095 < 2 ^ 64 ∧ (flags &&& remapFixed ≠ 0 → newLen.toNat + 4095 < 2 ^ 64) ∧
      old.toNat + pup newLen.toNat < 2 ^ 64
  | setBrk newBrk => 0x1000 ≤ mm.brkStart ∧ newBrk.toNat + 4095 < 2 ^ 64
  | _ => True

def Fits : Op → Prop
  | remap _ oldLen newLen flags _ => flags &&& remapFixed ≠ 0 → pup oldLen.toNat ≤ pup newLen.toNat
  | _ => True

end Op

/-- The address spaces that calls allowed by `cond` lead to. The page tables and frames
may be in any state at each call. -/
inductive Reach (cond : MmT → Op → Prop) : MmT → Prop
  | create : Reach cond mmCreate
  | step {P : Type} {mm : MmT} {s' : St P} (A : Allocator) (W : PageOps P) (pages : P) (op : Op)
      (h : Reach cond mm) (ha : op.Allowed) (hc : cond mm op)
      (hrun : op.run A W ⟨mm, pages⟩ = some s') : Reach cond s'.mm
  | fork {P : Type} {mm child : MmT} {pages' : P} (A : Allocator) (W W' : PageOps P) (pages : P)
      (h : Reach cond mm) (hrun : mmFork A W W' ⟨mm, pages⟩ = some (some child, pages')) :
      Reach cond child

section

variable {P : Type} {s : St P} {l : List Nat} (A : Allocator) (W : PageOps P) (fits : Prop)

theorem map_sim (h : Listed s.mm l) (hk : HeapOk s.mm) {addr len : BitVec 64} {fixed : Bool}
    (tpl : Area) (hlen : 0 < len.toNat ∧ len.toNat ≤ 2 ^ 46)
    (hw : fixed = false → pdown addr.toNat + pup len.toNat < 2 ^ 64) :
    ∃ s' rc l', mapTemplate A W s addr.toNat len.toNat fixed tpl = some (s', rc) ∧
      Sim W fits s l s' l' :=
  mapTemplate_sim A W fits h hk tpl addr.isLt (by omega) hw

/-- Every call returns, and is a sequence of changes of the areas. -/
theorem Op.run_spec (op : Op) (h : Listed s.mm l) (hk : HeapOk s.mm) (ha : op.Allowed)
    (hw : op.NoWrap s.mm) (hf : fits → op.Fits) :
    ∃ s' l', op.run A W s = some s' ∧ Rep s'.mm l' ∧
      Changes W fits (s.mm.areas l, s.pages) (s'.mm.areas l', s'.pages) ∧ HeapOk s'.mm := by
  have hsim : ∀ {r : Option (St P × Int)},
      (∃ s' rc l', r = some (s', rc) ∧ Sim W fits s l s' l') →
      ∃ s' l', r.map fst = some s' ∧ Rep s'.mm l' ∧
        Changes W fits (s.mm.areas l, s.pages) (s'.mm.areas l', s'.pages) ∧ HeapOk s'.mm := by
    rintro r ⟨s', rc, l', rfl, hs⟩
    exact ⟨s', l', rfl, hs.rep, hs.changes, hs.heap.heapOk hk⟩
  cases op with
  | mapAnon addr len flags fixed | mapPfn addr len flags fixed dev =>
    exact hsim (map_sim A W fits h hk _ ha hw)
  | mapFile addr len flags fixed vnode offset =>
    apply hsim
    unfold mmMapFile
    split_ifs with hbad
    · exact ⟨s, einval, l, rfl, .refl h⟩
    · exact map_sim A W fits h hk _ ha hw
  | unmap addr len => exact hsim (mmUnmap_sim A W fits h _ _)
  | protect readonly addr len prot => exact hsim (mmProtect_sim A W fits h readonly _ _ _)
  | mlock addr len lock => exact hsim (mmMlock_sim A W fits h _ _ _)
  | remap old oldLen newLen flags newAddr =>
    obtain ⟨h1, h2, h3⟩ := hw
    exact hsim (mmRemap_sim A W fits h hk old.isLt newAddr.isLt h1 h2 h3 hf)
  | discard addr len =>
    obtain ⟨s', rc, he, hs⟩ := mmDiscard_sim W fits h addr.toNat len.toNat
    exact hsim ⟨s', rc, l, he, hs⟩
  | fault addr how =>
    obtain ⟨s', rc, he, hs⟩ := mmFault_sim W fits h addr.toNat how
    exact hsim ⟨s', rc, l, he, hs⟩
  | initHeap start =>
    refine ⟨_, l, rfl, ⟨h.list, h.nodup, h.index, h.cache, h.owned⟩, .refl, hk.top, ?_, le_rfl⟩
    exact ha.2
  | setBrk newBrk =>
    obtain ⟨s', rc, l', he, hrep, hch, hk'⟩ := mmSetBrk_spec A W fits h hk hw.1 hw.2
    exact ⟨s', l', by rw [run, he]; rfl, hrep, hch, hk'⟩

end

theorem Reach.inv {mm : MmT} (h : Reach (fun mm op => op.NoWrap mm) mm) :
    ∃ l, Listed mm l ∧ HeapOk mm := by
  induction h with
  | create =>
    exact ⟨[], ⟨⟨rfl, List.nodup_nil, fun _ => rfl, .inl rfl, by simp⟩, .nil⟩, rfl,
      by decide, le_rfl⟩
  | step A W pages op _ ha hc hrun ih =>
    obtain ⟨l, hl, hk⟩ := ih
    obtain ⟨s', l', he, hrep', hch, hk'⟩ :=
      Op.run_spec A W False op (s := ⟨_, pages⟩) hl hk ha hc (fun hf => hf.elim)
    obtain rfl := Option.some.inj (hrun.symm.trans he)
    exact ⟨l', ⟨hrep', Changes.ordered hch hl.ord⟩, hk'⟩
  | fork A W W' pages _ hrun ih =>
    obtain ⟨l, hl, hk⟩ := ih
    obtain ⟨child, pages', he, done, pages'', hs, -, hc⟩ := mmFork_spec A W W' ⟨_, pages⟩ hl
    obtain ⟨rfl, -⟩ := mk.inj (Option.some.inj (hrun.symm.trans he))
    obtain ⟨-, lc, hrepc, hareas, hheap⟩ := hc
    refine ⟨lc, ⟨hrepc, ?_⟩, hheap.heapOk hk⟩
    rw [hareas]
    exact ⟨hl.ord.sorted.sublist hs, fun a ha => hl.ord.ok a (hs.subset ha)⟩

/-! ## The invariant of an address space -/

/-- The list of mappings and what points into it. -/
structure AddressSpace (mm : MmT) (l : List Nat) : Prop where
  links : DList mm.links 0 mm.vmas l
  sorted : l.Pairwise fun v w => (mm.area v).start < (mm.area w).start
  disjoint : l.Pairwise fun v w => (mm.area v).stop ≤ (mm.area w).start
  area : ∀ v ∈ l, AreaOk (mm.area v)
  cache : mm.vcache = 0 ∨ mm.vcache ∈ l
  index : mm.vbad = false → mm.vidx = l

/-- After calls whose addresses do not wrap, the invariant holds and the next such call
returns. -/
theorem address_space_invariant {mm : MmT} (h : Reach (fun mm op => op.NoWrap mm) mm) :
    (∃ l, AddressSpace mm l) ∧
      ∀ (P : Type) (A : Allocator) (W : PageOps P) (pages : P) (op : Op), op.Allowed →
        op.NoWrap mm → (op.run A W ⟨mm, pages⟩).isSome = true := by
  obtain ⟨l, hl, hk⟩ := h.inv
  refine ⟨⟨l, hl.list, hl.ord.starts, hl.ord.apart, fun v hv => hl.ord.area hv, hl.cache, hl.index⟩,
    ?_⟩
  intro P A W pages op ha hw
  obtain ⟨s', -, he, -⟩ :=
    Op.run_spec A W False op (s := ⟨mm, pages⟩) hl hk ha hw (fun hf => hf.elim)
  rw [he]
  rfl

/-- In every address space reached, `munmap` of a range that passes its checks returns. If it
does not run out of memory nothing is mapped in the range any more; outside of it every address
is mapped as before. -/
theorem unmap_exact {P : Type} {mm : MmT} (h : Reach (fun mm op => op.NoWrap mm) mm) (A : Allocator)
    (W : PageOps P) (pages : P) {addr len : Nat} (hal : addr % pg = 0 ∧ len ≠ 0)
    (hin : addr ≤ add64 addr (pup len) ∧ add64 addr (pup len) ≤ userTop) :
    ∃ l s' rc l', Listed mm l ∧ mmUnmap A W ⟨mm, pages⟩ addr len = some (s', rc) ∧ Listed s'.mm l' ∧
      Unmapped W False addr (add64 addr (pup len)) ⟨mm, pages⟩ l s' rc l' := by
  obtain ⟨l, hl, -⟩ := h.inv
  have hs : pg ∣ addr := Nat.dvd_of_mod_eq_zero hal.1
  obtain ⟨s', rc, l', he, hu⟩ :=
    unmapLocked_spec A W False (s := ⟨mm, pages⟩) hin.1 hs (pg_dvd_add64 hs (pg_dvd_pup len)) hl
  refine ⟨l, s', rc, l', hl, ?_, hu.sim.listed hl, hu⟩
  rw [mmUnmap, if_neg (by simp [hal]), if_neg (by simp [hin])]
  exact he

theorem le_foldr_max {l : List Nat} {x : Nat} (hx : x ∈ l) : x ≤ l.foldr max 0 := by
  induction l with
  | nil => simp at hx
  | cons y l ih =>
    rcases List.mem_cons.mp hx with rfl | hx
    · exact le_max_left _ _
    · exact le_trans (ih hx) (le_max_right _ _)

def nextObject : Allocator where
  pick owned := some (owned.foldr max 0 + 1)
  grow _ := true
  fresh := by
    rintro owned p ⟨⟩
    refine ⟨by omega, fun hm => ?_⟩
    have := le_foldr_max hm
    omega

def noPages : PageOps Unit where
  zap _ _ _ p := p
  protect _ p := p
  prepare _ _ p := some p
  move _ _ _ p := p
  settled _ _ _ := true
  fault _ _ _ p := (p, 0)
  fork _ p := (p, true)

def mapAt (hint len : BitVec 64) : Op := .mapAnon hint len (vmRead ||| vmWrite) false

def firstMapping (hint len : BitVec 64) : Option (Nat × Nat × Nat) :=
  ((mapAt hint len).run nextObject noPages ⟨mmCreate, ()⟩).map fun s =>
    (s.mm.vmas, (s.mm.area 1).start, (s.mm.area 1).stop)

theorem firstMapping_reach (cond : MmT → Op → Prop) (hint len : BitVec 64) {start stop : Nat}
    (hlen : 0 < len.toNat ∧ len.toNat ≤ 2 ^ 46)
    (h : firstMapping hint len = some (1, start, stop)) (hc : cond mmCreate (mapAt hint len)) :
    ∃ s, (mapAt hint len).run nextObject noPages ⟨mmCreate, ()⟩ = some s ∧ Reach cond s.mm ∧
      s.mm.vmas = 1 ∧ (s.mm.area 1).start = start ∧ (s.mm.area 1).stop = stop := by
  obtain ⟨s, hrun, he⟩ := Option.map_eq_some_iff.mp h
  simp only [mk.injEq] at he
  have hreach : Reach cond s.mm :=
    .step nextObject noPages () (mapAt hint len) .create hlen hc hrun
  exact ⟨s, hrun, hreach, he⟩

theorem address_space_invariant_map :
    ∃ mm, Reach (fun mm op => op.NoWrap mm) mm ∧ ∃ l, AddressSpace mm l ∧ l ≠ [] := by
  obtain ⟨s, -, hreach, hvmas, -⟩ :=
    firstMapping_reach (fun mm op => op.NoWrap mm) 0x400000#64 4096#64 (by decide)
      (show _ = some (1, 0x400000, 0x401000) by decide +kernel) (fun _ => by decide)
  obtain ⟨l, hl⟩ := (address_space_invariant hreach).1
  refine ⟨s.mm, hreach, l, hl, ?_⟩
  rintro rfl
  exact absurd (hvmas.symm.trans hl.links) (by decide)

/-- The first page of two is unmapped, and the second stays. -/
theorem unmap_exact_map : ∃ mm l s' l', Covers (MmT.areas mm l) 0x400000 0x402000 ∧
    mmUnmap nextObject noPages ⟨mm, ()⟩ 0x400000 4096 = some (s', 0) ∧
    Free (s'.mm.areas l') 0x400000 0x401000 ∧ Covers (s'.mm.areas l') 0x401000 0x402000 := by
  obtain ⟨s, hrun, hreach, hvmas, hstart, hstop⟩ :=
    firstMapping_reach (fun mm op => op.NoWrap mm) 0x400000#64 8192#64 (by decide)
      (show _ = some (1, 0x400000, 0x402000) by decide +kernel) (fun _ => by decide)
  obtain ⟨l, s', rc, l', hl, he, -, hu⟩ :=
    unmap_exact hreach nextObject noPages () (show 0x400000 % pg = 0 ∧
      4096 ≠ 0 by decide) (by decide)
  have hrc : ((mapAt 0x400000#64 8192#64).run nextObject noPages ⟨mmCreate, ()⟩).bind (fun s =>
      (mmUnmap nextObject noPages ⟨s.mm, ()⟩ 0x400000 4096).map Prod.snd) = some 0 := by
    decide +kernel
  rw [hrun, Option.bind_some, he] at hrc
  obtain rfl : rc = 0 := Option.some.inj hrc
  have hmem : 1 ∈ l := by
    cases l with
    | nil => exact absurd (hvmas.symm.trans hl.list) (by decide)
    | cons v l => exact (hvmas.symm.trans hl.list.1) ▸ mem_cons_self
  have hcov : Covers (s.mm.areas l) 0x400000 0x402000 :=
    ⟨_, mem_map_of_mem hmem, hstart.le, hstop.ge⟩
  have hsecond : Covers (s.mm.areas l) 0x401000 0x402000 :=
    ⟨_, mem_map_of_mem hmem, by rw [hstart]; decide, hstop.ge⟩
  exact ⟨s.mm, l, s', l', hcov, he, hu.free rfl,
    hu.covers _ _ (by decide) (.inr (by decide)) hsecond⟩

/-- A hint in the last page of the address range: its end wraps to zero, which passes both
checks, and the mapping `[2^64 - 4096, 0)` is linked. -/
theorem map_hint_wraps : ∃ mm, Reach (fun _ _ => True) mm ∧ ¬ ∃ l, AddressSpace mm l := by
  obtain ⟨s, -, hreach, hvmas, hstart, hstop⟩ :=
    firstMapping_reach (fun _ _ => True) 0xfffffffffffff000#64 4096#64 (by decide)
      (show _ = some (1, 0xfffffffffffff000, 0) by decide +kernel) trivial
  refine ⟨s.mm, hreach, ?_⟩
  rintro ⟨l, hl⟩
  cases l with
  | nil => exact absurd (hvmas.symm.trans hl.links) (by decide)
  | cons v l =>
    obtain rfl : 1 = v := hvmas.symm.trans hl.links.1
    have := (hl.area 1 (by simp)).nonempty
    omega

end Cervus.Mm
