import Cervus.Slab.Model

/-! The representation invariant of the slab allocator: the pages of the slabs, the
two lists of each cache, and for each slab the free chain against its `freemap`. -/

namespace Cervus.Slab

open Cervus.Lib Cervus.Pmm List Function Prod

def sizeClass (c : Nat) : Nat := sizeClasses.getD c 0
def capacity (c : Nat) : Nat := slabCapacity (sizeClass c)
def slabOrder (c : Nat) : Nat := slabPages (sizeClass c) - 1

def slot (s c i : Nat) : Nat := s + slabBytes + i * sizeClass c

variable {c i s : Nat} {sl : SlabT} {mem : Nat → Nat}

theorem sizeClass_inj :
    ∀ c < slabNumCaches, ∀ c' < slabNumCaches, sizeClass c = sizeClass c' → c = c' := by
  decide +kernel

section
variable (hc : c < slabNumCaches) (hs : pageSize ∣ s) (hi : i < capacity c)
include hc

theorem class_layout : 8 ≤ sizeClass c ∧ sizeClass c < 2 ^ 16 ∧ 8 ∣ sizeClass c ∧
      0 < capacity c ∧ capacity c ≤ 512 ∧
      slabBytes + (capacity c - 1) * sizeClass c + 8 ≤ pageSize ∧
      slabBytes + capacity c * sizeClass c ≤ pageSize * 2 ^ slabOrder c ∧
      slabPages (sizeClass c) ≠ 0 ∧
      pagesToOrder (slabPages (sizeClass c)) = some (some (slabOrder c)) ∧
      slabPages (sizeClass c) * pageSize = pageSize * 2 ^ slabOrder c := by
  revert c
  decide +kernel

theorem slot_inj {j : Nat} (h : slot s c i = slot s c j) : i = j := by
  have hp := (class_layout hc).1
  have he : i * sizeClass c = j * sizeClass c := Nat.add_left_cancel h
  exact Nat.eq_of_mul_eq_mul_right (by omega) he

include hi

theorem slot_offset : slabBytes + i * sizeClass c + 8 ≤ pageSize := by
  have hl := (class_layout hc).2.2.2.2.2.1
  have hm : i * sizeClass c ≤ (capacity c - 1) * sizeClass c := Nat.mul_le_mul_right _ (by omega)
  omega

include hs

theorem slot_mod : slot s c i % pageSize = slabBytes + i * sizeClass c := by
  have ho := slot_offset hc hi
  rw [slot, add_assoc, Nat.add_mod, Nat.mod_eq_zero_of_dvd hs, zero_add, Nat.mod_mod,
    Nat.mod_eq_of_lt (by omega)]

theorem pageOf_slot : pageOf (slot s c i) = s := by
  have hm := slot_mod hc hs hi
  have hd := Nat.div_add_mod (slot s c i) pageSize
  rw [hm, mul_comm, slot, add_assoc] at hd
  rw [pageOf, slot, add_assoc]
  omega

end

theorem slabObjStart_eq (hs : pageSize ∣ s) : slabObjStart s = s + slabBytes := by
  have h8 : 8 ∣ s := dvd_trans (by decide) hs
  rw [slabObjStart, alignUp, slabBytes]
  omega

/-- One slab of class `c` at `s`: its freelist is a chain without repetition of
exactly the objects whose bit is set. -/
structure SlabOk (sl : SlabT) (mem : Nat → Nat) (c s : Nat) : Prop where
  magic : sl.magic = slabMagic
  objSize : sl.objSize = sizeClass c
  total : sl.total = capacity c
  bits : ∀ i, testBit sl.freemap i = true → i < capacity c
  chain : ∃ l : List Nat, l.Nodup ∧ Chain mem sl.freelist (l.map (slot s c)) ∧
    (∀ i, i ∈ l ↔ testBit sl.freemap i = true) ∧ sl.used + l.length = capacity c

section
variable (h : SlabOk sl mem c s)
include h

theorem SlabOk.congr {mem' : Nat → Nat}
    (hm : ∀ i < capacity c, testBit sl.freemap i = true → mem' (slot s c i) = mem (slot s c i)) :
    SlabOk sl mem' c s := by
  obtain ⟨l, hn, hch, hl, hu⟩ := h.chain
  refine ⟨h.magic, h.objSize, h.total, h.bits, l, hn, hch.congr ?_, hl, hu⟩
  intro q hq
  obtain ⟨i, hi, rfl⟩ := mem_map.mp hq
  have hb := (hl i).mp hi
  exact hm i (h.bits i hb) hb

/-- Taking the head of the free chain. -/
theorem SlabOk.take (hu : sl.used < capacity c) :
    ∃ i < capacity c, sl.freelist = slot s c i ∧ testBit sl.freemap i = true ∧
      SlabOk { sl with
        freemap := clearBit sl.freemap i
        freelist := mem sl.freelist
        used := sl.used + 1 } mem c s := by
  obtain ⟨l, hn, hch, hl, hlen⟩ := h.chain
  cases l with
  | nil => simp only [length_nil] at hlen; omega
  | cons i t =>
    obtain ⟨hfl, -, hch⟩ := hch
    have hb := (hl i).mp (by simp)
    obtain ⟨hit, hnt⟩ := nodup_cons.mp hn
    refine ⟨i, h.bits i hb, hfl, hb, h.magic, h.objSize, h.total, ?_, t, hnt,
      by rw [hfl]; exact hch,
      ?_, ?_⟩
    · intro j hj
      rw [testBit_clearBit, Bool.and_eq_true] at hj
      exact h.bits j hj.2
    · intro j
      have hj := hl j
      simp only [testBit_clearBit, Bool.and_eq_true, Bool.not_eq_true', decide_eq_false_iff_not]
      by_cases hij : i = j
      · subst hij
        simp [hit]
      · rw [mem_cons, or_iff_right (Ne.symm hij)] at hj
        simp [hj, hij]
    · simp only [length_cons] at hlen
      show sl.used + 1 + t.length = _
      omega

theorem SlabOk.used_pos (hi : i < capacity c) (hb : testBit sl.freemap i = false) :
    0 < sl.used := by
  obtain ⟨l, hn, -, hl, hlen⟩ := h.chain
  have hsub : l.toFinset ⊆ (Finset.range (capacity c)).erase i := by
    intro j hj
    have hjb := (hl j).mp (mem_toFinset.mp hj)
    have hjc := h.bits j hjb
    have hne : j ≠ i := by
      rintro rfl
      simp [hb] at hjb
    exact Finset.mem_erase.mpr ⟨hne, Finset.mem_range.mpr hjc⟩
  have hcard := Finset.card_le_card hsub
  rw [toFinset_card_of_nodup hn, Finset.card_erase_of_mem (Finset.mem_range.mpr hi),
    Finset.card_range] at hcard
  omega

/-- Giving an object back to the chain. -/
theorem SlabOk.give (hc : c < slabNumCaches) (hi : i < capacity c)
    (hb : testBit sl.freemap i = false) :
    SlabOk { sl with
      freemap := setBit sl.freemap i
      freelist := slot s c i
      used := sl.used - 1 } (update mem (slot s c i) sl.freelist) c s := by
  have hpos := h.used_pos hi hb
  obtain ⟨l, hn, hch, hl, hlen⟩ := h.chain
  have hil : i ∉ l := by
    intro hm
    exact absurd ((hl i).mp hm) (by simp [hb])
  refine ⟨h.magic, h.objSize, h.total, ?_, i :: l, nodup_cons.mpr ⟨hil, hn⟩, ?_, ?_, ?_⟩
  · intro j hj
    rw [testBit_setBit, Bool.or_eq_true, decide_eq_true_eq] at hj
    exact hj.elim (fun e => e ▸ hi) (h.bits j)
  · apply hch.push
    · have : 0 < slabBytes := by decide
      rw [slot]
      omega
    · intro hm
      obtain ⟨j, hj, hjs⟩ := mem_map.mp hm
      exact hil (slot_inj hc hjs ▸ hj)
  · intro j
    have hj := hl j
    simp only [testBit_setBit, mem_cons, Bool.or_eq_true, decide_eq_true_eq, hj]
    exact or_congr_left eq_comm
  · simp only [length_cons]
    omega

end

structure Shape where
  slabs : List (Nat × Nat)
  list : Nat × SlabList → List Nat

def slabPagesOf (x : Nat × Nat) : Multiset Nat := pagesOf x.2 (slabOrder x.1)

def held (slabs : List (Nat × Nat)) : Multiset Nat := (slabs.map slabPagesOf).sum

def LinksKept (slabs : List (Nat × Nat)) (h h' : Heap) : Prop :=
  ∀ x, x / pageSize ∉ held slabs → h'.links.next x = h.links.next x ∧
    h'.links.prev x = h.links.prev x

theorem LinksKept.trans {slabs : List (Nat × Nat)} {h h' h'' : Heap} (h₁ : LinksKept slabs h h')
    (h₂ : LinksKept slabs h' h'') : LinksKept slabs h h'' := fun x hx =>
  ⟨(h₂ x hx).1.trans (h₁ x hx).1, (h₂ x hx).2.trans (h₁ x hx).2⟩

def heads (caches : Nat → SlabCache) (k : Nat × SlabList) : Nat :=
  (caches k.1).head k.2

/-- `other` are the pages other parts of the kernel hold, `live` the objects handed
out. Inside a call one slab, `empty`, may be on a partial list with no object out. -/
structure HeapInv (pool : Finset Nat) (h : Heap) (sh : Shape) (other : Multiset Nat)
    (live : Finset Nat) (empty : Option Nat) : Prop where
  buddy : Inv pool h.buddy (held sh.slabs + other)
  objSize : ∀ c < slabNumCaches, (h.caches c).objSize = sizeClass c
  bound : ∀ c s, (c, s) ∈ sh.slabs → c < slabNumCaches ∧ blockBytes (slabOrder c) ∣ s
  listed : ∀ c s, (c, s) ∈ sh.slabs ↔ s ∈ sh.list (c, .partials) ∨ s ∈ sh.list (c, .fulls)
  lists : DLists h.links (heads h.caches) sh.list
  slab : ∀ c s, (c, s) ∈ sh.slabs → SlabOk (h.slabs s) h.mem c s
  usedPartial : ∀ c, ∀ s ∈ sh.list (c, .partials),
    (h.slabs s).used < capacity c ∧ ((h.slabs s).used = 0 → empty = some s)
  usedFull : ∀ c, ∀ s ∈ sh.list (c, .fulls), (h.slabs s).used = capacity c
  live_iff : ∀ p, p ∈ live ↔ ∃ c s i, (c, s) ∈ sh.slabs ∧ i < capacity c ∧
    testBit (h.slabs s).freemap i = false ∧ p = slot s c i

namespace HeapInv

variable {h h' : Heap} {sh : Shape} {c c' s : Nat}
  {other other' : Multiset Nat} {live pool : Finset Nat} {empty : Option Nat}

section

variable (hi : HeapInv pool h sh other live empty)

include hi

theorem aligned (hs : (c, s) ∈ sh.slabs) : pageSize ∣ s := by
  have hd := (hi.bound c s hs).2
  rw [blockBytes_eq] at hd
  exact dvd_of_mul_right_dvd hd

theorem held_nodup : (held sh.slabs).Nodup :=
  (Multiset.nodup_add.mp (Multiset.nodup_add.mp hi.buddy.nodup).2.1).1

theorem slab_unique {s' q : Nat} (hs : (c, s) ∈ sh.slabs) (hs' : (c', s') ∈ sh.slabs)
    (hq : q ∈ pagesOf s (slabOrder c)) (hq' : q ∈ pagesOf s' (slabOrder c')) : c = c' ∧ s = s' :=
  mk.inj (eq_of_mem_sum_map hi.held_nodup hs hs' hq hq')

theorem class_unique (hs : (c, s) ∈ sh.slabs) (hs' : (c', s) ∈ sh.slabs) : c = c' :=
  (hi.slab_unique hs hs' (head_mem_pagesOf _ _) (head_mem_pagesOf _ _)).1

theorem mem_slabs {k : Nat × SlabList} (hs : s ∈ sh.list k) : (k.1, s) ∈ sh.slabs := by
  obtain ⟨c, b⟩ := k
  cases b with
  | partials => exact (hi.listed c s).mpr (.inl hs)
  | fulls => exact (hi.listed c s).mpr (.inr hs)

theorem not_listed {x : Nat}
    (hx : x / pageSize ∉ held sh.slabs) (k : Nat × SlabList) : x ∉ sh.list k := fun hm =>
  hx (mem_sum_map.mpr ⟨_, hi.mem_slabs hm, head_mem_pagesOf _ _⟩)

theorem ne_zero (hs : (c, s) ∈ sh.slabs) : s ≠ 0 := by
  rcases (hi.listed c s).mp hs with hm | hm
  · exact (hi.lists.list _).ne_zero hm
  · exact (hi.lists.list _).ne_zero hm

theorem frame (hb : Inv pool h'.buddy (held sh.slabs + other')) (hc : h'.caches = h.caches)
    (hs : ∀ c s, (c, s) ∈ sh.slabs → h'.slabs s = h.slabs s ∧
      h'.links.next s = h.links.next s ∧ h'.links.prev s = h.links.prev s)
    (hm : ∀ c s i, (c, s) ∈ sh.slabs → i < capacity c → testBit (h.slabs s).freemap i = true →
      h'.mem (slot s c i) = h.mem (slot s c i)) : HeapInv pool h' sh other' live empty where
  buddy := hb
  objSize := by rw [hc]; exact hi.objSize
  bound := hi.bound
  listed := hi.listed
  lists := by
    rw [hc]
    exact hi.lists.congr (fun k x hx => (hs _ _ (hi.mem_slabs hx)).2.1)
      (fun k x hx => (hs _ _ (hi.mem_slabs hx)).2.2)
  slab := by
    intro c s hcs
    rw [(hs c s hcs).1]
    exact (hi.slab c s hcs).congr fun i hic hib => hm c s i hcs hic hib
  usedPartial := by
    intro c s hsl
    rw [(hs c s (hi.mem_slabs hsl)).1]
    exact hi.usedPartial c s hsl
  usedFull := by
    intro c s hsl
    rw [(hs c s (hi.mem_slabs hsl)).1]
    exact hi.usedFull c s hsl
  live_iff := by
    intro p
    rw [hi.live_iff p]
    constructor
    · rintro ⟨c, s, i, hcs, hic, hib, hp⟩
      exact ⟨c, s, i, hcs, hic, by rwa [(hs c s hcs).1], hp⟩
    · rintro ⟨c, s, i, hcs, hic, hib, hp⟩
      exact ⟨c, s, i, hcs, hic, by rwa [(hs c s hcs).1] at hib, hp⟩

theorem sameOff (hb : Inv pool h'.buddy (held sh.slabs + other')) {pg : Nat → Prop}
    (hs : SameOff pg h h') (hp : ∀ c s, (c, s) ∈ sh.slabs → ¬ pg s) :
    HeapInv pool h' sh other' live empty := by
  have hpg : ∀ c s, (c, s) ∈ sh.slabs → ¬ pg (pageOf s) := fun c s hcs => by
    rw [pageOf_of_dvd (hi.aligned hcs)]
    exact hp c s hcs
  apply hi.frame hb hs.caches
  · intro c s hcs
    exact ⟨hs.slabs s (hpg c s hcs), hs.next s (hpg c s hcs), hs.prev s (hpg c s hcs)⟩
  · intro c s i hcs hic _
    apply hs.mem
    rw [pageOf_slot (hi.bound c s hcs).1 (hi.aligned hcs) hic]
    exact hp c s hcs

theorem live_page (hcs : (c, s) ∈ sh.slabs) (p : Nat) : (p ∈ live ∧ pageOf p = s) ↔
      ∃ i < capacity c, testBit (h.slabs s).freemap i = false ∧ p = slot s c i := by
  constructor
  · rintro ⟨hp, hps⟩
    obtain ⟨c', s', i, hcs', hic, hib, rfl⟩ := (hi.live_iff p).mp hp
    rw [pageOf_slot (hi.bound c' s' hcs').1 (hi.aligned hcs') hic] at hps
    subst hps
    obtain rfl := hi.class_unique hcs hcs'
    exact ⟨i, hic, hib, rfl⟩
  · rintro ⟨i, hic, hib, rfl⟩
    exact ⟨(hi.live_iff _).mpr ⟨c, s, i, hcs, hic, hib, rfl⟩,
      pageOf_slot (hi.bound c s hcs).1 (hi.aligned hcs) hic⟩

end

/-- One slab changes, and with it its place in the lists. -/
theorem modify {live' : Finset Nat} {empty' : Option Nat} {sl : SlabT}
    {list' : Nat × SlabList → List Nat} (hi : HeapInv pool h sh other live empty)
    (hcs : (c, s) ∈ sh.slabs) (he : ∀ x, empty = some x → x = s) (hb : h'.buddy = h.buddy)
    (hobj : ∀ d, (h'.caches d).objSize = (h.caches d).objSize)
    (hsl : h'.slabs = update h.slabs s sl) (hm : ∀ a, pageOf a ≠ s → h'.mem a = h.mem a)
    (hok : SlabOk sl h'.mem c s) (hlists : DLists h'.links (heads h'.caches) list')
    (hlist : ∀ k, ∀ x ≠ s, x ∈ list' k ↔ x ∈ sh.list k)
    (hin : (s ∈ list' (c, .partials) ∧ sl.used < capacity c ∧ (sl.used = 0 → empty' = some s)) ∨
    (s ∈ list' (c, .fulls) ∧ sl.used = capacity c))
    (hlive : ∀ p, p ∈ live' ↔ (p ∈ live ∧ pageOf p ≠ s) ∨
    ∃ i < capacity c, testBit sl.freemap i = false ∧ p = slot s c i) :
    HeapInv pool h' ⟨sh.slabs, list'⟩ other live' empty' := by
  obtain ⟨b, hsb⟩ : ∃ b, s ∈ list' (c, b) := hin.elim (fun e => ⟨_, e.1⟩) fun e => ⟨_, e.1⟩
  have hself : h'.slabs s = sl := by rw [hsl, Function.update_self]
  have hoff : ∀ x ≠ s, h'.slabs x = h.slabs x := fun x hx => by rw [hsl, Function.update_of_ne hx]
  have hat : ∀ k, s ∈ list' k → k = (c, b) := fun k hk => hlists.apart k (c, b) s hk hsb
  have hcl : ∀ d, (d, s) ∈ sh.slabs → d = c := fun d hd => hi.class_unique hd hcs
  refine ⟨hb ▸ hi.buddy, fun d hd => (hobj d).trans (hi.objSize d hd), hi.bound, ?_, hlists, ?_, ?_,
    ?_, ?_⟩
  · intro d x
    by_cases hx : x = s
    · subst hx
      constructor
      · intro hd
        obtain rfl := hcl d hd
        cases b
        · exact .inl hsb
        · exact .inr hsb
      · rintro (hd | hd)
        · rw [(mk.inj (hat _ hd)).1]
          exact hcs
        · rw [(mk.inj (hat _ hd)).1]
          exact hcs
    · rw [hlist (d, .partials) x hx, hlist (d, .fulls) x hx]
      exact hi.listed d x
  · intro d x hd
    by_cases hx : x = s
    · subst hx
      obtain rfl := hcl d hd
      rwa [hself]
    · rw [hoff x hx]
      refine (hi.slab d x hd).congr fun i hic _ => hm _ ?_
      rwa [pageOf_slot (hi.bound d x hd).1 (hi.aligned hd) hic]
  · intro d x hxl
    by_cases hx : x = s
    · subst hx
      obtain ⟨rfl, rfl⟩ := mk.inj (hat _ hxl)
      rw [hself]
      rcases hin with ⟨-, hu⟩ | ⟨ht, -⟩
      · exact hu
      · cases hat _ ht
    · have hu := hi.usedPartial d x ((hlist _ x hx).mp hxl)
      rw [hoff x hx]
      exact ⟨hu.1, fun h0 => absurd (he x (hu.2 h0)) hx⟩
  · intro d x hxl
    by_cases hx : x = s
    · subst hx
      obtain ⟨rfl, rfl⟩ := mk.inj (hat _ hxl)
      rw [hself]
      rcases hin with ⟨ht, -⟩ | ⟨-, hu⟩
      · cases hat _ ht
      · exact hu
    · rw [hoff x hx]
      exact hi.usedFull d x ((hlist _ x hx).mp hxl)
  · intro p
    rw [hlive p]
    constructor
    · rintro (⟨hp, hps⟩ | ⟨i, hic, hib, rfl⟩)
      · obtain ⟨d, x, i, hd, hic, hib, rfl⟩ := (hi.live_iff p).mp hp
        rw [pageOf_slot (hi.bound d x hd).1 (hi.aligned hd) hic] at hps
        exact ⟨d, x, i, hd, hic, by rwa [hoff x hps], rfl⟩
      · exact ⟨c, s, i, hcs, hic, by rwa [hself], rfl⟩
    · rintro ⟨d, x, i, hd, hic, hib, rfl⟩
      by_cases hx : x = s
      · subst hx
        obtain rfl := hcl d hd
        exact .inr ⟨i, hic, by rwa [hself] at hib, rfl⟩
      · rw [hoff x hx] at hib
        refine .inl ⟨(hi.live_iff _).mpr ⟨d, x, i, hd, hic, hib, rfl⟩, ?_⟩
        rwa [pageOf_slot (hi.bound d x hd).1 (hi.aligned hd) hic]

end HeapInv

end Cervus.Slab
