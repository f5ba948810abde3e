import Cervus.Pc.Model

/-! The lists of the cache: every entry once on the chain of its bucket and once on the LRU
list, and what the removal of entries leaves. -/

namespace Cervus.Pc

open List
open Function (update update_of_ne update_self)
open Lib (Chain Chains Deque chainFind)
open PageCache (dropBatch)

section
/-- The chains are `c`, the LRU list is `l`, and the entries on them are those of the heap. -/
structure Shape (t : Table) (c : Nat → List Nat) (l : List Nat) : Prop where
  hash : Chains t.hnext t.hash c
  lru : Deque t.lru t.lruHead t.lruTail l
  place : ∀ b x, x ∈ c b ↔ x ∈ l ∧ (t.entry x).bucket = b
  keys : ∀ x ∈ l, ∀ y ∈ l, (t.entry y).is (t.entry x).fs (t.entry x).id (t.entry x).index = true →
    y = x
  count : t.count = l.length
  heap : ∀ x, t.heap x = true ↔ x ∈ l
  addr : ∀ x ∈ l, x < 2 ^ 64
  phys : ∀ x ∈ l, (t.entry x).phys ≠ 0

variable {fs id index : U64} {l : List Nat} {c : Nat → List Nat}

theorem Entry.is_iff {e : Entry} :
    e.is fs id index = true ↔ e.fs = fs ∧ e.id = id ∧ e.index = index := by
  simp [Entry.is, and_assoc]

theorem Entry.bucket_of_is {e : Entry} (h : e.is fs id index = true) :
    e.bucket = Pc.bucket fs id index := by
  obtain ⟨rfl, rfl, rfl⟩ := Entry.is_iff.mp h
  rfl

theorem Entry.is_symm {a b : Entry} (h : a.is b.fs b.id b.index = true) :
    b.is a.fs a.id a.index = true := by
  obtain ⟨h1, h2, h3⟩ := Entry.is_iff.mp h
  exact Entry.is_iff.mpr ⟨h1.symm, h2.symm, h3.symm⟩

theorem length_lt_of_addr (hn : l.Nodup) (h0 : 0 ∉ l) (ha : ∀ x ∈ l, x < 2 ^ 64) :
    l.length < 2 ^ 64 := by
  have hsub : (0 :: l).Subperm (List.range (2 ^ 64)) := by
    refine subperm_of_subset (nodup_cons.mpr ⟨h0, hn⟩) fun x hx => ?_
    rcases mem_cons.mp hx with rfl | hx
    · exact mem_range.mpr (by decide)
    · exact mem_range.mpr (ha x hx)
  have hle := hsub.length_le
  rwa [length_cons, length_range] at hle

namespace Shape
variable {t : Table} {c : Nat → List Nat} {l : List Nat} {ne x : Nat} {fs id index : U64}
    (h : Shape t c l)
include h

theorem ne_zero (hx : x ∈ l) : x ≠ 0 := h.lru.list.ne_zero hx

theorem chain_sub (b : Nat) : (c b).length ≤ t.count := by
  rw [h.count]
  exact (subperm_of_subset (h.hash.nodup b) fun x hx => ((h.place b x).mp hx).1).length_le

theorem length_lt : l.length < 2 ^ 64 :=
  length_lt_of_addr h.lru.nodup (fun h0 => h.ne_zero h0 rfl) h.addr

theorem find (fs id index : U64) :
    (t.findLocked fs id index = 0 ∧ ∀ x ∈ l, (t.entry x).is fs id index = false) ∨
      (t.findLocked fs id index ∈ l ∧ (t.entry (t.findLocked fs id index)).is fs id index =
      true) := by
  have hf : t.findLocked fs id index = ((c (bucket fs id index)).find? fun e =>
    (t.entry e).is fs id index).getD 0 :=
    (h.hash.chain _).find _ (h.chain_sub _)
  rcases hx : (c (bucket fs id index)).find? fun e => (t.entry e).is fs id index with _ | x
  · left
    rw [hx] at hf
    refine ⟨hf, fun x hxl => ?_⟩
    by_contra hne
    have his : (t.entry x).is fs id index = true := Bool.eq_true_of_not_eq_false hne
    exact List.find?_eq_none.mp hx x ((h.place _ x).mpr ⟨hxl, Entry.bucket_of_is his⟩) his
  · right
    rw [hx, Option.getD_some] at hf
    rw [hf]
    exact ⟨((h.place _ x).mp (mem_of_find?_eq_some hx)).1, (List.find?_eq_some_iff_append.mp hx).1⟩

theorem find_mem (he : t.findLocked fs id index ≠ 0) : t.findLocked fs id index ∈ l :=
  (h.find fs id index).elim (fun h0 => absurd h0.1 he) And.left

theorem find_none (he : t.findLocked fs id index = 0) (hx : x ∈ l) :
    (t.entry x).is fs id index = false := by
  rcases h.find fs id index with h0 | h0
  · exact h0.2 x hx
  · exact absurd he (h.ne_zero h0.1)

theorem front (hx : x ∈ l) : Shape ((t.lruUnlink x).lruPushFront x) c (x :: l.erase x) := by
  have hmem : ∀ y, y ∈ x :: l.erase x ↔ y ∈ l := fun y => (perm_cons_erase hx).symm.mem_iff
  have hu := h.lru.unlink hx
  have hd := hu.front (fun hm => h.lru.nodup.not_mem_erase hm) (h.ne_zero hx)
  simp only [hu.tail_iff_head] at hd
  refine ⟨h.hash, ?_, fun b y => ?_, fun y hy z hz => ?_, ?_, fun y => ?_, fun y hy =>
    ?_, fun y hy => ?_⟩
  · simp only [Table.lruPushFront, ite_not]
    exact hd
  · rw [hmem]
    exact h.place b y
  · exact h.keys y ((hmem y).mp hy) z ((hmem z).mp hz)
  · exact h.count.trans (perm_cons_erase hx).length_eq
  · rw [hmem]
    exact h.heap y
  · exact h.addr y ((hmem y).mp hy)
  · exact h.phys y ((hmem y).mp hy)

/-- Taking an entry out keeps the shape. -/
theorem discard (hx : x ∈ l) :
    Shape (t.discard x) (update c (t.entry x).bucket ((c (t.entry x).bucket).erase x))
      (l.erase x) := by
  have hmem : ∀ y, y ∈ l.erase x ↔ y ≠ x ∧ y ∈ l := fun y => h.lru.nodup.mem_erase_iff
  refine ⟨?_, h.lru.unlink hx, fun b y => ?_, fun y hy z hz => ?_, ?_, fun y => ?_, fun y hy =>
    ?_, fun y hy => ?_⟩
  · exact h.hash.detach _ ((h.place _ x).mpr ⟨hx, rfl⟩) (Nat.le_succ_of_le (h.chain_sub _))
  · have hold := h.place b y
    by_cases hb : b = (t.entry x).bucket
    · subst hb
      rw [update_self, (h.hash.nodup _).mem_erase_iff, hmem, hold, and_assoc]
      rfl
    · rw [update_of_ne hb, hmem, hold]
      refine ⟨fun hy => ⟨⟨?_, hy.1⟩, hy.2⟩, fun hy => ⟨hy.1.2, hy.2⟩⟩
      rintro rfl
      exact hb hy.2.symm
  · exact h.keys y ((hmem y).mp hy).2 z ((hmem z).mp hz).2
  · have hlt := h.length_lt
    have hpos := length_pos_of_mem hx
    show (t.count + (2 ^ 64 - 1)) % 2 ^ 64 = _
    rw [length_erase_of_mem hx, h.count]
    omega
  · show update t.heap x false y = true ↔ _
    rw [hmem, ← h.heap]
    by_cases hy : y = x
    · subst hy
      simp
    · simp [hy]
  · exact h.addr y ((hmem y).mp hy).2
  · exact h.phys y ((hmem y).mp hy).2

theorem kzalloc (hne : ne ∉ l) (x : Entry) : Shape { t.kzalloc ne x with heap := t.heap } c l := by
  have hother : ∀ y ∈ l, (t.kzalloc ne x).entry y = t.entry y := by
    intro y hy
    have hyn : y ≠ ne := fun e => hne (e ▸ hy)
    exact update_of_ne hyn _ _
  refine ⟨h.hash, h.lru, fun b y => ?_, fun y hy z hz => ?_, h.count, h.heap, h.addr, fun y hy =>
    ?_⟩
  · rw [h.place]
    exact and_congr_right fun hy => by rw [hother y hy]
  · rw [hother y hy, hother z hz]
    exact h.keys y hy z hz
  · rw [hother y hy]
    exact h.phys y hy

/-- Entering a page that is not cached keeps the shape. -/
theorem enter (hne : ne ∉ l) (h0 : ne ≠ 0) (hlt : ne < 2 ^ 64) (hp : (t.entry ne).phys ≠ 0)
    (hkey : ∀ x ∈ l, (t.entry x).is (t.entry ne).fs (t.entry ne).id (t.entry ne).index = false) :
    Shape { t.enter ne with heap := update t.heap ne true }
      (update c (t.entry ne).bucket (ne :: c (t.entry ne).bucket)) (ne :: l) := by
  have hd := h.lru.front hne h0
  simp only [h.lru.tail_iff_head] at hd
  have ha : ∀ x ∈ ne :: l, x < 2 ^ 64 := forall_mem_cons.mpr ⟨hlt, h.addr⟩
  refine ⟨h.hash.push _ h0 fun b hm => hne ((h.place b ne).mp hm).1, ?_, fun b y =>
    ?_, fun y hy z hz hyz => ?_, ?_,
    fun y => ?_, ha, forall_mem_cons.mpr ⟨hp, h.phys⟩⟩
  · simp only [Table.enter, Table.lruPushFront, ite_not]
    exact hd
  · rw [Lib.mem_update_cons, mem_cons, h.place]
    constructor
    · rintro (⟨rfl, rfl⟩ | hy)
      · exact ⟨.inl rfl, rfl⟩
      · exact ⟨.inr hy.1, hy.2⟩
    · rintro ⟨rfl | hy, hb⟩
      · exact .inl ⟨hb.symm, rfl⟩
      · exact .inr ⟨hy, hb⟩
  · rcases mem_cons.mp hy with rfl | hyl <;> rcases mem_cons.mp hz with rfl | hzl
    · rfl
    · exact absurd ((hkey z hzl).symm.trans hyz) Bool.false_ne_true
    · exact absurd ((hkey y hyl).symm.trans (Entry.is_symm hyz)) Bool.false_ne_true
    · exact h.keys y hyl z hzl hyz
  · show (t.count + 1) % 2 ^ 64 = _
    rw [h.count, length_cons]
    exact Nat.mod_eq_of_lt (length_lt_of_addr hd.nodup (fun hm => hd.list.ne_zero hm rfl) ha)
  · show update t.heap ne true y = true ↔ _
    rw [mem_cons, ← h.heap]
    by_cases hy : y = ne
    · subst hy
      simp
    · simp [hy]

end Shape

/-- Entries that `p` accepts are taken out one after the other. -/
inductive Discarded (p : Entry → Bool) : Table → List Nat → Table → Prop
  | nil (t : Table) : Discarded p t [] t
  | cons {t t' : Table} {x : Nat} {xs : List Nat} : t.heap x = true → p (t.entry x) = true →
      Discarded p (t.discard x) xs t' → Discarded p t (x :: xs) t'

namespace Discarded
variable {p : Entry → Bool} {t t' t'' : Table} {c : Nat → List Nat} {l xs ys : List Nat}

theorem append (h : Discarded p t xs t') (h' : Discarded p t' ys t'') :
    Discarded p t (xs ++ ys) t'' := by
  induction h with
  | nil _ => exact h'
  | cons hx hp _ ih => exact .cons hx hp (ih h')

theorem entry_eq (h : Discarded p t xs t') : t'.entry = t.entry := by
  induction h with
  | nil _ => rfl
  | cons _ _ _ ih => exact ih

theorem shape (hd : Discarded p t xs t') (h : Shape t c l) :
    ∃ c' l', Shape t' c' l' ∧ l.Perm (xs ++ l') := by
  induction hd generalizing c l with
  | nil _ => exact ⟨c, l, h, .refl _⟩
  | cons hx _ _ ih =>
    have hxl := (h.heap _).mp hx
    obtain ⟨c', l', h', hp⟩ := ih (h.discard hxl)
    exact ⟨c', l', h', (perm_cons_erase hxl).trans (hp.cons _)⟩

theorem heap_sub (hd : Discarded p t xs t') {x : Nat} (hx : t'.heap x = true) :
    t.heap x = true := by
  induction hd with
  | nil _ => exact hx
  | @cons t _ y _ hy _ _ ih =>
    have hu : update t.heap y false x = true := ih hx
    by_cases he : x = y
    · exact he ▸ hy
    · rwa [update_of_ne he] at hu

end Discarded

/-- What a walk over some of the entries has done: those taken out had their frames noted, and
unless the batch is full no entry of `seen` that `p` accepts is left. -/
structure Batch (p : Entry → Bool) (seen : Entry → Prop) (t : Table) (freed : List Nat)
    (r : Table × List Nat) (xs : List Nat) : Prop where
  gone : Discarded p t xs r.1
  freed : r.2 = freed ++ xs.map fun x => (t.entry x).phys
  left : r.2.length < dropBatch → ∀ x, r.1.heap x = true → seen (t.entry x) → p (t.entry x) = false

/-- The walk over a chain drops exactly the entries it is asked to. -/
theorem dropChain_batch {p : Entry → Bool} {rest : List Nat} {t : Table} {fuel b : Nat}
    {pre : List Nat} (freed : List Nat) (h : Shape t c l) (hc : c b = pre ++ rest)
    (hpre : ∀ x ∈ pre, p (t.entry x) = false) (hf : rest.length ≤ fuel) :
    ∃ xs, Batch p (fun e => e.bucket = b) t freed
      (Table.dropChain p fuel (rest.headD 0) t freed) xs := by
  induction rest generalizing t c l fuel pre freed with
  | nil =>
    have hstop : Table.dropChain p fuel 0 t freed = (t, freed) := by cases fuel <;> rfl
    rw [headD_nil, hstop]
    refine ⟨[], .nil t, by simp, fun _ x hx hb => hpre x ?_⟩
    have hxb := (h.place b x).mpr ⟨(h.heap x).mp hx, hb⟩
    rwa [hc, append_nil] at hxb
  | cons x rest ih =>
    obtain ⟨fuel, rfl⟩ : ∃ m, fuel = m + 1 :=
      Nat.exists_eq_add_one.mpr (lt_of_lt_of_le (by simp) hf)
    have hchain : Chain t.hnext (t.hash b) (pre ++ x :: rest) := hc ▸ h.hash.chain b
    have hnext : t.hnext x = rest.headD 0 := hchain.next_eq
    obtain ⟨hxl, hxb⟩ := (h.place b x).mp (by simp [hc])
    rw [headD_cons, Table.dropChain]
    by_cases hfull : freed.length < dropBatch
    · rw [if_pos ⟨h.ne_zero hxl, hfull⟩, hnext]
      split_ifs with hp
      · have hxpre : x ∉ pre := fun hm => by rw [hpre x hm] at hp; exact Bool.false_ne_true hp
        have hc' : update c (t.entry x).bucket ((c (t.entry x).bucket).erase x) b = pre ++
            rest := by
          rw [hxb, update_self, hc, erase_append_right _ hxpre, erase_cons_head]
        obtain ⟨xs, hb⟩ := ih (freed ++ [(t.entry x).phys]) (h.discard hxl) hc' hpre
          (Nat.le_of_succ_le_succ hf)
        refine ⟨x :: xs, .cons ((h.heap x).mpr hxl) hp hb.gone, ?_, hb.left⟩
        rw [hb.freed, append_assoc]
        rfl
      · have hc' : c b = (pre ++ [x]) ++ rest := by rw [hc, append_assoc, singleton_append]
        refine ih freed h hc' (fun y hy => ?_) (Nat.le_of_succ_le_succ hf)
        rcases mem_append.mp hy with hy | hy
        · exact hpre y hy
        · rw [mem_singleton.mp hy]
          exact Bool.eq_false_of_not_eq_true hp
    · rw [if_neg fun hn => hfull hn.2]
      exact ⟨[], .nil t, by simp, fun hn => absurd hn hfull⟩

theorem dropBuckets_batch {p : Entry → Bool} (bs : List Nat) {t : Table} (freed : List Nat)
    (h : Shape t c l) :
    ∃ xs, Batch p (fun e => e.bucket ∈ bs) t freed (Table.dropBuckets p bs t freed) xs := by
  induction bs generalizing t c l freed with
  | nil => exact ⟨[], .nil t, by simp [Table.dropBuckets], fun _ _ _ hb => by simp at hb⟩
  | cons b bs ih =>
    rw [Table.dropBuckets]
    split_ifs with hfull
    · have hhead : t.hash b = (c b).headD 0 := (h.hash.chain b).head_eq
      obtain ⟨xs, hx⟩ := dropChain_batch (p :=
        p) freed h (nil_append (c b)).symm (by simp) (h.chain_sub b)
      rw [← hhead] at hx
      obtain ⟨c', l', h', -⟩ := hx.gone.shape h
      obtain ⟨ys, hy⟩ := ih (Table.dropChain p t.count (t.hash b) t freed).2 h'
      have hentry := hx.gone.entry_eq
      refine ⟨xs ++ ys, hx.gone.append hy.gone, ?_, fun hlt y hheap hb => ?_⟩
      · rw [hy.freed, hx.freed, hentry, map_append, append_assoc]
      · have hlt' := hlt
        rw [hy.freed, length_append] at hlt'
        rcases mem_cons.mp hb with hb | hb
        · exact hx.left (by omega) y (hy.gone.heap_sub hheap) hb
        · have := hy.left hlt y hheap
          rw [hentry] at this
          exact this hb
    · exact ⟨[], .nil t, by simp, fun hn => absurd hn hfull⟩

end

/-! References on frames. The count of a frame is the number of entries on it, of the
references a running call has in its hands, and of those that callers hold. -/

open Function (update_apply)

/-- `own` are the frames of the entries and `P` those a call has a reference on. -/
structure Ledger (F : Frames) (own P : List Nat) : Prop where
  refs : ∀ f, F.refs f = own.count f + P.count f + F.held f
  free : ∀ f, F.free f = true → F.refs f = 0
  slot : ∀ f, F.free f = true ∨ F.refs f ≠ 0 → F.slot f

/-- One more reference on any frame fits its counter. -/
def Frames.Roomy (F : Frames) : Prop := ∀ f, F.refs f + 1 < 2 ^ 32

theorem count_cons_ite (f g : Nat) (P : List Nat) :
    (f :: P).count g = P.count g + if g = f then 1 else 0 := by
  rw [count_cons]
  simp only [beq_iff_eq, eq_comm (a := f)]

namespace Ledger
variable {F : Frames} {own own' P Q : List Nat} {f : Nat}

theorem release (h : Ledger F (Q ++ own) P) : Ledger F own (Q ++ P) := by
  refine ⟨fun f => ?_, h.free, h.slot⟩
  rw [h.refs, count_append, count_append]
  omega

theorem keep (h : Ledger F own (f :: P)) : Ledger F (f :: own) P := by
  refine ⟨fun g => ?_, h.free, h.slot⟩
  rw [h.refs, count_cons, count_cons]
  omega

theorem hand (h : Ledger F own (f :: P)) : Ledger (F.hand f) own P := by
  refine ⟨fun g => ?_, h.free, h.slot⟩
  have hg := h.refs g
  rw [count_cons_ite] at hg
  simp only [Frames.hand, update_apply]
  by_cases he : g = f
  · subst he
    rw [if_pos rfl] at hg ⊢
    omega
  · rw [if_neg he] at hg ⊢
    omega

/-- A change at one frame with a counter keeps the counters in range. -/
theorem slot_of {F' : Frames} (h : Ledger F own P) (hf : F.slot f) (hn : F'.gFrames = F.gFrames)
    (hfree : ∀ g, g ≠ f → F'.free g = F.free g) (hrefs : ∀ g, g ≠ f → F'.refs g = F.refs g)
    (g : Nat) (hg : F'.free g = true ∨ F'.refs g ≠ 0) : F'.slot g := by
  rw [Frames.slot, hn]
  by_cases hgf : g = f
  · exact hgf ▸ hf
  · rw [hfree g hgf, hrefs g hgf] at hg
    exact h.slot g hg

theorem pageUnref (h : Ledger F own (f :: P)) : Ledger (F.pageUnref f) own P := by
  have hfr : F.refs f = own.count f + (P.count f + 1) + F.held f := by rw [h.refs, count_cons_self]
  have hother : ∀ g, g ≠ f → F.refs g = own.count g + P.count g + F.held g := by
    intro g hg
    rw [h.refs, count_cons_of_ne (Ne.symm hg)]
  have hslot : F.slot f := h.slot f (.inr (by omega))
  unfold Frames.pageUnref
  rw [if_pos hslot]
  by_cases h1 : F.refs f = 1
  · rw [if_pos h1]
    have hfree : ∀ g, g ≠ f → (if pmmFreeMinPhys ≤ f then update F.free f true else F.free) g =
        F.free g := by
      intro g hgf
      split_ifs
      · exact update_of_ne hgf _ _
      · rfl
    refine ⟨fun g => ?_, fun g hg => ?_, h.slot_of hslot rfl hfree fun g hgf =>
      update_of_ne hgf _ _⟩
    · by_cases hgf : g = f
      · subst hgf
        simp only [update_self]
        omega
      · simpa only [update_of_ne hgf] using hother g hgf
    · by_cases hgf : g = f
      · exact hgf ▸ update_self ..
      · simp only [hfree g hgf, update_of_ne hgf] at hg ⊢
        exact h.free g hg
  · rw [if_neg h1, if_neg (by omega)]
    refine ⟨fun g => ?_, fun g hg => ?_, h.slot_of hslot rfl (fun _ _ => rfl) fun g hgf =>
      update_of_ne hgf _ _⟩
    · by_cases hgf : g = f
      · subst hgf
        simp only [update_self]
        omega
      · simpa only [update_of_ne hgf] using hother g hgf
    · have hgf : g ≠ f := by
        rintro rfl
        have := h.free g hg
        omega
      exact (update_of_ne hgf _ _).trans (h.free g hg)

theorem unrefs (h : Ledger F own (Q ++ P)) : Ledger (Q.foldl Frames.pageUnref F) own P := by
  induction Q generalizing F with
  | nil => exact h
  | cons f Q ih => exact ih h.pageUnref

variable (h : Ledger F own P)
include h

theorem not_free (hf : F.refs f ≠ 0) : F.free f = false :=
  Bool.eq_false_of_not_eq_true fun hn => hf (h.free f hn)

theorem refs_own (hf : f ∈ own) : F.refs f ≠ 0 := by
  have hpos := count_pos_iff.mpr hf
  rw [h.refs]
  omega

theorem refs_held (hf : F.held f ≠ 0) : F.refs f ≠ 0 := by
  rw [h.refs]
  omega

theorem perm (hp : own.Perm own') : Ledger F own' P :=
  ⟨fun f => by rw [h.refs, hp.count_eq], h.free, h.slot⟩

theorem setMem (page : Nat → PageCache.Byte) : Ledger (F.setMem f page) own P :=
  ⟨h.refs, h.free, h.slot⟩

theorem back (hf : F.held f ≠ 0) : Ledger (F.back f) own (f :: P) := by
  refine ⟨fun g => ?_, h.free, h.slot⟩
  have hg := h.refs g
  simp only [Frames.back, update_apply, count_cons_ite]
  by_cases he : g = f
  · subst he
    rw [if_pos rfl, if_pos rfl]
    omega
  · rw [if_neg he, if_neg he]
    omega

theorem pageRef (hf : F.refs f ≠ 0) (hr : F.refs f + 1 < 2 ^ 32) :
    Ledger (F.pageRef f) own (f :: P) := by
  have hslot := h.slot f (.inr hf)
  rw [Frames.pageRef, if_pos hslot]
  refine ⟨fun g => ?_, fun g hg => ?_, h.slot_of hslot rfl (fun _ _ => rfl) fun g hgf =>
    update_of_ne hgf _ _⟩
  · have hg := h.refs g
    simp only [Nat.mod_eq_of_lt hr, update_apply, count_cons_ite]
    by_cases he : g = f
    · subst he
      rw [if_pos rfl, if_pos rfl]
      omega
    · rw [if_neg he, if_neg he]
      omega
  · have hgf : g ≠ f := by
      rintro rfl
      exact hf (h.free g hg)
    exact (update_of_ne hgf _ _).trans (h.free g hg)

theorem take (hf : F.free f = true) :
    Ledger (Frames.fresh { F with free := update F.free f false } f) own (f :: P) ∧ f ∉ own := by
  have h0 := h.free f hf
  have hr := h.refs f
  have hslot := h.slot f (.inl hf)
  simp only [Frames.fresh, Frames.setMem, if_pos hslot]
  refine ⟨⟨fun g => ?_, fun g hg => ?_, h.slot_of hslot rfl (fun g hgf => update_of_ne hgf _ _)
    fun g hgf => update_of_ne hgf _ _⟩, count_eq_zero.mp (by omega)⟩
  · have hg := h.refs g
    simp only [update_apply, count_cons_ite]
    by_cases hgf : g = f
    · subst hgf
      rw [if_pos rfl, if_pos rfl]
      omega
    · rw [if_neg hgf, if_neg hgf]
      omega
  · have hgf : g ≠ f := by
      rintro rfl
      exact Bool.false_ne_true ((update_self ..).symm.trans hg)
    have hg' : F.free g = true := (update_of_ne hgf _ _).symm.trans hg
    exact (update_of_ne hgf _ _).trans (h.free g hg')

end Ledger

namespace Frames.Roomy
variable {F : Frames} {f : Nat} (h : F.Roomy)
include h

theorem of_le {F' : Frames} (hle : ∀ f, F'.refs f ≤ F.refs f ∨ F'.refs f = 1) : F'.Roomy := by
  intro f
  have hf := h f
  rcases hle f with hl | hl
  · omega
  · rw [hl]
    decide

theorem pageUnref : (F.pageUnref f).Roomy := by
  refine h.of_le fun g => .inl ?_
  unfold Frames.pageUnref
  split_ifs with hs h1 h0
  · by_cases hg : g = f
    · simp [hg]
    · simp [hg]
  · by_cases hg : g = f
    · simp [hg]
    · simp [hg]
  · exact le_refl _
  · by_cases hg : g = f
    · simp [hg]
    · simp [hg]
  · exact le_refl _

theorem unrefs (Q : List Nat) : (Q.foldl Frames.pageUnref F).Roomy := by
  induction Q generalizing F with
  | nil => exact h
  | cons f Q ih => exact ih h.pageUnref

theorem fresh : (F.fresh f).Roomy := by
  refine h.of_le fun g => ?_
  simp only [Frames.fresh, Frames.setMem]
  split_ifs
  · by_cases hg : g = f
    · exact .inr (by simp [hg])
    · exact .inl (by simp [hg])
  · exact .inl (le_refl _)

end Frames.Roomy

end Cervus.Pc
