import Mathlib.Data.Nat.Cast.Order.Basic
import Cervus.Mm.Heap

/-! The protection of the addresses of a range after `mm_protect`, in the mappings and in the
page tables. -/

namespace Cervus.Mm

open Cervus.Lib List

def vmmPresent : BitVec 64 := 1#64 <<< 0
def vmmWrite : BitVec 64 := 1#64 <<< 1
def vmmUser : BitVec 64 := 1#64 <<< 2
def vmmShared : BitVec 64 := 1#64 <<< 9
def vmmNoexec : BitVec 64 := 1#64 <<< 63

/-- The entries of the last level of the page tables, by page; `0` under an upper entry that is
not present. -/
abbrev Ptes := Nat → BitVec 64

def protCb (flags : BitVec 32) (e : BitVec 64) : BitVec 64 :=
  let n := if flags &&& vmWrite = 0 then e &&& ~~~vmmWrite
    else if flags &&& vmShared ≠ 0 ∨ e &&& vmmShared ≠ 0 then e ||| vmmWrite
    else e
  let n := if flags &&& vmExec ≠ 0 then n &&& ~~~vmmNoexec else n ||| vmmNoexec
  if flags &&& vmProtMask = 0 then n &&& ~~~vmmUser else n ||| vmmUser

def walkProt (a : Area) (t : Ptes) : Ptes := fun p =>
  if a.start ≤ p * pg ∧ p * pg < a.stop ∧ t p &&& vmmPresent ≠ 0 then protCb a.flags (t p) else t p

def PageOps.withProt (W : PageOps Ptes) : PageOps Ptes := { W with protect := walkProt }

structure Carries (flags : BitVec 32) (e : BitVec 64) : Prop where
  write : e &&& vmmWrite ≠ 0 → flags &&& vmWrite ≠ 0
  shared : flags &&& vmWrite ≠ 0 → flags &&& vmShared ≠ 0 ∨ e &&& vmmShared ≠ 0 → e &&& vmmWrite ≠ 0
  exec : e &&& vmmNoexec = 0 ↔ flags &&& vmExec ≠ 0
  user : e &&& vmmUser = 0 ↔ flags &&& vmProtMask = 0

/-! ## One entry -/

section Entry

variable {e : BitVec 64} {flags : BitVec 32}

theorem and_bit {i : Nat} (hi : i < 64) : e &&& 1#64 <<< i = 0 ↔ e.getLsbD i = false := by
  rw [← BitVec.twoPow_eq, BitVec.and_twoPow]
  split_ifs with hb
  · rw [hb]
    refine iff_of_false (fun hc => ?_) (by simp)
    have := congrArg (fun b => b.getLsbD i) hc
    simp [hi] at this
  · exact iff_of_true rfl (by simpa using hb)

theorem protCb_write : (protCb flags e).getLsbD 1 =
    if flags &&& vmWrite = 0 then false else if flags &&& vmShared ≠ 0 ∨
        e &&& vmmShared ≠ 0 then true else e.getLsbD 1 := by
  unfold protCb
  split_ifs <;> simp [vmmWrite, vmmNoexec, vmmUser]

theorem protCb_shared : (protCb flags e).getLsbD 9 = e.getLsbD 9 := by
  unfold protCb
  split_ifs <;> simp [vmmWrite, vmmNoexec, vmmUser]

theorem protCb_noexec : (protCb flags e).getLsbD 63 = decide (flags &&& vmExec = 0) := by
  unfold protCb
  split_ifs <;> simp_all [vmmWrite, vmmNoexec, vmmUser]

theorem protCb_user : (protCb flags e).getLsbD 2 = decide (flags &&& vmProtMask ≠ 0) := by
  unfold protCb
  split_ifs <;> simp_all [vmmWrite, vmmNoexec, vmmUser]

theorem carries_protCb : Carries flags (protCb flags e) := by
  refine ⟨fun h => ?_, fun hw hs => ?_, ?_, ?_⟩
  · rw [vmmWrite, ne_eq, and_bit (by decide), protCb_write] at h
    intro hc
    simp [hc] at h
  · have hshared : flags &&& vmShared ≠ 0 ∨ e &&& vmmShared ≠ 0 := by
      rw [vmmShared, ne_eq, ne_eq, and_bit (by decide), protCb_shared] at hs
      rwa [vmmShared, ne_eq, ne_eq, and_bit (by decide)]
    rw [vmmWrite, ne_eq, and_bit (by decide), protCb_write, if_neg hw, if_pos hshared]
    decide
  · rw [vmmNoexec, and_bit (by decide), protCb_noexec, decide_eq_false_iff_not]
  · rw [vmmUser, and_bit (by decide), protCb_user, decide_eq_false_iff_not, not_not]

theorem walkProt_inside {a : Area} {t : Ptes} {x : Nat} (ha : AreaOk a) (h1 : a.start ≤ x)
    (h2 : x < a.stop) (hp : walkProt a t (x / pg) &&& vmmPresent ≠ 0) :
    Carries a.flags (walkProt a t (x / pg)) := by
  have hin : a.start ≤ x / pg * pg ∧ x / pg * pg < a.stop := by
    obtain ⟨i, hi⟩ := ha.startAligned
    rw [show pg = 4096 from rfl] at hi ⊢
    omega
  unfold walkProt at hp ⊢
  by_cases hpres : t (x / pg) &&& vmmPresent ≠ 0
  · rw [if_pos ⟨hin.1, hin.2, hpres⟩]
    exact carries_protCb
  · rw [if_neg fun hc => hpres hc.2.2] at hp
    exact absurd hp hpres

theorem walkProt_outside {a : Area} {t : Ptes} {x : Nat} (ha : AreaOk a)
    (hx : x < a.start ∨ a.stop ≤ x) :
    walkProt a t (x / pg) = t (x / pg) := by
  refine if_neg fun hc => ?_
  obtain ⟨j, hj⟩ := ha.stopAligned
  have h1 := hc.1
  have h2 := hc.2.1
  rw [show pg = 4096 from rfl] at hj h1 h2
  omega

end Entry

/-! ## Protected addresses -/

def MmT.flagsAt (mm : MmT) (l : List Nat) (x : Nat) : Option (BitVec 32) :=
  look (fun a _ => a.flags) (mm.areas l) x

def HasProt (prot : BitVec 32) (s : St Ptes) (l : List Nat) (x : Nat) : Prop :=
  ∃ flags, s.mm.flagsAt l x = some flags ∧ flags &&& vmProtMask = prot &&& vmProtMask ∧
    (s.pages (x / pg) &&& vmmPresent ≠ 0 → Carries flags (s.pages (x / pg)))

def SameProt (s : St Ptes) (l : List Nat) (s' : St Ptes) (l' : List Nat) (x : Nat) : Prop :=
  s'.mm.flagsAt l' x = s.mm.flagsAt l x ∧ s'.pages (x / pg) = s.pages (x / pg)

structure Protected (prot : BitVec 32) (start stop : Nat) (s : St Ptes) (l : List Nat)
    (s' : St Ptes) (l' : List Nat) : Prop where
  inside : ∀ x, start ≤ x → x < stop → HasProt prot s' l' x
  outside : ∀ x, x < start ∨ stop ≤ x → SameProt s l s' l' x

structure Protects (prot : BitVec 32) (lo hi : Nat) (s : St Ptes) (l : List Nat) (s' : St Ptes)
    (l' : List Nat) : Prop where
  inside : ∀ x, lo ≤ x → x < hi → s.mm.flagsAt l x ≠ none → HasProt prot s' l' x
  outside : ∀ x, x < lo ∨ hi ≤ x → SameProt s l s' l' x

section Range

variable {prot : BitVec 32} {s s₁ s' : St Ptes} {l l₁ l' r : List Nat} {lo mid hi x : Nat}

theorem SameProt.trans (h : SameProt s l s₁ l₁ x) (h' : SameProt s₁ l₁ s' l' x) :
    SameProt s l s' l' x :=
  ⟨h'.1.trans h.1, h'.2.trans h.2⟩

theorem SameProt.hasProt_iff (h : SameProt s l s' l' x) :
    HasProt prot s' l' x ↔ HasProt prot s l x := by
  rw [HasProt, HasProt, h.1, h.2]

theorem Protects.empty (h : ∀ x, lo ≤ x → x < hi → s.mm.flagsAt l x = none) :
    Protects prot lo hi s l s l :=
  ⟨fun x h1 h2 hx => absurd (h x h1 h2) hx, fun _ _ => ⟨rfl, rfl⟩⟩

theorem Protects.trans (h : Protects prot lo mid s l s₁ l₁) (h' : Protects prot mid hi s₁ l₁ s' l')
    (h1 : lo ≤ mid) (h2 : mid ≤ hi) :
    Protects prot lo hi s l s' l' where
  inside x hx1 hx2 hx := by
    by_cases hm : x < mid
    · exact (h'.outside x (.inl hm)).hasProt_iff.mpr (h.inside x hx1 hm hx)
    · rw [not_lt] at hm
      refine h'.inside x hm hx2 ?_
      rwa [(h.outside x (.inr hm)).1]
  outside x hx := (h.outside x (by omega)).trans (h'.outside x (by omega))

theorem Protects.before (h : Protects prot lo hi s₁ l₁ s' l') (hs : ∀ x, SameProt s l s₁ l₁ x) :
    Protects prot lo hi s l s' l' where
  inside x h1 h2 hx := h.inside x h1 h2 (by rwa [(hs x).1])
  outside x hx := (hs x).trans (h.outside x hx)

theorem Protected.congr {start stop : Nat} (hs : ∀ x, SameProt s₁ l₁ s' l' x) :
    Protected prot start stop s l s' l' ↔ Protected prot start stop s l s₁ l₁ := by
  refine ⟨fun h => ⟨fun x h1 h2 => (hs x).hasProt_iff.mp (h.inside x h1 h2), fun x hx => ?_⟩,
    fun h => ⟨fun x h1 h2 => (hs x).hasProt_iff.mpr (h.inside x h1 h2), fun x hx =>
      (h.outside x hx).trans (hs x)⟩⟩
  exact ⟨(hs x).1.symm.trans (h.outside x hx).1, (hs x).2.symm.trans (h.outside x hx).2⟩

theorem Protects.protected_iff {start stop : Nat} (h : Protects prot start mid s l s' l')
    (h1 : start ≤ mid) (h2 : mid ≤ stop)
    (hcov : ∀ x, start ≤ x → x < stop → s.mm.flagsAt l x ≠ none) :
    Protected prot start stop s l s' l' ↔ ∀ x, mid ≤ x → x < stop → HasProt prot s l x := by
  constructor
  · intro hp x hx1 hx2
    exact (h.outside x (.inr hx1)).hasProt_iff.mp (hp.inside x (h1.trans hx1) hx2)
  · refine fun hrest => ⟨fun x hx1 hx2 => ?_, fun x hx => h.outside x (by omega)⟩
    by_cases hm : x < mid
    · exact h.inside x hx1 hm (hcov x hx1 hx2)
    · rw [not_lt] at hm
      exact (h.outside x (.inr hm)).hasProt_iff.mpr (hrest x hm hx2)

theorem flagsAt_between (hl : ∀ v ∈ l, (s.mm.area v).stop ≤ lo)
    (hr : ∀ v ∈ r, hi ≤ (s.mm.area v).start) (h1 : lo ≤ x) (h2 : x < hi) :
    s.mm.flagsAt (l ++ r) x = none := by
  refine look_eq_none (forall_areas.mpr fun v hv => decide_eq_false ?_)
  rcases mem_append.mp hv with hv | hv
  · have := hl v hv
    omega
  · have := hr v hv
    omega

theorem prot_and_mask (a b m : BitVec 32) : ((a &&& ~~~m) ||| (b &&& m)) &&& m = b &&& m := by
  ext i hi
  cases hm : m[i] <;> simp [hm]

theorem Cut.sameProt {W : PageOps Ptes} {fits : Prop} {v n at' : Nat} {mm' : MmT}
    (hc : Cut W fits s l v r at' mm' n) (h1 : (s.mm.area v).start < at')
    (h2 : at' < (s.mm.area v).stop) (x : Nat) :
    SameProt s (l ++ v :: r) { s with mm := mm' } (l ++ v :: n :: r) x := by
  refine ⟨?_, rfl⟩
  rw [MmT.flagsAt, MmT.flagsAt, hc.areas, areas_append, areas_cons]
  exact look_split h1 h2 rfl fun _ => rfl

end Range

/-! ## The loop -/

section Loop

variable {A : Allocator} {W : PageOps Ptes} {readonly : Nat → Bool} {prot : BitVec 32}
    {s s' : St Ptes} {l l' r : List Nat}
  {v : Nat} {rc : Int}

/-- One area gets the protection, and its pages with it. -/
theorem protectArea_protects (h : Listed s.mm (l ++ v :: r))
    (hf : protectArea W.withProt readonly prot s v = some (s', rc)) (hrc : ¬ rc < 0) :
    Protects prot (s.mm.area v).start (s.mm.area v).stop s (l ++ v :: r) s' (l ++ v :: r) ∧
      s'.mm.owned = s.mm.owned ∧
      ∀ x, (s'.mm.area x).start = (s.mm.area x).start ∧
      (s'.mm.area x).stop = (s.mm.area x).stop := by
  have hok := h.ord.area (v := v) (by simp)
  simp only [protectArea] at hf
  split_ifs at hf with hro
  · cases hf
    exact absurd (by decide) hrc
  cases hf
  generalize hfl : (s.mm.area v).flags &&& ~~~vmProtMask ||| prot &&& vmProtMask = flags
  have hok' : AreaOk { s.mm.area v with flags := flags } :=
    ⟨hok.nonempty, hok.startAligned, hok.stopAligned, hok.low, hok.top⟩
  have hareas : (s.mm.setArea v { s.mm.area v with flags := flags }).areas (l ++ v :: r) = _ :=
    areas_setArea h.nodup
  have ho := h.ord
  rw [areas_append, areas_cons] at ho
  have ho' : Ordered (s.mm.areas l ++ { s.mm.area v with flags := flags } :: s.mm.areas r) :=
    ho.replace rfl hok'
    (ordered_cons.mp (ordered_append.mp ho).2.1).2.2
  refine ⟨⟨fun x h1 h2 _ => ⟨flags, ?_, ?_, walkProt_inside hok' h1 h2⟩, fun x hx =>
    ⟨?_, walkProt_outside hok' hx⟩⟩, rfl, fun x => ?_⟩
  · rw [MmT.flagsAt, hareas]
    exact look_eq_some (f := fun a _ => a.flags) ho' (mem_append_right _ mem_cons_self)
      (decide_eq_true ⟨h1, h2⟩)
  · rw [← hfl, prot_and_mask]
  · rw [MmT.flagsAt, hareas, MmT.flagsAt, areas_append, areas_cons]
    refine look_replace rfl fun hin => ?_
    have := of_decide_eq_true hin
    omega
  · rw [area_setArea]
    split_ifs with hx
    · rw [hx]
      exact ⟨rfl, rfl⟩
    · exact ⟨rfl, rfl⟩

inductive Reached (A : Allocator) (prot : BitVec 32) (owned : List Nat) (areas : List Area)
    (lo stop : Nat) (s : St Ptes) (l : List Nat) (s' : St Ptes) (l' : List Nat) : Prop
  | all (h : Protects prot lo stop s l s' l') (hcut : lo < stop → ∀ a ∈ areas, a.start < stop →
    stop < a.stop → A.pick owned ≠ none)
  | upTo {a : Area} (ha : a ∈ areas) (h1 : a.start < stop) (h2 : stop < a.stop)
    (hp : A.pick owned = none)
      (h : Protects prot lo (max lo a.start) s l s' l')

variable {c start stop : Nat} {owned : List Nat}

/-- The loop over the areas protects all up to the end or up to a failed cut. -/
theorem Passed.reached {lo : Nat}
    (hp : Passed A (protectArea W.withProt readonly prot) stop s l r s' l' rc) (ha : pg ∣ stop)
    (h : Listed s.mm (l ++ r)) (hle : lo ≤ stop) (hl : ∀ x ∈ l, (s.mm.area x).stop ≤ lo)
    (hr : ∀ x ∈ r, lo ≤ (s.mm.area x).start) (hrc : ¬ rc < 0) :
    Reached A prot s.mm.owned (s.mm.areas (l ++ r)) lo stop s (l ++ r) s' l' := by
  induction hp generalizing lo with
  | @done s l r hdone =>
    refine .all (.empty fun x h1 h2 => flagsAt_between hl hdone h1 h2) fun _ =>
      forall_areas.mpr fun v hv h1 h2 => ?_
    rcases mem_append.mp hv with hv | hv
    · have := hl v hv
      omega
    · have := hdone v hv
      omega
  | @stuck s l r v h1 h2 hp =>
    refine .upTo (mem_map_of_mem (by simp)) h1 h2 hp
      (.empty fun x hx1 hx2 => flagsAt_between hl (fun w hw => ?_) hx1 hx2)
    rw [max_eq_right (hr v (by simp))]
    exact h.ord.from_start (le_refl _) w hw
  | @cut s s' l r l' v n mm rc h1 h2 hs hn hp ih =>
    have hc := cut_of_split W False h h1 h2 ha hs hn
    have hl' := forall_of_areas_eq (fun a => a.stop ≤ lo) hc.left hl
    have hcut (w : Nat) (hw : w ∈ v :: n :: r) : lo ≤ (mm.area w).start ∧
        ((mm.area w).stop ≤ stop ∨ stop ≤ (mm.area w).start) := by
      rcases mem_cons.mp hw with rfl | hw
      · rw [hc.below]
        exact ⟨hr w (by simp), .inl (le_refl stop)⟩
      · have := hc.from_start h w hw
        exact ⟨hle.trans this, .inr this⟩
    cases ih (hc.sim.listed h) hle hl' (fun w hw => (hcut w hw).1) hrc with
    | all hP _ =>
      refine .all (hP.before (hc.sameProt h1 h2)) fun _ a _ _ _ => ?_
      rw [vmaSplit_pick hs, if_neg hn]
      exact Option.some_ne_none _
    | upTo hm h3 h4 =>
      -- nothing reaches over the end any more
      obtain ⟨w, hw, rfl⟩ := mem_map.mp hm
      dsimp only at h3 h4
      rcases mem_append.mp hw with hw | hw
      · have := hl' w hw
        omega
      · have := (hcut w hw).2
        omega
  | failed h1 h2 hf hneg => exact absurd hneg hrc
  | @next s s₁ s' l r l' v rc₁ rc h1 h2 hf hpos hp ih =>
    obtain ⟨hP, hown, hkeep⟩ := protectArea_protects h hf hpos
    have hsim := (protectArea_changer W.withProt False readonly prot).of_some h hf
    have hlv := hr v (by simp)
    have hne := (h.ord.area (v := v) (by simp)).nonempty
    have hfirst : Protects prot lo (s.mm.area v).stop s (l ++ v :: r) s₁ (l ++ v :: r) :=
      Protects.trans (.empty fun x h3 h4 => flagsAt_between hl (h.ord.from_start (le_refl _)) h3 h4)
        hP hlv hne.le
    have h' := hsim.listed h
    rw [append_cons] at h' hfirst
    have hl' (w : Nat) (hw : w ∈ l ++ [v]) : (s₁.mm.area w).stop ≤ (s.mm.area v).stop := by
      rw [(hkeep w).2]
      rcases mem_append.mp hw with hw | hw
      · exact (hl w hw).trans (hlv.trans hne.le)
      · rw [mem_singleton.mp hw]
    have hr' (w : Nat) (hw : w ∈ r) : (s.mm.area v).stop ≤ (s₁.mm.area w).start := by
      rw [(hkeep w).1]
      exact h.ord.behind w hw
    rw [append_cons]
    -- what reaches over the end is still to come
    have hlate (w : Nat) (hw : w ∈ l ++ [v] ++ r) (hw2 : stop < (s₁.mm.area w).stop) : w ∈ r := by
      refine (mem_append.mp hw).resolve_left fun hw => ?_
      have := hl' w hw
      omega
    cases ih h' h2 hl' hr' hrc with
    | all hQ hcut =>
      refine .all (hfirst.trans hQ (hlv.trans hne.le) h2) fun _ =>
        forall_areas.mpr fun w hw h3 h4 => ?_
      rw [← (hkeep w).1] at h3
      rw [← (hkeep w).2] at h4
      have := hr' w (hlate w hw h4)
      rw [← hown]
      exact hcut (by omega) _ (mem_map_of_mem hw) h3 h4
    | upTo hm h3 h4 hp hQ =>
      obtain ⟨w, hw, rfl⟩ := mem_map.mp hm
      have hstart := hr' w (hlate w hw h4)
      rw [hown] at hp
      rw [max_eq_right hstart] at hQ
      rw [(hkeep w).1] at h3 hstart hQ
      rw [(hkeep w).2] at h4
      refine .upTo (mem_map_of_mem hw) h3 h4 hp ?_
      rw [max_eq_right (by omega)]
      exact hfirst.trans hQ (by omega) hstart

def cutOwned (A : Allocator) (owned : List Nat) (areas : List Area) (at' : Nat) :
    Option (List Nat) :=
  if ∃ a ∈ areas, a.start < at' ∧ at' < a.stop then (A.pick owned).map (· :: owned) else some owned

/-- A cut at an end of the range fails, and something behind it does not have the protection yet. -/
inductive Lost (A : Allocator) (prot : BitVec 32) (s : St Ptes) (l : List Nat) (start stop : Nat) :
    Prop
  | first {x : Nat} (hcut : cutOwned A s.mm.owned (s.mm.areas l) start = none) (h1 : start ≤ x)
    (h2 : x < stop)
      (hx : ¬ HasProt prot s l x)
  | last {owned : List Nat} {a : Area} {x : Nat}
    (hcut : cutOwned A s.mm.owned (s.mm.areas l) start = some owned)
      (ha : a ∈ s.mm.areas l) (h1 : a.start < stop) (h2 : stop < a.stop) (hp : A.pick owned = none)
        (h3 : start ≤ x)
      (h4 : a.start ≤ x) (h5 : x < stop) (hx : ¬ HasProt prot s l x)

theorem Reached.iff_not_lost (h : Reached A prot owned (s.mm.areas l) start stop s l s' l')
    (ho : Ordered (s.mm.areas l)) (hle : start ≤ stop)
    (hcut : cutOwned A s.mm.owned (s.mm.areas l) start = some owned)
    (hcov : ∀ x, start ≤ x → x < stop → s.mm.flagsAt l x ≠ none) :
    Protected prot start stop s l s' l' ↔ ¬ Lost A prot s l start stop := by
  cases h with
  | all hP hno =>
    refine iff_of_true ((hP.protected_iff hle le_rfl hcov).mpr fun x h1 h2 =>
      absurd h1 (not_le.mpr h2)) ?_
    rintro (⟨hnone, -⟩ | @⟨owned', a, x, hsome, ha, h1, h2, hp, h3, -, h5, -⟩)
    · rw [hcut] at hnone
      exact Option.some_ne_none _ hnone
    · obtain rfl : owned = owned' := Option.some.inj (hcut.symm.trans hsome)
      exact hno (h3.trans_lt h5) a ha h1 h2 hp
  | @upTo a ha h1 h2 hp hP =>
    rw [hP.protected_iff (le_max_left _ _) (max_le hle h1.le) hcov]
    constructor
    · rintro hrest (⟨hnone, -⟩ | @⟨owned', b, x, hsome, hb, h3, h4, -, h5, h6, h7, hx⟩)
      · rw [hcut] at hnone
        exact Option.some_ne_none _ hnone
      · obtain rfl : a = b := ho.eq_of_holds (x :=
          stop) ha hb (decide_eq_true ⟨h1.le, h2⟩) (decide_eq_true ⟨h3.le, h4⟩)
        exact hx (hrest x (max_le h5 h6) h7)
    · intro hno x hx1 hx2
      by_contra hx
      exact hno (.last hcut ha h1 h2 hp ((le_max_left _ _).trans hx1)
        ((le_max_right _ _).trans hx1) hx2 hx)

theorem Reached.before_cut {areas areas' : List Area} {a : Area} {s₁ : St Ptes} {l₁ : List Nat}
    (h : Reached A prot owned areas' start stop s₁ l₁ s' l') (hs : ∀ x, SameProt s l s₁ l₁ x)
    (ha : a ∈ areas) (h1 : a.start < start) (habove : a.above start ∈ areas')
    (hkept : ∀ b ∈ areas, b ≠ a → b ∈ areas')
    (hfrom : ∀ b ∈ areas', b = a.below start ∨ b = a.above start ∨ b ∈ areas) (hle : start ≤ stop) :
    Reached A prot owned areas start stop s l s' l' := by
  cases h with
  | all hP hno =>
    refine .all (hP.before hs) fun hlt b hb h3 h4 => ?_
    by_cases hba : b = a
    · exact hno hlt _ habove hlt (by rw [hba] at h4; exact h4)
    · exact hno hlt b (hkept b hb hba) h3 h4
  | @upTo b hb h3 h4 hp hP =>
    rcases hfrom b hb with rfl | rfl | hb
    · exact absurd h4 (not_lt.mpr hle)
    · refine .upTo ha (h1.trans_le hle) h4 hp ?_
      rw [max_eq_left h1.le]
      rw [show (a.above start).start = start from rfl, max_self] at hP
      exact hP.before hs
    · exact .upTo hb h3 h4 hp (hP.before hs)

/-- The whole call, which begins with a cut at the start of the range. -/
theorem Entered.iff_not_lost
    (he : Entered A (protectArea W.withProt readonly prot) start stop s l r s' l' rc)
    (hrc : ¬ rc < 0) (hs : pg ∣ start) (ha : pg ∣ stop) (hle : start ≤ stop)
    (h : Listed s.mm (l ++ r)) (h1 : ∀ x ∈ l, (s.mm.area x).stop ≤ start)
    (hcov : ∀ x, start ≤ x → x < stop → s.mm.flagsAt (l ++ r) x ≠ none) :
    Protected prot start stop s (l ++ r) s' l' ↔ ¬ Lost A prot s (l ++ r) start stop := by
  cases he with
  | within hr hp =>
    refine (hp.reached ha h hle h1 hr hrc).iff_not_lost h.ord hle (if_neg ?_) hcov
    rintro ⟨a, hm, h3, h4⟩
    obtain ⟨w, hw, rfl⟩ := mem_map.mp hm
    rcases mem_append.mp hw with hw | hw
    · have := h1 w hw
      omega
    · have := hr w hw
      omega
  | @stuck _ r v h3 h4 hp =>
    have hcut : cutOwned A s.mm.owned (s.mm.areas (l ++ v :: r)) start = none := by
      rw [cutOwned, if_pos ⟨_, mem_map_of_mem (by simp), h3, h4⟩, hp]
      rfl
    rw [(Protects.empty fun x hx1 hx2 => absurd hx1 (not_le.mpr hx2)).protected_iff le_rfl hle hcov]
    constructor
    · rintro hall (⟨-, h5, h6, hx⟩ | ⟨hsome, -⟩)
      · exact hx (hall _ h5 h6)
      · rw [hcut] at hsome
        exact (nomatch hsome)
    · intro hno x h5 h6
      by_contra hx
      exact hno (.first hcut h5 h6 hx)
  | @cut _ _ r _ v n mm _ h3 h4 hsp hn hp =>
    have hc := cut_of_split W False h h3 h4 hs hsp hn
    have h' := hc.sim.listed h
    have hreach : Reached A prot (n :: s.mm.owned)
      (mm.areas (l ++ v :: n :: r)) start stop { s with mm := mm }
        (l ++ v :: n :: r) s' l' := by
      rw [append_cons l v (n :: r)] at h' ⊢
      rw [← hc.owned]
      exact hp.reached ha h' hle (hc.up_to h1) (hc.from_start h) hrc
    have hmem : s.mm.area v ∈ s.mm.areas (l ++ v :: r) := mem_map_of_mem (by simp)
    refine (hreach.before_cut (hc.sameProt h3 h4) hmem h3 ?_ ?_ ?_ hle).iff_not_lost h.ord hle ?_
      hcov
    · rw [hc.areas]
      simp
    · rw [hc.areas, areas_append, areas_cons]
      intro b hb hne
      simp only [mem_append, mem_cons] at hb ⊢
      tauto
    · rw [hc.areas, areas_append, areas_cons]
      intro b hb
      simp only [mem_append, mem_cons] at hb ⊢
      tauto
    · rw [cutOwned, if_pos ⟨_, hmem, h3, h4⟩, vmaSplit_pick hsp, if_neg hn]
      rfl

theorem Protected.cache :
    Protected prot start stop { s with mm := { s.mm with vcache := c } } l s' l' ↔
      Protected prot start stop s l s' l' :=
  ⟨fun h => ⟨h.inside, h.outside⟩, fun h => ⟨h.inside, h.outside⟩⟩

theorem Lost.cache :
    Lost A prot { s with mm := { s.mm with vcache := c } } l start stop ↔
      Lost A prot s l start stop := by
  constructor <;>
  · rintro (⟨hcut, h1, h2, hx⟩ | ⟨hcut, ha, h1, h2, hp, h3, h4, h5, hx⟩)
    · exact .first hcut h1 h2 hx
    · exact .last hcut ha h1 h2 hp h3 h4 h5 hx

/-- A call that returns `0` has protected the range exactly when nothing was lost to a failed
cut. -/
theorem protect_iff (A : Allocator) (W : PageOps Ptes) (readonly : Nat → Bool) (h : Rep s.mm l)
    (ho : Ordered (s.mm.areas l)) {addr : Nat} (hal : pg ∣ addr) (len : Nat) (prot : BitVec 32) :
    ∃ s' rc l', mmProtect A W.withProt readonly s addr len prot = some (s', rc) ∧ Rep s'.mm l' ∧
      (rc = 0 → (Protected prot addr (addr + pup len) s l s' l' ↔
      ¬ Lost A prot s l addr (addr + pup len))) := by
  have hup : pup len < 2 ^ 64 := by
    simp only [pup, pdown, add64, pg]
    omega
  simp only [mmProtect]
  rw [if_neg (not_not.mpr (Nat.mod_eq_zero_of_dvd hal))]
  by_cases hlen : len = 0
  · rw [if_pos hlen]
    refine ⟨s, 0, l, rfl, h, fun _ => ?_⟩
    have hzero : pup len = 0 := by rw [hlen]; rfl
    rw [hzero, add_zero]
    refine iff_of_true ⟨fun x h1 h2 => absurd h1 (not_le.mpr h2), fun _ _ => ⟨rfl, rfl⟩⟩ ?_
    rintro (⟨-, h1, h2, -⟩ | ⟨-, -, -, -, -, h1, -, h2, -⟩)
    · omega
    · omega
  rw [if_neg hlen]
  by_cases hrange : add64 addr (pup len) < addr ∨ add64 addr (pup len) > userTop
  · rw [if_pos hrange]
    exact ⟨s, einval, l, rfl, h, fun hc => absurd hc (by decide)⟩
  rw [if_neg hrange]
  rw [not_or, not_lt] at hrange
  have hstop : add64 addr (pup len) = addr + pup len := by
    have := hrange.1
    simp only [add64] at this ⊢
    omega
  rw [hstop] at hrange ⊢
  obtain ⟨s', rc, l', he, hsim, hran⟩ := changeRange_spec A W.withProt False
    (fun fits => protectArea_changer W.withProt fits readonly prot)
    hrange.1 hal (hstop ▸ pg_dvd_add64 hal (pg_dvd_pup len)) ⟨h, ho⟩
  refine ⟨s', rc, l', he, hsim.rep, fun hrc => ?_⟩
  cases hran with
  | hole => exact absurd hrc (by decide)
  | failed _ _ hneg => omega
  | @done c l₁ l₂ l₃ s₁ rc₁ hcov hl h1 h2 hrep hent hpos hpages hflags =>
    subst hl
    have hcov' : ∀ x, addr ≤ x → x < addr + pup len → s.mm.flagsAt (l₁ ++ l₂) x ≠ none := by
      intro x hx1 hx2
      obtain ⟨v, hv, hx⟩ := hcov x hx1 hx2
      rw [MmT.flagsAt, look_eq_some ho (mem_map_of_mem hv) hx]
      exact Option.some_ne_none _
    have hiff := hent.iff_not_lost (s := { s with mm := { s.mm with vcache := c } }) hpos hal
      (hstop ▸ pg_dvd_add64 hal (pg_dvd_pup len)) hrange.1 ⟨hrep, ho⟩ h1 hcov'
    rw [Protected.congr fun x => ⟨hflags x, by rw [hpages]⟩, ← Protected.cache (c := c),
      ← Lost.cache (c := c)]
    exact hiff

end Loop

def twoPages : St Ptes := ⟨single (heapArea 0x400000 0x402000) 0, fun _ => 0⟩

def noTables : PageOps Ptes where
  zap _ _ _ p := p
  protect _ p := p
  prepare _ _ p := some p
  move _ _ _ p := p
  settled _ _ _ := true
  fault _ _ _ p := (p, 0)
  fork _ p := (p, true)

def noMemory : Allocator where
  pick _ := none
  grow _ := false
  fresh := by rintro _ _ ⟨⟩

/-- The mapping is cut, and its second page protected. -/
theorem protect_iff_twoPages : ∃ s' l',
    mmProtect nextObject noTables.withProt (fun _ => false) twoPages 0x401000 0x1000 vmRead =
      some (s', 0) ∧
    Rep s'.mm l' ∧ Protected vmRead 0x401000 0x402000 twoPages [1] s' l' := by
  obtain ⟨s', rc, l', he, hrep, hiff⟩ := protect_iff (s := twoPages) nextObject noTables
    (fun _ => false) (single_rep _ 0)
    (single_ordered ⟨by decide, by decide, by decide, by decide, by decide⟩ 0)
    (show pg ∣ 0x401000 by decide) 0x1000 vmRead
  have hrc : (mmProtect nextObject noTables.withProt (fun _ => false) twoPages 0x401000 0x1000
      vmRead).map Prod.snd = some 0 := by rfl
  rw [he] at hrc
  obtain rfl : rc = 0 := Option.some.inj hrc
  refine ⟨s', l', he, hrep, (hiff rfl).mpr ?_⟩
  rintro (⟨hcut, -⟩ | ⟨hcut, ha, h1, h2, hp, -⟩)
  · exact absurd hcut (by decide)
  · rw [mem_singleton.mp ha] at h2
    exact absurd h2 (by decide)

/-- Without memory to cut the mapping, the second page stays writable, and the call returns `0`. -/
theorem protect_not_applied :
    ∃ s', mmProtect noMemory noTables.withProt (fun _ => false) twoPages 0x401000 0x1000 vmRead =
      some (s', 0) ∧
    s'.mm.flagsAt [1] 0x401000 = some (vmRead ||| vmWrite ||| vmHeap) ∧
    ∀ l', ¬ Protected vmRead 0x401000 0x402000 twoPages [1] s' l' := by
  refine ⟨{ twoPages with mm := { twoPages.mm with vcache := 1 } },
    by rfl, by decide, fun l' hp => ?_⟩
  obtain ⟨flags, hat, hmask, -⟩ := hp.inside 0x401000 (le_refl _) (by decide)
  obtain ⟨a, ha, rfl⟩ := Option.map_eq_some_iff.mp hat
  obtain ⟨v, -, rfl⟩ := mem_map.mp (mem_of_find?_eq_some ha)
  exact absurd hmask (show ¬ (vmRead ||| vmWrite ||| vmHeap) &&& vmProtMask = vmRead &&&
    vmProtMask by decide)

end Cervus.Mm
