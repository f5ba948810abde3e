import Mathlib.Data.Finset.Card
import Cervus.Net.Ip

/-! What the reassembly slots hold, over every run. -/

namespace Cervus.Net

open List Option Prod
open Function (update update_idem update_of_ne update_self)

namespace Piece

def stop (q : Piece) : Nat := q.off + q.data.length

def Covers (q : Piece) (p : Nat) : Prop := q.off ≤ p ∧ p < q.stop

def HasUnit (q : Piece) (u : Nat) : Prop := q.off / 8 ≤ u ∧ u < (q.stop + 7) / 8

def byteAt (q : Piece) (p : Nat) : Byte := q.data.getD (p - q.off) 0

end Piece

/-- The bytes of `[0, len)` all come from the pieces. -/
def NoHoles (pieces : List Piece) (buf : Nat → Byte) (len : Nat) : Prop :=
  ∀ p < len, ∃ q ∈ pieces, q.Covers p ∧ buf p = q.byteAt p

/-- No piece reaches beyond the last unit of `[0, len)`. -/
def Within (pieces : List Piece) (len : Nat) : Prop :=
  ∀ q ∈ pieces, (q.stop + 7) / 8 ≤ (len + 7) / 8

def Marks (f : Slot) (s : Finset Nat) : Prop := f.filled = s.card ∧ ∀ u, f.bmap u = true ↔ u ∈ s

/-- A slot whose buffer is `buf`. -/
structure SlotOk (f : Slot) (buf : Nat → Byte) : Prop where
  marks : ∃ s, Marks f s
  marked : ∀ u, f.bmap u = true ↔ ∃ q ∈ f.pieces, q.HasUnit u
  aligned : ∀ q ∈ f.pieces, 8 ∣ q.off
  size : ∀ q ∈ f.pieces, 8 ∣ q.data.length ∧ 0 < q.data.length ∨ q.stop = f.total ∨ q.stop = 0
  keys : ∀ q ∈ f.pieces, q.key = f.key
  bytes : ∀ p, f.bmap (p / 8) = true → (f.total = 0 ∨ p < f.total) →
    ∃ q ∈ f.pieces, q.Covers p ∧ buf p = q.byteAt p
  top : f.total ≤ fragMaxlen

variable {f : Slot} {s : Finset Nat} {buf : Nat → Byte} {h : Header} {S : Frags} {i : Fin fragSlots}

theorem Marks.fill (h : Marks f s) (u : Nat) (hu : f.bmap u = false) :
    Marks { f with bmap := update f.bmap u true, filled := f.filled + 1 } (insert u s) := by
  have hns : u ∉ s := fun hm => by simp [(h.2 u).mpr hm] at hu
  refine ⟨by simp [h.1, Finset.card_insert_of_notMem hns], fun v => ?_⟩
  by_cases hv : v = u
  · simp [hv]
  · simp [hv, h.2 v]

/-- The loop marks the units of the fragment and copies those not marked before. -/
theorem fillLoop_spec {off : Nat} {data : List Byte} (n u : Nat) (hu : off ≤ u * 8)
    (hn : u + n ≤ (off + data.length + 7) / 8) (hlen : off + data.length ≤ fragMaxlen)
    (hb : f.buf = some buf) (hm : Marks f s) :
    ∃ bmap' filled' buf', fillLoop off data n u f =
        some { f with bmap := bmap', filled := filled', buf := some buf' } ∧
      (∀ v, bmap' v = true ↔ f.bmap v = true ∨ (u ≤ v ∧ v < u + n)) ∧
      (∃ s', Marks { f with bmap := bmap', filled := filled' } s') ∧
      ∀ p, buf' p = if (u ≤ p / 8 ∧ p / 8 < u + n) ∧ f.bmap (p / 8) = false ∧ p < off + data.length
        then data.getD (p - off) 0 else buf p := by
  induction n generalizing u f buf s with
  | zero =>
    refine ⟨f.bmap, f.filled, buf, by simp [fillLoop, ← hb], fun v => ?_, ⟨s, hm⟩, fun p => ?_⟩
    · have : ¬ (u ≤ v ∧ v < u + 0) := by omega
      simp only [this, or_false]
    · rw [if_neg (by omega)]
  | succ n ih =>
    have hbound : ¬ fragBmap ≤ u / 8 := by
      simp only [fragBmap, fragUnits, fragMaxlen] at hlen ⊢
      omega
    have hrest : ∀ v ≠ u, (u + 1 ≤ v ∧ v < u + 1 + n) = (u ≤ v ∧ v < u + (n + 1)) :=
      fun v hv => propext (by omega)
    rw [fillLoop, fillUnit, if_neg hbound]
    split_ifs with hset
    · obtain ⟨bmap', filled', buf', he, hbm, hms, hby⟩ := ih (u + 1) (by omega) (by omega) hb hm
      refine ⟨bmap', filled', buf', he, fun v => ?_, hms, fun p => ?_⟩
      · rw [hbm]
        by_cases hv : v = u
        · simp [hv, hset]
        · rw [hrest v hv]
      · rw [hby]
        by_cases hp : p / 8 = u
        · simp [hp, hset]
        · simp only [hrest _ hp]
    · rw [hb]
      have hclear : f.bmap u = false := by simpa using hset
      have hstop : ¬ fragMaxlen < min (u * 8 + 8) (off + data.length) := by omega
      simp only [if_neg hstop, bind_eq_bind, bind_some, max_eq_left hu]
      obtain ⟨bmap', filled', buf', he, hbm, hms, hby⟩ :=
        ih (f := { f with
              bmap := update f.bmap u true
              filled := f.filled + 1
              buf := some fun p => if u * 8 ≤ p ∧ p < min (u * 8 + 8) (off + data.length)
                then data.getD (p - off) 0 else buf p }) (u + 1) (by omega) (by omega) rfl
                  (hm.fill u hclear)
      refine ⟨bmap', filled', buf', he, fun v => ?_, hms, fun p => ?_⟩
      · rw [hbm]
        by_cases hv : v = u
        · simp [hv]
        · rw [hrest v hv]
          simp [update_of_ne hv]
      · rw [hby]
        by_cases hp : p / 8 = u
        · have h1 : ¬ (u + 1 ≤ p / 8 ∧ p / 8 < u + 1 + n) := by omega
          have h2 : (u * 8 ≤ p ∧ p < min (u * 8 + 8) (off + data.length)) ↔
              p < off + data.length := by
            omega
          rw [if_neg fun hc => h1 hc.1]
          by_cases hin : p < off + data.length
          · rw [if_pos (h2.mpr hin), if_pos ⟨by omega, by rw [hp]; exact hclear, hin⟩]
          · rw [if_neg fun hc => hin (h2.mp hc), if_neg fun hc => hin hc.2.2]
        · have h2 : ¬ (u * 8 ≤ p ∧ p < min (u * 8 + 8) (off + data.length)) := by omega
          simp only [hrest _ hp, h2, update_of_ne hp, if_false]

theorem noteFirst_spec (f : Slot) (pkt : List Byte) (hi : h.ihl ≤ 60) :
    ∃ first hdr, noteFirst f h pkt = some { f with haveFirst := first, firstHdr := hdr } := by
  unfold noteFirst
  split_ifs with hf
  · exact ⟨true, _, by rw [if_neg (by simp only [firstHdrSize]; omega)]⟩
  · exact ⟨f.haveFirst, f.firstHdr, rfl⟩

/-- Adding a fragment keeps the slot. -/
theorem SlotOk.add (h : SlotOk f buf) (hb : f.buf = some buf)
    (off : Nat) (data : List Byte) (total : Nat) (first : Bool) (hdr : List Byte)
    (hoff : 8 ∣ off) (hlen : off + data.length ≤ fragMaxlen)
    (htotal : total = f.total ∧ 8 ∣ data.length ∧ 0 < data.length ∨
      total = off + data.length ∧ (f.total = 0 ∨ f.total = total)) : ∃ f' buf', bmapFill { f with
          haveFirst := first
          firstHdr := hdr
          total := total
          pieces := ⟨f.key, off, data⟩ :: f.pieces } off data = some f' ∧
      SlotOk f' buf' ∧ f'.buf = some buf' ∧ f'.used = f.used ∧ f'.key = f.key ∧
      f'.total = total ∧ f'.pieces = ⟨f.key, off, data⟩ :: f.pieces := by
  obtain ⟨s, hs⟩ := h.marks
  obtain ⟨bmap', filled', buf', he, hbm, hms, hby⟩ :=
    fillLoop_spec (f := { f with
          haveFirst := first
          firstHdr := hdr
          total := total
          pieces := ⟨f.key, off, data⟩ :: f.pieces })
      ((off + data.length + 7) / 8 - off / 8) (off / 8) (by omega) (by omega) hlen hb hs
  have hadd : off / 8 + ((off + data.length + 7) / 8 - off / 8) = (off + data.length + 7) / 8 := by
    omega
  rw [hadd] at hbm hby
  refine ⟨_, buf', he, ⟨hms, fun u => ?_, ?_, ?_, ?_, fun p hp ht => ?_, ?_⟩, rfl, rfl, rfl, rfl,
    rfl⟩
  · rw [hbm u]
    simp only [mem_cons, exists_eq_or_imp, h.marked u]
    exact or_comm
  · intro q hq
    rcases mem_cons.mp hq with rfl | hq
    · exact hoff
    · exact h.aligned q hq
  · intro q hq
    rcases mem_cons.mp hq with rfl | hq
    · rcases htotal with ⟨-, hd⟩ | ⟨ht, -⟩
      · exact .inl hd
      · exact .inr (.inl ht.symm)
    · rcases h.size q hq with hd | hst | h0
      · exact .inl hd
      · rcases htotal with ⟨ht, -⟩ | ⟨ht, h0 | h0⟩
        · exact .inr (.inl (hst.trans ht.symm))
        · exact .inr (.inr (hst.trans h0))
        · exact .inr (.inl (hst.trans h0))
      · exact .inr (.inr h0)
  · intro q hq
    rcases mem_cons.mp hq with rfl | hq
    · rfl
    · exact h.keys q hq
  · simp only [hby]
    by_cases hold : f.bmap (p / 8) = true
    · -- the unit was there already, and its bytes stay
      have hold' : f.total = 0 ∨ p < f.total := by
        rcases htotal with ⟨he, -⟩ | ⟨-, h0 | he⟩
        · rwa [← he]
        · exact .inl h0
        · rwa [he]
      obtain ⟨q, hq, hc, hv⟩ := h.bytes p hold hold'
      refine ⟨q, mem_cons_of_mem _ hq, hc, ?_⟩
      simp only [hold, Bool.true_eq_false, false_and, and_false, if_false]
      exact hv
    · have hnew : off / 8 ≤ p / 8 ∧ p / 8 < (off + data.length + 7) / 8 :=
        ((hbm _).mp hp).resolve_left hold
      have hin : p < off + data.length := by
        rcases htotal with ⟨-, hd, -⟩ | ⟨he, -⟩
        · omega
        · rcases ht with h0 | hlt
          · simp only at h0
            omega
          · simp only at hlt
            omega
      refine ⟨_, mem_cons_self .., ⟨?_, hin⟩, ?_⟩
      · show off ≤ p
        omega
      · rw [if_pos ⟨hnew, by simpa using hold, hin⟩]
        rfl
  · rcases htotal with ⟨he, -⟩ | ⟨he, -⟩
    · exact he ▸ h.top
    · exact he ▸ hlen

/-- A slot with all units filled has no hole exactly when no fragment goes past its end. -/
theorem SlotOk.noHoles_iff (h : SlotOk f buf) (hf : f.filled = (f.total + 7) / 8) :
    NoHoles f.pieces buf f.total ↔ Within f.pieces f.total := by
  obtain ⟨s, hcard, hs⟩ := h.marks
  rw [hf] at hcard
  constructor
  · intro hno q hq
    -- the units of the total are all marked, so there are no others
    have hsub : Finset.range ((f.total + 7) / 8) ⊆ s := by
      intro u hu
      rw [Finset.mem_range] at hu
      obtain ⟨q, hq, hc, -⟩ := hno (u * 8) (by omega)
      refine (hs u).mp ((h.marked u).mpr ⟨q, hq, ?_, ?_⟩)
      · have := hc.1
        omega
      · have := hc.2
        omega
    have heq := Finset.eq_of_subset_of_card_le hsub (by simp [← hcard])
    by_contra hlt
    have hmem : (q.stop + 7) / 8 - 1 ∈ s := by
      refine (hs _).mp ((h.marked _).mpr ⟨q, hq, ?_, by omega⟩)
      have : q.stop = q.off + q.data.length := rfl
      rcases h.size q hq with ⟨hd, hpos⟩ | hst | h0
      · omega
      · rw [hst] at hlt
        omega
      · omega
    rw [← heq, Finset.mem_range] at hmem
    omega
  · intro hw p hp
    have hsub : s ⊆ Finset.range ((f.total + 7) / 8) := by
      intro u hu
      obtain ⟨q, hq, -, hlt⟩ := (h.marked u).mp ((hs u).mpr hu)
      rw [Finset.mem_range]
      exact lt_of_lt_of_le hlt (hw q hq)
    have heq := Finset.eq_of_subset_of_card_le hsub (by simp [← hcard])
    refine h.bytes p ((hs _).mpr ?_) (.inr hp)
    rw [heq, Finset.mem_range]
    omega

def FragsOk (S : Frags) : Prop :=
  ∀ i, (S i).used = true → ∃ buf, (S i).buf = some buf ∧ SlotOk (S i) buf

theorem FragsOk.update (h : FragsOk S) (i : Fin fragSlots)
    (hf : f.used = true → ∃ buf, f.buf = some buf ∧ SlotOk f buf) :
    FragsOk (update S i f) := by
  intro j hj
  by_cases hij : j = i
  · subst hij
    rw [update_self] at hj ⊢
    exact hf hj
  · rw [update_of_ne hij] at hj ⊢
    exact h j hj

structure DeliveryOk (D : Delivery) : Prop where
  len : D.len ≤ fragMaxlen
  keys : ∀ q ∈ D.pieces, q.key = D.key
  holes : NoHoles D.pieces D.buf D.len ↔ Within D.pieces D.len

theorem fragAccept_eq (pkt : List Byte) (hbuf : (S i).buf = some buf) (hok : SlotOk (S i) buf)
    (hkey : (S i).key = h.key) (hihl : h.ihl ≤ 60) (hoff : 8 ∣ h.off)
    (hlen : h.off + (pkt.drop h.ihl).length ≤ fragMaxlen)
    (hmore : h.more = true → 8 ∣ (pkt.drop h.ihl).length ∧ 0 < (pkt.drop h.ihl).length)
    (htotal : h.more = false → (S i).total = 0 ∨ (S i).total = h.off + (pkt.drop h.ihl).length) :
    ∃ f buf', SlotOk f buf' ∧ f.buf = some buf' ∧ f.used = (S i).used ∧ f.key = h.key ∧
      f.total = (if h.more then (S i).total else h.off + (pkt.drop h.ihl).length) ∧
      f.pieces = ⟨h.key, h.off, pkt.drop h.ihl⟩ :: (S i).pieces ∧
      fragAccept S i h pkt =
        if f.total ≠ 0 ∧ f.filled = (f.total + 7) / 8 then
          some (update S i { f.reset with buf := none },
            some ⟨h.key, buf', f.total, f.pieces⟩)
        else some (update S i f, none) := by
  have hgood : ¬ (h.more = false ∧ (S i).total ≠ 0 ∧
      (S i).total ≠ h.off + (pkt.drop h.ihl).length) :=
    fun hc => (htotal hc.1).elim hc.2.1 hc.2.2
  simp only [fragAccept]
  rw [if_neg hgood]
  -- the new total, for a last fragment and for one in the middle
  obtain ⟨total, hf, ht, hcase⟩ : ∃ total,
      (if h.more = true then S i else { S i with total := h.off + (pkt.drop h.ihl).length }) =
        { S i with total := total } ∧
      total = (if h.more then (S i).total else h.off + (pkt.drop h.ihl).length) ∧
      (total = (S i).total ∧ 8 ∣ (pkt.drop h.ihl).length ∧ 0 < (pkt.drop h.ihl).length ∨
        total = h.off + (pkt.drop h.ihl).length ∧ ((S i).total = 0 ∨ (S i).total = total)) := by
    cases hm : h.more with
    | true => exact ⟨(S i).total, by simp, by simp, .inl ⟨rfl, hmore hm⟩⟩
    | false => exact ⟨_, by simp, by simp, .inr ⟨rfl, htotal hm⟩⟩
  rw [hf]
  obtain ⟨first, hdr, hnote⟩ := noteFirst_spec { S i with total := total } pkt hihl
  obtain ⟨f', buf', hfill, hok', hbuf', hused', hkey', htot', hpieces⟩ :=
    hok.add hbuf h.off (pkt.drop h.ihl) total first hdr hoff hlen hcase
  refine ⟨f', buf', hok', hbuf', hused', hkey'.trans hkey, htot'.trans ht, hkey ▸ hpieces, ?_⟩
  simp only [hnote, bind_eq_bind, bind_some, ← hkey, hfill, hbuf', hkey']

theorem fragAccept_spec {pkt : List Byte}
    (hS : FragsOk S) (hused : (S i).used = true) (hkey : (S i).key = h.key) (hihl : h.ihl ≤ 60)
    (hoff : 8 ∣ h.off) (hlen : h.off + (pkt.drop h.ihl).length ≤ fragMaxlen)
    (hmore : h.more = true → 8 ∣ (pkt.drop h.ihl).length ∧ 0 < (pkt.drop h.ihl).length) :
    ∃ S' d, fragAccept S i h pkt = some (S', d) ∧ FragsOk S' ∧
      ∀ D, d = some D → D.key = h.key ∧ DeliveryOk D := by
  obtain ⟨buf, hbuf, hok⟩ := hS i hused
  by_cases hbad : h.more = false ∧ (S i).total ≠ 0 ∧
      (S i).total ≠ h.off + (pkt.drop h.ihl).length
  · simp only [fragAccept]
    rw [if_pos hbad]
    exact ⟨_, none, rfl, hS.update i (by simp [Slot.reset]), by simp⟩
  have htotal : h.more = false →
      (S i).total = 0 ∨ (S i).total = h.off + (pkt.drop h.ihl).length := by
    intro hm
    by_contra hc
    rw [not_or] at hc
    exact hbad ⟨hm, hc.1, hc.2⟩
  obtain ⟨f, buf', hok', hbuf', -, hkey', -, -, he⟩ :=
    fragAccept_eq pkt hbuf hok hkey hihl hoff hlen hmore htotal
  rw [he]
  split_ifs with hdone
  · refine ⟨_, _, rfl, hS.update i (by simp [Slot.reset]), ?_⟩
    rintro D ⟨⟩
    exact ⟨rfl, hok'.top, fun q hq => (hok'.keys q hq).trans hkey', hok'.noHoles_iff hdone.2⟩
  · exact ⟨_, none, rfl, hS.update i fun _ => ⟨buf', hbuf', hok'⟩, by simp⟩

theorem slotFind_some {k : Key} (h : slotFind S k = some i) :
    (S i).used = true ∧ (S i).key = k := by
  simpa using List.find?_some h

theorem claimed_ok (f : Slot) (now : Nat) (buf : Nat → Byte) :
    SlotOk (f.claimed now (some buf)) buf where
  marks := ⟨∅, rfl, fun u => by simp [Slot.claimed, Slot.reset]⟩
  marked := by simp [Slot.claimed, Slot.reset]
  aligned := by simp [Slot.claimed, Slot.reset]
  size := by simp [Slot.claimed, Slot.reset]
  keys := by simp [Slot.claimed, Slot.reset]
  bytes := by simp [Slot.claimed, Slot.reset]
  top := Nat.zero_le _

theorem slotClaim_some {S' : Frags} {now : Nat} {fresh : Option (Nat → Byte)}
    (hS : FragsOk S) (h : slotClaim S now fresh = some (S', i)) :
    ∃ buf, S' = update S i ((S i).claimed now (some buf)) := by
  unfold slotClaim at h
  split at h
  · split at h
    · simp at h
    · cases h
      exact ⟨_, rfl⟩
  · rename_i hnone
    cases h
    have hused : (S (oldest S)).used = true := by
      simpa using List.find?_eq_none.mp hnone (oldest S) (mem_finRange _)
    obtain ⟨buf, hbuf, -⟩ := hS _ hused
    exact ⟨buf, by rw [hbuf]⟩

theorem readHeader_range (pkt : List Byte) :
    (readHeader pkt).ihl ≤ 60 ∧ 8 ∣ (readHeader pkt).off := by
  constructor
  · show (pkt.getD 0 0).toNat % 16 * 4 ≤ 60
    omega
  · exact Dvd.intro_left _ rfl

/-- Each packet keeps the slots, and what is delivered is complete. -/
theorem ipFragInput_spec (hS : FragsOk S) (pkt : List Byte) (now : Nat)
    (fresh : Option (Nat → Byte)) :
    ∃ S' d, ipFragInput S pkt now fresh = some (S', d) ∧ FragsOk S' ∧
      ∀ D, d = some D → D.key = (readHeader pkt).key ∧ DeliveryOk D := by
  obtain ⟨hihl, hoff⟩ := readHeader_range pkt
  have hdrop : ∀ S : Frags, FragsOk S →
      ∃ S' d, some (S, (none : Option Delivery)) = some (S', d) ∧ FragsOk S' ∧
        ∀ D, d = some D → D.key = (readHeader pkt).key ∧ DeliveryOk D :=
    fun S hS => ⟨S, none, rfl, hS, by simp⟩
  simp only [ipFragInput]
  split_ifs with h1 h2 h3 h4
  · exact hdrop S hS
  · exact hdrop S hS
  · exact hdrop S hS
  · exact hdrop S hS
  have hlen : (readHeader pkt).off + (pkt.drop (readHeader pkt).ihl).length ≤ fragMaxlen := by
    rw [length_drop]
    omega
  have hmore : (readHeader pkt).more = true →
      8 ∣ (pkt.drop (readHeader pkt).ihl).length ∧ 0 < (pkt.drop (readHeader pkt).ihl).length := by
    intro hm
    rw [length_drop]
    simp only [hm, and_true, true_and, not_not] at h2 h4
    omega
  cases hfind : slotFind S (readHeader pkt).key with
  | some i =>
    obtain ⟨hused, hkey⟩ := slotFind_some hfind
    exact fragAccept_spec hS hused hkey hihl hoff hlen hmore
  | none =>
    cases hclaim : slotClaim S now fresh with
    | none => exact hdrop S hS
    | some r =>
      obtain ⟨S', i⟩ := r
      obtain ⟨buf, rfl⟩ := slotClaim_some hS hclaim
      have hc := claimed_ok (S i) now buf
      refine fragAccept_spec ?_ ?_ ?_ hihl hoff hlen hmore
      · rw [update_self, update_idem]
        refine hS.update i fun _ => ⟨buf, rfl, ?_⟩
        exact ⟨hc.marks, hc.marked, hc.aligned, hc.size,
          by simp [Slot.claimed, Slot.reset], hc.bytes, hc.top⟩
      · simp [Slot.claimed]
      · simp

/-- The states of the slots after any fragments and timeouts. -/
inductive FragReach : Frags → Prop
  | init : FragReach fragInit
  | input {S S' : Frags} {d : Option Delivery} (pkt : List Byte) (now : Nat)
      (fresh : Option (Nat → Byte)) (h : FragReach S)
      (hrun : ipFragInput S pkt now fresh = some (S', d)) : FragReach S'
  | tick {S : Frags} (now : Nat) (h : FragReach S) : FragReach (ipFragTick S now)

theorem FragReach.ok (h : FragReach S) : FragsOk S := by
  induction h with
  | init => intro i hi; simp [fragInit] at hi
  | input pkt now fresh _ hrun ih =>
    obtain ⟨S', d, he, hok, -⟩ := ipFragInput_spec ih pkt now fresh
    obtain ⟨rfl, -⟩ := mk.inj (some.inj (hrun.symm.trans he))
    exact hok
  | @tick S now _ ih =>
    intro i hi
    simp only [ipFragTick] at hi ⊢
    split_ifs at hi ⊢ with ht
    · simp [Slot.reset] at hi
    · exact ih i hi

/-- In every run, a call on any packet keeps its accesses in bounds; and when it delivers,
each byte comes from an accepted fragment of the datagram just if none of these reaches
past the last unit of the delivered length. -/
theorem reassembly_complete {S : Frags} (h : FragReach S) (pkt : List Byte) (now : Nat)
    (fresh : Option (Nat → Byte)) :
    ∃ S' d, ipFragInput S pkt now fresh = some (S', d) ∧
      ∀ D, d = some D → D.len ≤ fragMaxlen ∧ D.key = (readHeader pkt).key ∧
        (∀ q ∈ D.pieces, q.key = D.key) ∧
        (NoHoles D.pieces D.buf D.len ↔ Within D.pieces D.len) := by
  obtain ⟨S', d, he, -, hd⟩ := ipFragInput_spec h.ok pkt now fresh
  refine ⟨S', d, he, fun D hD => ?_⟩
  obtain ⟨hkey, hok⟩ := hd D hD
  exact ⟨hok.len, hkey, hok.keys, hok.holes⟩

def eightBytes (unit : Nat) (more : Bool) (b : Byte) : List Byte :=
  ipFillHeader 0x0a000001 0x0a000002 17 64 1 (unit + if more then 0x2000 else 0) 8 ++
    List.replicate 8 b

def twoFragments (p q : List Byte) : Option (Nat × List (Nat × Nat) × Byte) := do
  let (S, _) ← ipFragInput fragInit p 0 (some fun _ => 0xee)
  let (_, d) ← ipFragInput S q 0 none
  d.map fun D => (D.len, D.pieces.map fun r => (r.off, r.stop), D.buf 0)

theorem twoFragments_run {p q : List Byte} {len : Nat} {spans : List (Nat × Nat)} {b : Byte}
    (h : twoFragments p q = some (len, spans, b)) :
    ∃ S S' D, FragReach S ∧ ipFragInput S q 0 none = some (S', some D) ∧ D.len = len ∧
      (D.pieces.map fun r => (r.off, r.stop)) = spans := by
  simp only [twoFragments, bind_eq_bind, bind_eq_some_iff, map_eq_some_iff] at h
  obtain ⟨⟨S, d⟩, hp, ⟨S', d'⟩, hq, D, rfl, he⟩ := h
  simp only [mk.injEq] at he
  exact ⟨S, S', D, .input p 0 _ .init hp, hq, he.1, he.2.1⟩

theorem reassembly_complete_two : ∃ S S' D, FragReach S ∧
    ipFragInput S (eightBytes 1 false 2) 0 none = some (S', some D) ∧ D.len = 16 ∧
    NoHoles D.pieces D.buf D.len := by
  obtain ⟨S, S', D, hreach, hrun, hlen, hspans⟩ := twoFragments_run
    (show twoFragments (eightBytes 0 true 1) (eightBytes 1 false 2) =
    some (16, [(8, 16), (0, 8)], 1) by
      decide +kernel)
  obtain ⟨T, d, he, hd⟩ := reassembly_complete hreach (eightBytes 1 false 2) 0 none
  obtain ⟨-, rfl⟩ := mk.inj (some.inj (hrun.symm.trans he))
  refine ⟨S, S', D, hreach, hrun, hlen, (hd D rfl).2.2.2.mpr fun q hq => ?_⟩
  have hm := mem_map_of_mem (f := fun r : Piece => (r.off, r.stop)) hq
  rw [hspans] at hm
  simp only [mem_cons, mk.injEq, not_mem_nil, or_false] at hm
  omega

/-- A fragment beyond the end, then the last one: two units are marked and two are
expected, so the first eight bytes of the buffer are delivered as `malloc` left them. -/
theorem reassembly_hole : ∃ S S' D, FragReach S ∧
    ipFragInput S (eightBytes 1 false 2) 0 none = some (S', some D) ∧
    ¬ NoHoles D.pieces D.buf D.len := by
  obtain ⟨S, S', D, hreach, hrun, hlen, hspans⟩ := twoFragments_run
    (show twoFragments (eightBytes 2 true 1) (eightBytes 1 false 2) =
    some (16, [(8, 16), (16, 24)], 0xee) by
      decide +kernel)
  refine ⟨S, S', D, hreach, hrun, fun hno => ?_⟩
  obtain ⟨q, hq, hc, -⟩ := hno 0 (by omega)
  have hm := mem_map_of_mem (f := fun r : Piece => (r.off, r.stop)) hq
  rw [hspans] at hm
  simp only [mem_cons, mk.injEq, not_mem_nil, or_false] at hm
  have := hc.1
  omega

end Cervus.Net
