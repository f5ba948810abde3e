import Cervus.Fat32.Chain

/-! A file as an array of bytes, and what `fat32_file_read` returns of it. -/

namespace Cervus.Fat32

open List

@[ext]
structure AFile where
  size : ℕ
  data : ℕ → Byte
  beyond : ∀ p, size ≤ p → data p = 0

namespace AFile

def empty : AFile := ⟨0, fun _ => 0, fun _ _ => rfl⟩

def read (f : AFile) (offset len : ℕ) : List Byte :=
  Disk.read f.data offset (min len (f.size - offset))

def write (f : AFile) (offset : ℕ) (data : List Byte) : AFile where
  size := max f.size (offset + data.length)
  data := Disk.write f.data offset data
  beyond p hp := by
    rw [Disk.write_outside (.inr (by omega))]
    exact f.beyond p (by omega)

end AFile

section

variable (G : Geometry)

def HoldsBut (fs : Fs) (l : List ℕ) (d : ℕ → Byte) (bad : ℕ → Prop) : Prop :=
  ∀ i c, l[i]? = some c → ¬bad i → ∀ k < G.bytesPerCluster,
    cdata G fs c k = d (i * G.bytesPerCluster + k)

def Holds (fs : Fs) (l : List ℕ) (d : ℕ → Byte) : Prop := HoldsBut G fs l d fun _ => False

structure Stores (fs : Fs) (vd : Vdata) (l : List ℕ) (f : AFile) : Prop where
  chain : Chain G fs l
  first : vd.firstCluster = l.headD 0
  cached : vd.cachedCluster = 0 ∨ l[vd.cachedIndex]? = some vd.cachedCluster
  size : vd.fileSize = f.size
  bound : f.size < 2 ^ 32
  fits : f.size ≤ l.length * G.bytesPerCluster
  holds : Holds G fs l f.data

end

variable {G : Geometry} {fs fs' : Fs} {l : List ℕ} {d : ℕ → Byte}

theorem Holds.same (h : Holds G fs l d) (hs : Same G fs fs') : Holds G fs' l d :=
  fun i c hi hb k hk =>
  (hs.data c k).trans (h i c hi hb k hk)

variable {c cluster i k len off run : ℕ} (hG : G.Ok) (h : CacheOk G fs) (hl : Chain G fs l)

include hG h hl in
theorem Chain.read_next (hi : l[i]? = some c) :
    (fatReadEntry G c fs).1 = l[i + 1]?.getD eoc ∧ Same G fs (fatReadEntry G c fs).2 := by
  obtain ⟨hv, hs⟩ := fatReadEntry_spec h (hG.inTable (hl.valid c (mem_of_getElem? hi)))
  exact ⟨hv.trans (hl.linked i c hi), hs⟩

theorem Geometry.Ok.not_end (hG : G.Ok) (h : Valid G c) : ¬(isEoc c = true ∨ c < 2) := by
  rintro (he | hlt)
  · rw [hG.not_eoc h] at he
    cases he
  · exact absurd h.1 (by omega)

include hG hl in
theorem Chain.eoc_or_next (i : ℕ) :
    (isEoc (l[i]?.getD eoc) = true ∨ l[i]?.getD eoc < 2) ∨ ∃ c, l[i]? = some c ∧
    ¬(isEoc c = true ∨ c < 2) := by
  cases hi : l[i]? with
  | none => exact .inl (.inl isEoc_eoc)
  | some c => exact .inr ⟨c, rfl, hG.not_end (hl.valid c (mem_of_getElem? hi))⟩

include hG h hl in
theorem walk_spec (hi : l[i]? = some cluster) (hk : i + k < l.length) :
    ∃ c fs', walk G k cluster fs = (some c, fs') ∧ l[i + k]? = some c ∧ Same G fs fs' := by
  induction k generalizing i cluster fs with
  | zero => exact ⟨cluster, fs, rfl, hi, Same.refl h⟩
  | succ k ih =>
    have hv := hl.valid cluster (mem_of_getElem? hi)
    obtain ⟨hnext, hs⟩ := hl.read_next hG h hi
    have hlt : i + 1 < l.length := by omega
    rw [List.getElem?_eq_getElem hlt, Option.getD_some] at hnext
    obtain ⟨c, fs', hwalk, hc, hs'⟩ := ih hs.cache (hl.same hG hs) (List.getElem?_eq_getElem hlt)
      (by omega)
    refine ⟨c, fs', ?_, by rwa [show i + (k + 1) = i + 1 + k by omega], hs.trans hs'⟩
    rw [walk, if_neg (hG.not_end hv), ← hwalk, ← hnext]

def Side (l : List ℕ) (i cluster run : ℕ) : Prop := ∀ j < run, l[i + j]? = some (cluster + j)

theorem Side.one (h : l[i]? = some cluster) : Side l i cluster 1 := by
  intro j hj
  obtain rfl : j = 0 := by omega
  exact h

theorem Side.succ (h : Side l i cluster run) (hn : l[i + run]? = some (cluster + run)) :
    Side l i cluster (run + 1) := fun j hj => by
  rcases Nat.lt_succ_iff_lt_or_eq.mp hj with hj | rfl
  · exact h j hj
  · exact hn

include hG h hl in
/-- Clusters that lie side by side are read at once. -/
theorem readRun_spec {last : ℕ}
    (hrun : 0 < run) (hside : Side l i cluster run) (hlast : last + 1 = cluster + run)
    (hlen : run * G.bytesPerCluster ≤ len) :
    ∃ run' last' pre fs', readRun G len k run last fs = (run', last', pre, fs') ∧ Same G fs fs' ∧
      0 < run' ∧
      Side l i cluster run' ∧ last' + 1 = cluster + run' ∧ run' * G.bytesPerCluster ≤ len ∧
      (pre ≠ 0 → l[i + run']? = some pre) := by
  induction k generalizing run last fs with
  | zero => exact ⟨run, last, 0, fs, rfl, Same.refl h, hrun, hside, hlast, hlen, fun h =>
    absurd rfl h⟩
  | succ k ih =>
    rw [readRun]
    split_ifs with hcond
    · dsimp only
      have hl1 : l[i + (run - 1)]? = some last := by
        rw [hside (run - 1) (by omega)]
        congr 1
        omega
      obtain ⟨hnext, hs⟩ := hl.read_next hG h hl1
      rw [show i + (run - 1) + 1 = i + run by omega] at hnext
      rw [hnext]
      rcases hl.eoc_or_next hG (i + run) with hend | ⟨c, hc, hne⟩
      · rw [if_pos hend]
        exact ⟨run, last, 0, _, rfl, hs, hrun, hside, hlast, hlen, fun h => absurd rfl h⟩
      · rw [hc, Option.getD_some, if_neg hne]
        by_cases hc1 : c = last + 1
        · rw [if_neg (not_not.mpr hc1)]
          obtain ⟨run', last', pre, fs', hr, hs', hrest⟩ :=
            ih hs.cache (hl.same hG hs) (Nat.succ_pos run)
            (hside.succ (by rw [hc, hc1, hlast]))
              (show c + 1 = cluster + (run + 1) by omega) hcond.1
          exact ⟨run', last', pre, fs', hr, hs.trans hs', hrest⟩
        · rw [if_pos hc1]
          exact ⟨run, last, c, _, rfl, hs, hrun, hside, hlast, hlen, fun _ => hc⟩
    · exact ⟨run, last, 0, fs, rfl, Same.refl h, hrun, hside, hlast, hlen, fun h => absurd rfl h⟩

theorem Holds.read_cluster (h : Holds G fs l d) (hi : l[i]? = some c) :
    readCluster G c fs = Disk.read d (i * G.bytesPerCluster) G.bytesPerCluster :=
  map_congr_left fun k hk => h i c hi id k (mem_range.mp hk)

theorem Holds.read_side (hG : G.Ok) (h : Holds G fs l d) (h2 : 2 ≤ cluster)
    (hside : Side l i cluster run) :
    Disk.read fs.disk (G.clusterAddr cluster) (run * G.bytesPerCluster) =
      Disk.read d (i * G.bytesPerCluster) (run * G.bytesPerCluster) := by
  refine map_congr_left fun p hp => ?_
  have hp := mem_range.mp hp
  have hpos := hG.bytes_pos
  have hj : p / G.bytesPerCluster < run := Nat.div_lt_of_lt_mul (by rwa [mul_comm])
  have hsplit := Nat.div_add_mod' p G.bytesPerCluster
  have hc := h _ _ (hside _ hj) id (p % G.bytesPerCluster) (Nat.mod_lt _ hpos)
  rw [cdata, clusterAddr_add h2, add_assoc, hsplit, add_mul, add_assoc, hsplit] at hc
  exact hc

theorem drop_take_read (a n m k : ℕ) (h : m + k ≤ n) :
    ((Disk.read d a n).drop m).take k = Disk.read d (a + m) k := by
  refine ext_getElem (by simp; omega) fun i h1 h2 => ?_
  simp [Disk.read, add_assoc]

include hG h hl in
/-- One round of a read gives the next bytes of the file. -/
theorem readTurn_spec (hd : Holds G fs l d) (hi : l[i]? = some cluster)
    (hoff : off < G.bytesPerCluster) (hlen : 0 < len) :
    ∃ n i' c pre fs', readTurn G cluster off len fs =
      (Disk.read d (i * G.bytesPerCluster + off) n, c, pre, fs') ∧
      Same G fs fs' ∧ 0 < n ∧ n ≤ len ∧ l[i']? = some c ∧
      (n < len → i * G.bytesPerCluster + off + n = (i' + 1) * G.bytesPerCluster) ∧
      (pre ≠ 0 → l[i' + 1]? = some pre) := by
  have h2 := (hl.valid cluster (mem_of_getElem? hi)).1
  rw [readTurn]
  by_cases hfull : off = 0 ∧ min (G.bytesPerCluster - off) len = G.bytesPerCluster
  · obtain ⟨rfl, hmin⟩ := hfull
    obtain ⟨run, last, pre, fs', hrun, hs, hpos, hside, hlast, hle, hpre⟩ :=
      readRun_spec (k := maxRunSectors) hG h hl
      Nat.one_pos (Side.one hi) rfl (show 1 * G.bytesPerCluster ≤ len by omega)
    rw [if_pos ⟨rfl, hmin⟩, hrun]
    dsimp only
    have hbytes := hG.bytes_pos
    refine ⟨run * G.bytesPerCluster, i + (run - 1), last, pre, fs', ?_, hs, Nat.mul_pos hpos hbytes,
      hle, ?_, fun _ => ?_,
      fun hp => ?_⟩
    · rw [(hd.same hs).read_side hG h2 hside]
      rfl
    · rw [hside (run - 1) (by omega)]
      congr 1
      omega
    · rw [add_zero, show i + (run - 1) + 1 = i + run by omega, Nat.add_mul]
    · rw [show i + (run - 1) + 1 = i + run by omega]
      exact hpre hp
  · rw [if_neg hfull]
    refine ⟨min (G.bytesPerCluster - off) len, i, cluster, 0, fs, ?_, Same.refl h,
      by omega, Nat.min_le_right _ _, hi,
      fun hlt => ?_, fun h => absurd rfl h⟩
    · rw [hd.read_cluster hi, drop_take_read _ _ _ _ (by omega)]
    · rw [Nat.add_mul, Nat.one_mul]
      omega

include hG h hl in
/-- By induction on the bytes that are left, the rounds give all of them. -/
theorem readLoop_spec (hd : Holds G fs l d) (hk : len ≤ k) (hi : l[i]? = some cluster)
    (hoff : off < G.bytesPerCluster)
    (hend : i * G.bytesPerCluster + off + len ≤ l.length * G.bytesPerCluster) :
    ∃ fs', readLoop G k cluster off len fs = (Disk.read d (i * G.bytesPerCluster + off) len, fs') ∧
      Same G fs fs' := by
  induction k generalizing i cluster off len fs with
  | zero =>
    obtain rfl : len = 0 := by omega
    exact ⟨fs, rfl, Same.refl h⟩
  | succ k ih =>
    have hv := hl.valid cluster (mem_of_getElem? hi)
    rw [readLoop]
    by_cases hlen : 0 < len
    · have hcond : 0 < len ∧ ¬isEoc cluster = true ∧ 2 ≤ cluster := by
        refine ⟨hlen, ?_, hv.1⟩
        rw [hG.not_eoc hv]
        decide
      obtain ⟨n, i', c, pre, fs', hturn, hs, hn, hle, hc, hnext, hpre⟩ :=
        readTurn_spec hG h hl hd hi hoff hlen
      rw [if_pos hcond, hturn]
      dsimp only
      rw [Disk.length_read]
      by_cases hmore : 0 < len - n
      · have hnext := hnext (by omega)
        have hlt : i' + 1 < l.length := by
          by_contra hge
          have := Nat.mul_le_mul_right G.bytesPerCluster (show l.length ≤ i' + 1 by omega)
          omega
        obtain ⟨next, hi'⟩ : ∃ next, l[i' + 1]? = some next := ⟨_, List.getElem?_eq_getElem hlt⟩
        obtain ⟨fs₂, hfs₂, hs₂⟩ : ∃ fs₂, (if pre ≠ 0 then (pre, fs') else fatReadEntry G c fs') =
          (next, fs₂) ∧
            Same G fs' fs₂ := by
          by_cases hp : pre ≠ 0
          · rw [if_pos hp, Option.some.inj ((hpre hp).symm.trans hi')]
            exact ⟨fs', rfl, Same.refl hs.cache⟩
          · obtain ⟨hv', hs'⟩ := (hl.same hG hs).read_next hG hs.cache hc
            rw [hi', Option.getD_some] at hv'
            rw [if_neg hp]
            exact ⟨_, Prod.ext hv' rfl, hs'⟩
        have hsame := hs.trans hs₂
        obtain ⟨fs₃, hloop, hs₃⟩ := ih hsame.cache (hl.same hG hsame) (hd.same hsame)
          (show len - n ≤ k by omega)
          hi' hG.bytes_pos (by omega)
        rw [if_pos hmore, hfs₂]
        rw [hloop, Nat.add_zero, ← hnext]
        refine ⟨fs₃, ?_, hsame.trans hs₃⟩
        rw [← Disk.read_add, Nat.add_sub_cancel' hle]
      · obtain rfl : n = len := by omega
        rw [if_neg hmore]
        exact ⟨fs', rfl, hs⟩
    · obtain rfl : len = 0 := by omega
      exact ⟨fs, rfl, Same.refl h⟩

include hG h in
/-- A read gives the bytes of the array. -/
theorem fat32FileRead_spec {vd : Vdata} {f : AFile} (hf : Stores G fs vd l f) (offset : ℕ)
    (hlen : len < 2 ^ 63) :
    (fat32FileRead G vd offset len fs).1 = f.read offset len ∧ Same G fs
    (fat32FileRead G vd offset len fs).2 := by
  rw [fat32FileRead, AFile.read, hf.size]
  by_cases hoff : f.size ≤ offset
  · rw [if_pos hoff, Nat.sub_eq_zero_of_le hoff, Nat.min_zero]
    exact ⟨rfl, Same.refl h⟩
  have hbound := hf.bound
  have hn : (if f.size < (offset + len) % 2 ^ 64 then f.size - offset else len) =
      min len (f.size - offset) := by
    split_ifs <;> omega
  have hpos := hG.bytes_pos
  have hdiv := Nat.div_add_mod' offset G.bytesPerCluster
  have hfits := hf.fits
  have hidx : offset / G.bytesPerCluster < l.length :=
    Nat.div_lt_of_lt_mul (by rw [mul_comm]; omega)
  have hhead : l[0]? = some vd.firstCluster := by
    rw [hf.first]
    cases l with
    | nil => exact absurd hidx (Nat.not_lt_zero _)
    | cons c l => rfl
  obtain ⟨c, fs₁, hwalk, hc, hs₁⟩ := walk_spec hG h hf.chain hhead
    (show 0 + offset / G.bytesPerCluster < l.length by omega)
  rw [zero_add] at hc
  obtain ⟨fs₂, hloop, hs₂⟩ := readLoop_spec hG hs₁.cache (hf.chain.same hG hs₁) (hf.holds.same hs₁)
    (le_refl (min len (f.size - offset))) hc (Nat.mod_lt offset hpos) (by omega)
  rw [if_neg hoff, hn, hwalk]
  dsimp only
  rw [hloop, hdiv]
  exact ⟨rfl, hs₁.trans hs₂⟩

end Cervus.Fat32
