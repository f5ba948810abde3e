import Mathlib.Tactic.IntervalCases
import Cervus.Fat32.Model

/-! The allocation table behind its cache is a function from clusters to entries, and its copies
agree wherever the cache has nothing to write back. -/

namespace Cervus.Fat32

open Disk

/-! Words. -/

variable {a c i k rel sec v x : ℕ}

theorem get32_congr {d d' : ℕ → Byte} {b : ℕ} (h : ∀ k < 4, d (a + k) = d' (b + k)) :
    get32 d a = get32 d' b := by
  have h0 : d a = d' b := h 0 (by omega)
  rw [get32, get32, ← h 1 (by omega), ← h 2 (by omega), ← h 3 (by omega), h0]

theorem get32_write {d : ℕ → Byte} (h : v < 2 ^ 32) : get32 (write d a (put32 v)) a = v := by
  have h0 : write d a (put32 v) a = UInt8.ofNat v := write_inside (i := 0) (by simp [put32])
  have h1 : write d a (put32 v) (a + 1) = UInt8.ofNat (v / 2 ^ 8) :=
    write_inside (i := 1) (by simp [put32])
  have h2 : write d a (put32 v) (a + 2) = UInt8.ofNat (v / 2 ^ 16) :=
    write_inside (i := 2) (by simp [put32])
  have h3 : write d a (put32 v) (a + 3) = UInt8.ofNat (v / 2 ^ 24) :=
    write_inside (i := 3) (by simp [put32])
  rw [get32, h0, h1, h2, h3]
  simp only [UInt8.toNat_ofNat']
  omega

theorem merged_entry (value existing : ℕ) :
    (value &&& clusterMask ||| existing &&& 0xF0000000) &&& clusterMask = value &&&
    clusterMask := by
  have hdisj : (0xF0000000 : ℕ) &&& clusterMask = 0 := by decide
  rw [Nat.and_or_distrib_right, Nat.and_assoc, Nat.and_assoc, Nat.and_self, hdisj, Nat.and_zero,
    Nat.or_zero]

theorem merged_lt (value existing : ℕ) :
    (value &&& clusterMask ||| existing &&& 0xF0000000) < 2 ^ 32 :=
  Nat.or_lt_two_pow (Nat.and_lt_two_pow _ (by decide)) (Nat.and_lt_two_pow _ (by decide))

/-! The table as a function. -/

section

variable (G : Geometry)

def entry (fs : Fs) (c : ℕ) : ℕ :=
  (if fs.fatCacheSec = some (c / 128) then get32 fs.fatCache (c % 128 * 4)
    else get32 fs.disk (G.fatAddr 0 0 + c * 4)) &&&
    clusterMask

def cdata (fs : Fs) (c k : ℕ) : Byte := fs.disk (G.clusterAddr c + k)

def InTable (c : ℕ) : Prop := c / 128 < G.fatSize

structure CacheOk (fs : Fs) : Prop where
  agree : ∀ rel < G.fatSize, ¬(fs.fatCacheSec = some rel ∧ fs.fatCacheDirty = true) →
    ∀ i < numFats, ∀ k < 512, fs.disk (G.fatAddr i rel + k) = fs.disk (G.fatAddr 0 rel + k)
  clean : ∀ rel, fs.fatCacheSec = some rel → fs.fatCacheDirty = false →
    ∀ k < 512, fs.fatCache k = fs.disk (G.fatAddr 0 rel + k)
  inside : ∀ rel, fs.fatCacheSec = some rel → rel < G.fatSize

structure Same (fs fs' : Fs) : Prop where
  cache : CacheOk G fs'
  entry : ∀ c, InTable G c → entry G fs' c = entry G fs c
  data : ∀ c k, cdata G fs' c k = cdata G fs c k

end

variable {G : Geometry} {fs fs' fs'' : Fs}

theorem Same.trans (h : Same G fs fs') (h' : Same G fs' fs'') : Same G fs fs'' where
  cache := h'.cache
  entry c hc := (h'.entry c hc).trans (h.entry c hc)
  data c k := (h'.data c k).trans (h.data c k)

theorem fatAddr_lt_data (hi : i < numFats) (hrel : rel < G.fatSize) (hk : k < 512) (c j : ℕ) :
    G.fatAddr i rel + k < G.clusterAddr c + j := by
  have hi : i < 2 := hi
  have hdata : 512 * G.firstDataSector ≤ G.clusterAddr c :=
    Nat.mul_le_mul_left _ (Nat.le_add_right _ _)
  rw [Geometry.firstDataSector, reserved, numFats] at hdata
  rw [Geometry.fatAddr, reserved]
  interval_cases i <;> omega

theorem fatAddr_disjoint {j : ℕ} (hi : i < numFats) (hj : j < numFats) (hrel : rel < G.fatSize)
    (hsec : sec < G.fatSize) (hk : k < 512) (hne : i ≠ j ∨ rel ≠ sec) :
    G.fatAddr i rel + k < G.fatAddr j sec ∨ G.fatAddr j sec + 512 ≤ G.fatAddr i rel + k := by
  have hi : i < 2 := hi
  have hj : j < 2 := hj
  rw [Geometry.fatAddr, Geometry.fatAddr, reserved]
  interval_cases i <;> interval_cases j <;> omega

section
variable (hsec : fs.fatCacheSec = some sec) (hd : fs.fatCacheDirty = true)
include hsec hd

theorem fatCacheFlush_disk :
    (fatCacheFlush G fs).disk = write
    (write fs.disk (G.fatAddr 0 sec) (Disk.read fs.fatCache 0 512))
      (G.fatAddr 1 sec) (Disk.read fs.fatCache 0 512) := by
  rw [fatCacheFlush, hsec]
  dsimp only
  rw [if_pos hd]
  rfl

theorem fatCacheFlush_off (h : ∀ j < numFats, x < G.fatAddr j sec ∨ G.fatAddr j sec + 512 ≤ x) :
    (fatCacheFlush G fs).disk x = fs.disk x := by
  rw [fatCacheFlush_disk hsec hd, write_outside (by simpa using h 1 (by decide)),
    write_outside (by simpa using h 0 (by decide))]

theorem fatCacheFlush_on (hin : sec < G.fatSize) (hi : i < numFats) (hk : k < 512) :
    (fatCacheFlush G fs).disk (G.fatAddr i sec + k) = fs.fatCache k := by
  have hlen : k < (Disk.read fs.fatCache 0 512).length := by rwa [length_read]
  have hget : (Disk.read fs.fatCache 0 512).get ⟨k, hlen⟩ = fs.fatCache k := by simp [Disk.read]
  have hi2 : i < 2 := hi
  rw [fatCacheFlush_disk hsec hd]
  interval_cases i
  · rw [write_outside, write_inside hlen]
    · exact hget
    · rw [length_read]
      exact fatAddr_disjoint hi (by decide) hin hin hk (.inl (by decide))
  · rw [write_inside hlen]
    exact hget

end

theorem fatCacheFlush_clean (fs : Fs) (rel : ℕ) :
    ¬((fatCacheFlush G fs).fatCacheSec = some rel ∧ (fatCacheFlush G fs).fatCacheDirty = true) := by
  rw [fatCacheFlush]
  rintro ⟨hsec, hd⟩
  split at hsec
  next h => rw [h] at hsec; cases hsec
  next sec h =>
    simp only [h] at hd
    split_ifs at hd with h1
    exact h1 hd

theorem fatCacheFlush_eq_self (h : ∀ rel, ¬(fs.fatCacheSec = some rel ∧ fs.fatCacheDirty = true)) :
    fatCacheFlush G fs = fs := by
  rw [fatCacheFlush]
  split
  next => rfl
  next sec hsec => exact if_neg fun hd => h sec ⟨hsec, hd⟩

theorem fatAddr_entry (c : ℕ) : G.fatAddr 0 0 + c * 4 = G.fatAddr 0 (c / 128) + c % 128 * 4 := by
  rw [Geometry.fatAddr, Geometry.fatAddr]
  omega

structure Puts (G : Geometry) (c v : ℕ) (fs fs' : Fs) : Prop where
  cache : CacheOk G fs'
  entry : ∀ d, InTable G d → entry G fs' d = if d = c then v else entry G fs d
  data : ∀ d k, cdata G fs' d k = cdata G fs d k

theorem fat32Sync_disk (hx : 1024 ≤ x) : (fat32Sync G fs).disk x = (fatCacheFlush G fs).disk x := by
  rw [fat32Sync]
  split_ifs
  · have hlen : ∀ v, (put32 v).length = 4 := fun _ => rfl
    dsimp only
    rw [fsinfoSector, write_outside (by rw [hlen]; omega), write_outside (by rw [hlen]; omega)]
  · rfl

theorem le_fatAddr (i rel : ℕ) : 1024 ≤ G.fatAddr i rel := by
  rw [Geometry.fatAddr, reserved]
  omega

theorem le_clusterAddr (c : ℕ) : 1024 ≤ G.clusterAddr c := by
  rw [Geometry.clusterAddr, Geometry.firstDataSector, reserved]
  omega

variable (h : CacheOk G fs)
include h

theorem Same.refl : Same G fs fs := ⟨h, fun _ _ => rfl, fun _ _ => rfl⟩

/-! The cache. -/

/-- Writing the cached sector back changes no entry. -/
theorem fatCacheFlush_same : Same G fs (fatCacheFlush G fs) := by
  by_cases hq : ∃ sec, fs.fatCacheSec = some sec ∧ fs.fatCacheDirty = true
  · obtain ⟨sec, hsec, hd⟩ := hq
    have hin := h.inside sec hsec
    have hcache : (fatCacheFlush G fs).fatCache = fs.fatCache ∧
        (fatCacheFlush G fs).fatCacheSec = fs.fatCacheSec := by
      rw [fatCacheFlush, hsec]
      dsimp only
      rw [if_pos hd]
      exact ⟨rfl, rfl⟩
    have hoff : ∀ rel < G.fatSize, rel ≠ sec → ∀ i < numFats, ∀ k < 512,
        (fatCacheFlush G fs).disk (G.fatAddr i rel + k) = fs.disk (G.fatAddr i rel + k) :=
        fun rel hrel hne i hi k hk =>
      fatCacheFlush_off hsec hd fun j hj => fatAddr_disjoint hi hj hrel hin hk (.inr hne)
    refine ⟨⟨fun rel hrel _ i hi k hk => ?_, fun rel hrel _ k hk => ?_, fun rel hrel => ?_⟩,
      fun c hc => ?_, fun c k => ?_⟩
    · by_cases hne : rel = sec
      · rw [hne, fatCacheFlush_on hsec hd hin hi hk, fatCacheFlush_on hsec hd hin (by decide) hk]
      · rw [hoff rel hrel hne i hi k hk, hoff rel hrel hne 0 (by decide) k hk]
        exact h.agree rel hrel (fun hs => hne (Option.some.inj (hs.1.symm.trans hsec))) i hi k hk
    · rw [hcache.2, hsec] at hrel
      cases hrel
      rw [hcache.1, fatCacheFlush_on hsec hd hin (by decide) hk]
    · rw [hcache.2] at hrel
      exact h.inside rel hrel
    · rw [entry, entry, hcache.1, hcache.2]
      split_ifs with hs
      · rfl
      · congr 1
        refine get32_congr fun k hk => ?_
        rw [fatAddr_entry, add_assoc]
        exact hoff _ hc (fun e => hs (e ▸ hsec)) 0 (by decide) _ (by omega)
    · refine fatCacheFlush_off hsec hd fun j hj => .inr ?_
      have := fatAddr_lt_data hj hin (show 511 < 512 by decide) c k
      omega
  · rw [fatCacheFlush_eq_self fun rel hr => hq ⟨rel, hr⟩]
    exact Same.refl h

/-- Changing the cached sector changes no entry. -/
theorem fatCacheLoad_same (hrel : rel < G.fatSize) :
    Same G fs (fatCacheLoad G rel fs) ∧ (fatCacheLoad G rel fs).fatCacheSec = some rel := by
  rw [fatCacheLoad]
  split_ifs with hs
  · exact ⟨Same.refl h, hs⟩
  refine ⟨(fatCacheFlush_same h).trans ?_, rfl⟩
  have hf := (fatCacheFlush_same h).cache
  have hclean := fatCacheFlush_clean (G := G) fs
  generalize fatCacheFlush G fs = fs at hf hclean
  refine ⟨⟨fun r hr _ i hi k hk => hf.agree r hr (hclean r) i hi k hk, fun r hr _ k _ =>
    ?_, fun r hr => ?_⟩,
    fun c hc => ?_, fun _ _ => rfl⟩
  · cases hr
    rfl
  · cases hr
    exact hrel
  -- the sector comes from the device, and so did what it replaces
  rw [entry, entry]
  congr 1
  split_ifs with h1 h2 h2
  · cases h1
    refine get32_congr fun k hk => ?_
    have hd : fs.fatCacheDirty = false := Bool.eq_false_iff.mpr fun hd => hclean _ ⟨h2, hd⟩
    exact (hf.clean _ h2 hd _ (by omega)).symm
  · cases h1
    rw [fatAddr_entry]
    exact get32_congr fun k _ => by rw [Nat.add_assoc]
  · have hd : fs.fatCacheDirty = false := Bool.eq_false_iff.mpr fun hd => hclean _ ⟨h2, hd⟩
    refine get32_congr fun k hk => ?_
    rw [fatAddr_entry, Nat.add_assoc]
    exact (hf.clean _ h2 hd _ (by omega)).symm
  · rfl

theorem fatReadEntry_spec (hc : InTable G c) :
    (fatReadEntry G c fs).1 = entry G fs c ∧ Same G fs (fatReadEntry G c fs).2 := by
  have hsec : c * 4 / 512 = c / 128 := by omega
  have hoff : c * 4 % 512 = c % 128 * 4 := by omega
  obtain ⟨hsame, hload⟩ := fatCacheLoad_same h (show c / 128 < G.fatSize from hc)
  rw [fatReadEntry, hsec, hoff]
  refine ⟨?_, hsame⟩
  rw [← hsame.entry c hc, entry, if_pos hload]

theorem fatWriteEntry_spec (hc : InTable G c) (hv : v &&& clusterMask = v) :
    Puts G c v fs (fatWriteEntry G c v fs) := by
  have hsec : c * 4 / 512 = c / 128 := by omega
  have hoff : c * 4 % 512 = c % 128 * 4 := by omega
  obtain ⟨hsame, hload⟩ := fatCacheLoad_same h (show c / 128 < G.fatSize from hc)
  rw [fatWriteEntry, hsec, hoff]
  generalize fatCacheLoad G (c / 128) fs = fs₁ at hsame hload
  refine ⟨⟨fun rel hrel hs i hi k hk => ?_, fun rel hrel hd => absurd hd (by simp), fun rel hrel =>
    hsame.cache.inside rel hrel⟩,
    fun d hd => ?_, hsame.data⟩
  · refine hsame.cache.agree rel hrel (fun hs' => hs ⟨hs'.1, rfl⟩) i hi k hk
  rw [← hsame.entry d hd, entry, entry]
  by_cases hdc : d = c
  · subst hdc
    rw [if_pos hload, if_pos rfl, get32_write (merged_lt _ _), merged_entry, hv]
  · rw [if_neg hdc]
    split_ifs with hs
    · congr 1
      refine get32_congr fun k hk => write_outside ?_
      have hq : d / 128 = c / 128 := Option.some.inj (hs.symm.trans hload)
      have hlen :
        (put32 (v &&& clusterMask ||| get32 fs₁.fatCache (c % 128 * 4) &&& 0xF0000000)).length =
        4 := rfl
      omega
    · rfl

/-! Synchronisation. -/

theorem fat32Sync_same : Same G fs (fat32Sync G fs) := by
  refine (fatCacheFlush_same h).trans ?_
  have hf := (fatCacheFlush_same h).cache
  have hfields : (fat32Sync G fs).fatCache = (fatCacheFlush G fs).fatCache ∧
      (fat32Sync G fs).fatCacheSec = (fatCacheFlush G fs).fatCacheSec ∧
      (fat32Sync G fs).fatCacheDirty = (fatCacheFlush G fs).fatCacheDirty := by
    rw [fat32Sync]
    split_ifs
    · exact ⟨rfl, rfl, rfl⟩
    · exact ⟨rfl, rfl, rfl⟩
  obtain ⟨hcache, hsec, hdirty⟩ := hfields
  have hfat : ∀ i rel k, (fat32Sync G fs).disk (G.fatAddr i rel + k) =
    (fatCacheFlush G fs).disk (G.fatAddr i rel + k) :=
    fun i rel k => fat32Sync_disk ((le_fatAddr i rel).trans (Nat.le_add_right _ _))
  refine ⟨⟨fun rel hrel hs i hi k hk => ?_, fun rel hs hd k hk => ?_, fun rel hs =>
    hf.inside rel (hsec ▸ hs)⟩,
    fun c _ => ?_, fun c k => fat32Sync_disk ((le_clusterAddr c).trans (Nat.le_add_right _ _))⟩
  · rw [hsec, hdirty] at hs
    rw [hfat, hfat, hf.agree rel hrel hs i hi k hk]
  · rw [hcache, hfat, hf.clean rel (hsec ▸ hs) (hdirty ▸ hd) k hk]
  · rw [entry, entry, hcache, hsec]
    have : get32 (fat32Sync G fs).disk (G.fatAddr 0 0 + c * 4) =
      get32 (fatCacheFlush G fs).disk (G.fatAddr 0 0 + c * 4) :=
      get32_congr fun k _ => by rw [add_assoc, hfat]
    rw [this]

theorem fat32Sync_agree (hi : i < numFats) (hrel : rel < G.fatSize) (hk : k < 512) :
    (fat32Sync G fs).disk (G.fatAddr i rel + k) = (fat32Sync G fs).disk (G.fatAddr 0 rel + k) := by
  rw [fat32Sync_disk ((le_fatAddr i rel).trans (Nat.le_add_right _ _)),
    fat32Sync_disk ((le_fatAddr 0 rel).trans (Nat.le_add_right _ _))]
  exact (fatCacheFlush_same h).cache.agree rel hrel (fatCacheFlush_clean fs rel) i hi k hk

end Cervus.Fat32
