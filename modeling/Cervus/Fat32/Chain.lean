import Mathlib.Data.Nat.SuccPred
import Mathlib.Tactic.Ring
import Cervus.Fat32.Table

/-! Chains of clusters: taking a free cluster and appending it to a chain changes no other chain. -/

namespace Cervus.Fat32

open List

section

variable (G : Geometry)

/-- What a volume made by `fat32_format` has. -/
structure Geometry.Ok : Prop where
  cluster_pos : 0 < G.sectorsPerCluster
  total_pos : 0 < G.totalClusters
  table : G.totalClusters + 2 ≤ 128 * G.fatSize
  small : G.totalClusters + 2 ≤ 0x0FFFFFF7

def Valid (c : ℕ) : Prop := 2 ≤ c ∧ c < G.totalClusters + 2

def Full (fs : Fs) : Prop := ∀ c, Valid G c → entry G fs c ≠ 0

structure Chain (fs : Fs) (l : List ℕ) : Prop where
  valid : ∀ c ∈ l, Valid G c
  nodup : l.Nodup
  linked : ∀ i c, l[i]? = some c → entry G fs c = l[i + 1]?.getD eoc

structure Grows (fs fs' : Fs) (l l' : List ℕ) : Prop where
  cache : CacheOk G fs'
  chain : Chain G fs' l'
  ext : ∃ new, l' = l ++ new ∧ ∀ c ∈ new, entry G fs c = 0
  entry : ∀ c, InTable G c → c ∉ l' → entry G fs' c = entry G fs c
  data : ∀ c k, Valid G c → k < G.bytesPerCluster → c ∉ l' → cdata G fs' c k = cdata G fs c k

end

variable {G : Geometry} {fs fs' fs'' : Fs} {l l' l'' : List ℕ} {c d i k : ℕ} {data : List Byte}
    {zeroFill : Bool}

theorem isEoc_eoc : isEoc eoc = true := by decide

theorem Chain.congr (h : Chain G fs l) (he : ∀ c ∈ l, entry G fs' c = entry G fs c) :
    Chain G fs' l where
  valid := h.valid
  nodup := h.nodup
  linked i c hi := (he c (mem_of_getElem? hi)).trans (h.linked i c hi)

theorem Chain.entry_ne_zero (h : Chain G fs l) (hc : c ∈ l) : entry G fs c ≠ 0 := by
  obtain ⟨i, hi⟩ := mem_iff_getElem?.mp hc
  rw [h.linked i c hi]
  cases hn : l[i + 1]? with
  | none => decide
  | some d =>
    have := (h.valid d (mem_of_getElem? hn)).1
    simp only [Option.getD_some]
    omega

/-! The data area. -/

theorem clusterAddr_add (hc : 2 ≤ c) (j : ℕ) :
    G.clusterAddr (c + j) = G.clusterAddr c + j * G.bytesPerCluster := by
  rw [Geometry.clusterAddr, Geometry.clusterAddr, Geometry.bytesPerCluster,
    show c + j - 2 = (c - 2) + j by omega]
  ring

theorem clusterAddr_lt (hc : 2 ≤ c) (h : c < d) :
    G.clusterAddr c + G.bytesPerCluster ≤ G.clusterAddr d := by
  obtain ⟨j, rfl⟩ := Nat.exists_eq_add_of_lt h
  rw [add_assoc, clusterAddr_add hc, add_mul, one_mul]
  omega

theorem writeCluster_table (h : CacheOk G fs) (c : ℕ) (data : List Byte) :
    CacheOk G (writeCluster G c data fs) ∧ ∀ d, InTable G d →
      entry G (writeCluster G c data fs) d = entry G fs d := by
  have hfat : ∀ i < numFats, ∀ rel < G.fatSize, ∀ k < 512,
      (writeCluster G c data fs).disk (G.fatAddr i rel + k) = fs.disk (G.fatAddr i rel + k) :=
      fun i hi rel hrel k hk =>
    Disk.write_outside (.inl (by simpa using fatAddr_lt_data hi hrel hk c 0))
  refine ⟨⟨fun rel hrel hs i hi k hk => ?_, fun rel hs hd k hk => ?_, h.inside⟩, fun d hd => ?_⟩
  · rw [hfat i hi rel hrel k hk, hfat 0 (by decide) rel hrel k hk]
    exact h.agree rel hrel hs i hi k hk
  · rw [hfat 0 (by decide) rel (h.inside rel hs) k hk]
    exact h.clean rel hs hd k hk
  · have hd' : get32 (writeCluster G c data fs).disk (G.fatAddr 0 0 + d * 4) =
        get32 fs.disk (G.fatAddr 0 0 + d * 4) := by
      refine get32_congr fun k hk => ?_
      rw [fatAddr_entry, add_assoc]
      exact hfat 0 (by decide) _ hd _ (by omega)
    rw [entry, entry, hd']
    rfl

theorem cdata_writeCluster_on {j : ℕ} (hc : 2 ≤ c) (h : j * G.bytesPerCluster + k < data.length) :
    cdata G (writeCluster G c data fs) (c + j) k = data[j * G.bytesPerCluster + k] := by
  rw [cdata, clusterAddr_add hc, add_assoc]
  exact Disk.write_inside h

theorem cdata_writeCluster_off {run : ℕ} (hc : 2 ≤ c) (hd : 2 ≤ d) (hk : k < G.bytesPerCluster)
    (hlen : data.length ≤ run * G.bytesPerCluster) (h : d < c ∨ c + run ≤ d) :
    cdata G (writeCluster G c data fs) d k = cdata G fs d k := by
  refine Disk.write_outside ?_
  rcases h with h | h
  · have := clusterAddr_lt (G := G) hd h
    exact .inl (by omega)
  · obtain ⟨j, rfl⟩ := Nat.exists_eq_add_of_le h
    rw [add_assoc, clusterAddr_add hc, add_mul]
    exact .inr (by omega)

structure Takes (G : Geometry) (zeroFill : Bool) (c : ℕ) (fs fs' : Fs) : Prop where
  valid : Valid G c
  free : entry G fs c = 0
  cache : CacheOk G fs'
  entry : ∀ d, InTable G d → entry G fs' d = if d = c then eoc else entry G fs d
  data : ∀ d k, Valid G d → k < G.bytesPerCluster → d ≠ c → cdata G fs' d k = cdata G fs d k
  zero : zeroFill = true → ∀ k < G.bytesPerCluster, cdata G fs' c k = 0

theorem CacheOk.hints (h : CacheOk G fs) (hint count : ℕ) :
    CacheOk G { fs with nextFreeHint := hint, freeCount := count } :=
  ⟨h.agree, h.clean, h.inside⟩

theorem exists_add_mod (a : ℕ) {n x : ℕ} (hx : x < n) : ∃ j < n, (a + j) % n = x := by
  have hn : 0 < n := by omega
  refine ⟨(x + (n - a % n)) % n, Nat.mod_lt _ hn, ?_⟩
  have hmod := Nat.mod_lt a hn
  have hdiv := Nat.div_add_mod a n
  rw [Nat.add_mod_mod, show a + (x + (n - a % n)) = x + n * (a / n + 1) by
    rw [mul_add, mul_one]; omega,
    Nat.add_mul_mod_self_left, Nat.mod_eq_of_lt hx]

theorem getElem?_append_new {l : List ℕ} (h : (l ++ [c])[i]? = some d) :
    l[i]? = some d ∨ i = l.length ∧ d = c := by
  rcases lt_or_ge i l.length with hi | hi
  · rw [List.getElem?_append_left hi] at h
    exact .inl h
  · rw [List.getElem?_append_right hi] at h
    have hlt : i - l.length < 1 := by simpa using (List.getElem?_eq_some_iff.mp h).1
    obtain rfl : i = l.length := by omega
    simp at h
    exact .inr ⟨rfl, h.symm⟩

structure Advances (G : Geometry) (zeroFill : Bool) (i next : ℕ) (fs fs' : Fs) (l l' : List ℕ) :
    Prop where
  grows : Grows G fs fs' l l'
  follows : l'[i + 1]? = some next
  keeps : ∀ c ∈ l, ∀ k < G.bytesPerCluster, cdata G fs' c k = cdata G fs c k
  new : l' = l ∨ l' = l ++ [next] ∧ l.length = i + 1 ∧
    (zeroFill = true → ∀ k < G.bytesPerCluster, cdata G fs' next k = 0)

variable (hG : G.Ok)
include hG

theorem Geometry.Ok.inTable (h : Valid G c) : InTable G c := by
  have := hG.table
  have := h.2
  rw [InTable]
  omega

theorem Geometry.Ok.mask (h : Valid G c) : c &&& clusterMask = c := by
  have := hG.small
  have := h.2
  rw [clusterMask, show 0x0FFFFFFF = 2 ^ 28 - 1 by decide, Nat.and_two_pow_sub_one_eq_mod]
  exact Nat.mod_eq_of_lt (by omega)

theorem Geometry.Ok.not_eoc (h : Valid G c) : isEoc c = false := by
  have := hG.small
  have := h.2
  rw [isEoc, hG.mask h, eocMin, decide_eq_false_iff_not]
  omega

theorem Geometry.Ok.bytes_pos : 0 < G.bytesPerCluster :=
  Nat.mul_pos (by decide) hG.cluster_pos

theorem Chain.same (h : Chain G fs l) (hs : Same G fs fs') : Chain G fs' l :=
  h.congr fun c hc => hs.entry c (hG.inTable (h.valid c hc))

theorem Grows.of_same (h : Chain G fs l) (hs : Same G fs fs') : Grows G fs fs' l l where
  cache := hs.cache
  chain := h.same hG hs
  ext := ⟨[], (append_nil l).symm, fun _ hc => absurd hc not_mem_nil⟩
  entry c hc _ := hs.entry c hc
  data c k _ _ _ := hs.data c k

theorem Grows.trans (h : Grows G fs fs' l l') (h' : Grows G fs' fs'' l' l'') :
    Grows G fs fs'' l l'' := by
  obtain ⟨new, rfl, hfree⟩ := h.ext
  obtain ⟨new', rfl, hfree'⟩ := h'.ext
  have hold : ∀ c, c ∉ l ++ new ++ new' → c ∉ l ++ new := fun c hc hm => hc (mem_append_left _ hm)
  refine ⟨h'.cache, h'.chain, ⟨new ++ new', by rw [append_assoc], ?_⟩, ?_, ?_⟩
  · intro c hc
    rcases mem_append.mp hc with hc | hc
    · exact hfree c hc
    · -- a cluster taken later was untouched before
      have hnot : c ∉ l ++ new := fun hm => (disjoint_of_nodup_append h'.chain.nodup) hm hc
      have hv := hG.inTable (h'.chain.valid c (mem_append_right _ hc))
      rw [← h.entry c hv hnot]
      exact hfree' c hc
  · intro c hc hn
    rw [h'.entry c hc hn, h.entry c hc (hold c hn)]
  · intro c k hc hk hn
    rw [h'.data c k hc hk hn, h.data c k hc hk (hold c hn)]

/-! Taking a cluster. -/

theorem Takes.of_same (hs : Same G fs fs') (h : Takes G zeroFill c fs' fs'') :
    Takes G zeroFill c fs fs'' where
  valid := h.valid
  free := (hs.entry c (hG.inTable h.valid)).symm.trans h.free
  cache := h.cache
  entry d hd := by rw [h.entry d hd, hs.entry d hd]
  data d k hd hk hne := by rw [h.data d k hd hk hne, hs.data d k]
  zero := h.zero

theorem take_free {hint count : ℕ} (h : CacheOk G fs) (hc : Valid G c) (hfree : entry G fs c = 0)
    (zeroFill : Bool) : Takes G zeroFill c fs
      (let fs := { fatWriteEntry G c eoc fs with nextFreeHint := hint, freeCount := count }
       if zeroFill then writeCluster G c (zeros G.bytesPerCluster) fs else fs) := by
  have hput := fatWriteEntry_spec h (hG.inTable hc) (show eoc &&& clusterMask = eoc by decide)
  cases zeroFill with
  | false => exact ⟨hc, hfree, hput.cache.hints _ _, hput.entry, fun d k _ _ _ =>
    hput.data d k, fun h => by cases h⟩
  | true =>
    obtain ⟨hcache, hentry⟩ := writeCluster_table (hput.cache.hints hint count) c
      (zeros G.bytesPerCluster)
    have hlen : (zeros G.bytesPerCluster).length = G.bytesPerCluster := length_replicate
    refine ⟨hc, hfree, hcache, fun d hd => (hentry d hd).trans (hput.entry d hd),
      fun d k hd hk hne => ?_, fun _ k hk => ?_⟩
    · refine (cdata_writeCluster_off hc.1 hd.1 hk
        (show _ ≤ 1 * G.bytesPerCluster by rw [hlen, one_mul]) (by omega)).trans ?_
      exact hput.data d k
    · have hk' : 0 * G.bytesPerCluster + k < (zeros G.bytesPerCluster).length := by
        rwa [hlen, zero_mul, zero_add]
      exact (cdata_writeCluster_on hc.1 hk').trans (getElem_replicate _)

/-- The search takes a free entry of the table, or there is none. -/
theorem allocateFrom_spec (mem : Memory) (zeroFill : Bool) (start k i : ℕ) (h : CacheOk G fs) :
    let r := allocateFrom G mem zeroFill start k i fs
    (r.1 = 0 ∧ Same G fs r.2 ∧ ∀ j < k, entry G fs (2 + (start - 2 + i + j) % G.totalClusters) ≠
    0) ∨
      Takes G (zeroFill && mem.zeros r.1) r.1 fs r.2 := by
  induction k generalizing i fs with
  | zero => exact .inl ⟨rfl, Same.refl h, fun j hj => by omega⟩
  | succ k ih =>
    have hc : Valid G (2 + (start - 2 + i) % G.totalClusters) :=
      ⟨Nat.le_add_right _ _, by have := Nat.mod_lt (start - 2 + i) hG.total_pos; omega⟩
    obtain ⟨hv, hs⟩ := fatReadEntry_spec h (hG.inTable hc)
    rw [allocateFrom]
    dsimp only
    by_cases h0 : (fatReadEntry G (2 + (start - 2 + i) % G.totalClusters) fs).1 = 0
    · rw [if_pos h0]
      refine .inr (Takes.of_same hG hs ?_)
      refine take_free hG hs.cache hc ?_ _
      rw [hs.entry _ (hG.inTable hc), ← hv, h0]
    rw [if_neg h0]
    rcases ih (i + 1) hs.cache with ⟨hr, hsame, hall⟩ | htake
    · refine .inl ⟨hr, hs.trans hsame, fun j hj => ?_⟩
      cases j with
      | zero => rwa [add_zero, ← hv]
      | succ j =>
        have hnext := hall j (by omega)
        rw [show start - 2 + (i + 1) + j = start - 2 + i + (j + 1) by omega] at hnext
        have hc' : Valid G (2 + (start - 2 + i + (j + 1)) % G.totalClusters) :=
          ⟨Nat.le_add_right _ _,
            by have := Nat.mod_lt (start - 2 + i + (j + 1)) hG.total_pos; omega⟩
        rwa [hs.entry _ (hG.inTable hc')] at hnext
    · exact .inr (Takes.of_same hG hs htake)

theorem allocateClusterEx_spec (mem : Memory) (zeroFill : Bool) (h : CacheOk G fs) :
    let r := allocateClusterEx G mem zeroFill fs
    (r.1 = 0 ∧ Same G fs r.2 ∧ Full G fs) ∨ Takes G (zeroFill && mem.zeros r.1) r.1 fs r.2 := by
  rcases allocateFrom_spec hG mem zeroFill (max fs.nextFreeHint 2) G.totalClusters 0 h
    with ⟨hr, hs, hall⟩ | htake
  · refine .inl ⟨hr, hs, fun c hc => ?_⟩
    obtain ⟨j, hj, hmod⟩ := exists_add_mod (max fs.nextFreeHint 2 - 2 + 0)
        (show c - 2 < G.totalClusters by
      have := hc.1; have := hc.2; omega)
    have := hall j hj
    rwa [hmod, show 2 + (c - 2) = c by have := hc.1; omega] at this
  · exact .inr htake

/-! The next cluster of a chain. -/

/-- A cluster put behind the last makes the chain longer by one. -/
theorem grows_append {last nc : ℕ} (hl : Chain G fs l) (hi : l[i]? = some last)
    (hlast : l[i + 1]? = none) (ht : Takes G zeroFill nc fs fs') (hp : Puts G last nc fs' fs'') :
    Grows G fs fs'' l (l ++ [nc]) := by
  have hfresh : nc ∉ l := fun hm => hl.entry_ne_zero hm ht.free
  have hlen : l.length = i + 1 := by
    have h1 := (List.getElem?_eq_some_iff.mp hi).1
    have h2 := List.getElem?_eq_none_iff.mp hlast
    omega
  have hnl : nc ≠ last := fun e => hfresh (e ▸ mem_of_getElem? hi)
  have hentry : ∀ d, InTable G d → entry G fs'' d = if d = last then nc else if d = nc then eoc
      else entry G fs d := by
    intro d hd
    rw [hp.entry d hd, ht.entry d hd]
  refine ⟨hp.cache, ⟨fun c hc => ?_, ?_, fun j c hj => ?_⟩, ⟨[nc], rfl, fun c hc => ?_⟩,
    fun c hc hn => ?_, fun c k hc hk hn => ?_⟩
  · rcases mem_append.mp hc with hc | hc
    · exact hl.valid c hc
    · rw [mem_singleton.mp hc]
      exact ht.valid
  · rw [nodup_append']
    exact ⟨hl.nodup, nodup_singleton nc, disjoint_singleton.mpr hfresh⟩
  · rcases getElem?_append_new hj with hj | ⟨rfl, rfl⟩
    · have hv := hG.inTable (hl.valid c (mem_of_getElem? hj))
      have hcn : c ≠ nc := fun e => hfresh (e ▸ mem_of_getElem? hj)
      rw [hentry c hv]
      by_cases hji : j = i
      · subst hji
        obtain rfl := Option.some.inj (hj.symm.trans hi)
        rw [if_pos rfl, List.getElem?_append_right (by omega), hlen, Nat.sub_self]
        rfl
      · have hjl := (List.getElem?_eq_some_iff.mp hj).1
        have hcl : c ≠ last := by
          rintro rfl
          exact hji ((List.getElem?_inj hjl hl.nodup).mp (hj.trans hi.symm))
        rw [if_neg hcl, if_neg hcn, List.getElem?_append_left (by omega)]
        exact hl.linked j c hj
    · rw [hentry c (hG.inTable ht.valid), if_neg hnl, if_pos rfl, List.getElem?_eq_none (by simp)]
      rfl
  · rw [mem_singleton.mp hc]
    exact ht.free
  · have hcl : c ≠ last := fun e => hn (mem_append_left _ (e ▸ mem_of_getElem? hi))
    have hcn : c ≠ nc := fun e => hn (mem_append_right _ (e ▸ mem_singleton_self c))
    rw [hentry c hc, if_neg hcl, if_neg hcn]
  · have hcn : c ≠ nc := fun e => hn (mem_append_right _ (e ▸ mem_singleton_self c))
    rw [hp.data, ht.data c k hc hk hcn]

/-- The next cluster of a chain, which is longer where it had none. -/
theorem chainNextOrAlloc_spec {mem : Memory} (hmem : ∀ c, mem.zeros c = true) (h : CacheOk G fs)
    (hl : Chain G fs l) {cluster : ℕ} (hi : l[i]? = some cluster) (zeroFill : Bool) :
    let r := chainNextOrAlloc G mem cluster zeroFill fs
    (r.1 = 0 ∧ Same G fs r.2 ∧ Full G fs) ∨ (r.1 ≠ 0 ∧
    ∃ l', Advances G zeroFill i r.1 fs r.2 l l') := by
  have hin := hG.inTable (hl.valid cluster (mem_of_getElem? hi))
  obtain ⟨hv, hs⟩ := fatReadEntry_spec h hin
  have hlink := hl.linked i cluster hi
  rw [chainNextOrAlloc]
  dsimp only
  cases hn : l[i + 1]? with
  | some d =>
    rw [hn, Option.getD_some] at hlink
    have hd := hl.valid d (mem_of_getElem? hn)
    rw [hv, hlink, if_pos ⟨by rw [hG.not_eoc hd]; decide, hd.1⟩]
    refine .inr ⟨fun h0 => ?_, l, .of_same hG hl hs, hn, fun c _ k _ => hs.data c k, .inl rfl⟩
    have := hd.1
    omega
  | none =>
    rw [hn, Option.getD_none] at hlink
    have hlast : ¬(¬isEoc (fatReadEntry G cluster fs).1 = true ∧
        2 ≤ (fatReadEntry G cluster fs).1) := by
      rw [hv, hlink, isEoc_eoc]
      exact fun hc => hc.1 rfl
    rw [if_neg hlast]
    rcases allocateClusterEx_spec hG mem zeroFill hs.cache with ⟨hr, hsame, hfull⟩ | htake
    · rw [if_pos hr]
      refine .inl ⟨rfl, hs.trans hsame, fun c hc => ?_⟩
      rw [← hs.entry c (hG.inTable hc)]
      exact hfull c hc
    have hne : (allocateClusterEx G mem zeroFill (fatReadEntry G cluster fs).2).1 ≠ 0 := by
      have := htake.valid.1; omega
    have ht := Takes.of_same hG hs htake
    have hp := fatWriteEntry_spec htake.cache hin (hG.mask htake.valid)
    have hfresh : (allocateClusterEx G mem zeroFill (fatReadEntry G cluster fs).2).1 ∉ l :=
      fun hm => hl.entry_ne_zero hm ht.free
    rw [if_neg hne]
    refine .inr ⟨hne, _, grows_append hG hl hi hn ht hp, ?_, fun c hc k hk =>
      ?_, .inr ⟨rfl, ?_, fun hz k hk => ?_⟩⟩
    · have h1 := (List.getElem?_eq_some_iff.mp hi).1
      have h2 := List.getElem?_eq_none_iff.mp hn
      rw [show i + 1 = l.length by omega]
      simp
    · rw [hp.data]
      exact ht.data c k (hl.valid c hc) hk fun e => hfresh (e ▸ hc)
    · have h1 := (List.getElem?_eq_some_iff.mp hi).1
      have h2 := List.getElem?_eq_none_iff.mp hn
      omega
    · rw [hp.data]
      exact ht.zero (by rw [hz, hmem]; rfl) k hk

end Cervus.Fat32
