import Cervus.Fat32.Write

/-! Files on a volume that `fat32_format` made, with one open vnode each, refine arrays of bytes. -/

namespace Cervus.Fat32

open List Option Disk
open Function (update update_apply update_of_ne update_self)

/-! The volume. -/

def firstFat : List Byte := put32 0x0FFFFFF8 ++ put32 0x0FFFFFFF ++ put32 eoc ++ zeros 500

def formatFsinfo (G : Geometry) (a : ℕ) (d : ℕ → Byte) : ℕ → Byte :=
  let d := write d a (zeros 512)
  let d := write d a (put32 0x41615252)
  let d := write d (a + 484) (put32 0x61417272)
  let d := write d (a + 488) (put32 (G.totalClusters - 1))
  let d := write d (a + 492) (put32 3)
  write d (a + 508) (put32 0xAA550000)

def clear (d : ℕ → Byte) (a n : ℕ) : ℕ → Byte := fun p => if a ≤ p ∧ p < a + n then 0 else d p

def formatDisk (G : Geometry) (d : ℕ → Byte) : ℕ → Byte :=
  let d := formatFsinfo G (512 * 1) d
  let d := formatFsinfo G (512 * 7) d
  let d := (range numFats).foldl (fun d f => clear d (G.fatAddr f 0) (512 * G.fatSize)) d
  let d := (range numFats).foldl (fun d f => write d (G.fatAddr f 0) firstFat) d
  write d (G.clusterAddr 2) (zeros G.bytesPerCluster)

def mount (G : Geometry) (d : ℕ → Byte) : Fs where
  disk := formatDisk G d
  fatCache _ := 0
  fatCacheSec := none
  fatCacheDirty := false
  nextFreeHint := 3
  freeCount := G.totalClusters - 1

/-! Runs. -/

structure World where
  fs : Fs
  files : ℕ → Option Vdata
  dirs : List ℕ
  spec : ℕ → AFile

inductive Action where
  | create (f dirCluster dirEntryOffset : ℕ)
  | write (f : ℕ) (data : List Byte) (offset : ℕ) (mem : Memory)
  | read (f offset len : ℕ)
  | sync
  | unref (f : ℕ) (now : Option (ℕ × ℕ)) (mem : Memory)
  | mkdir (mem : Memory)
  | growDir (last : ℕ) (mem : Memory)
  | writeDir (c : ℕ) (data : List Byte)

def newVdata (dirCluster dirEntryOffset : ℕ) : Vdata :=
  { firstCluster := 0, dirCluster, dirEntryOffset, fileSize := 0, attr := 0x20
    cachedCluster := 0, cachedIndex := 0, sizeDirty := false, ioBuf := false }

def recordWrite (f : AFile) (data : List Byte) (offset : ℕ) (r : ℤ) : AFile :=
  if r < 0 then f else f.write offset (data.take r.toNat)

def next (G : Geometry) (w : World) : Action → Option World
  | .create f dirCluster dirEntryOffset =>
    if w.files f = none ∧ dirCluster ∈ w.dirs then
      some { w with
        files := update w.files f (some (newVdata dirCluster dirEntryOffset))
        spec := update w.spec f .empty }
    else none
  | .write f data offset mem =>
    (w.files f).map fun vd =>
      let (r, vd, fs) := fat32FileWrite G mem vd data offset w.fs
      { w with
        fs
        files := update w.files f (some vd)
        spec := update w.spec f (recordWrite (w.spec f) data offset r) }
  | .read f offset len => (w.files f).map fun vd =>
    { w with fs := (fat32FileRead G vd offset len w.fs).2 }
  | .sync => some { w with fs := fat32Sync G w.fs }
  | .unref f now mem =>
    (w.files f).map fun vd =>
    { w with fs := fat32CommonUnref G mem vd now w.fs, files := update w.files f none }
  | .mkdir mem =>
    let (c, fs) := allocateClusterEx G mem true w.fs
    some { w with fs, dirs := if c = 0 then w.dirs else c :: w.dirs }
  | .growDir last mem =>
    if last ∈ w.dirs then
      let (c, fs) := allocateClusterEx G mem true w.fs
      some { w with
        fs := if c = 0 then fs else fatWriteEntry G last c fs
        dirs := if c = 0 then w.dirs else c :: w.dirs }
    else none
  | .writeDir c data =>
    if c ∈ w.dirs ∧ data.length = G.bytesPerCluster
      then some { w with fs := writeCluster G c data w.fs } else none

def system (G : Geometry) (d : ℕ → Byte) : System World Action where
  init := { fs := mount G d, files := fun _ => none, dirs := [2], spec := fun _ => .empty }
  next := next G

/-- The calls that count: data to write that ends below 4 GiB, with memory for the zeros of every
new cluster, and room for what is read. -/
def Call : World → Action → Prop
  | _, .write _ data offset mem => data ≠ [] ∧ offset + data.length < 2 ^ 32 ∧
    ∀ c, mem.zeros c = true
  | _, .read _ _ len => len < 2 ^ 63
  | _, _ => True

/-! The invariant. -/

structure Inv (G : Geometry) (w : World) (chain : ℕ → List ℕ) : Prop where
  cache : CacheOk G w.fs
  stores : ∀ f vd, w.files f = some vd → Stores G w.fs vd (chain f) (w.spec f)
  home : ∀ f vd, w.files f = some vd → vd.dirCluster ∈ w.dirs
  dirs : ∀ c ∈ w.dirs, Valid G c ∧ entry G w.fs c ≠ 0
  apart : ∀ c ∈ w.dirs, ∀ f vd, w.files f = some vd → c ∉ chain f
  disjoint : ∀ f g vd vd', f ≠ g → w.files f = some vd → w.files g = some vd' →
    (chain f).Disjoint (chain g)

variable {G : Geometry} {w : World} {chain : ℕ → List ℕ} {fs fs' : Fs} {l l' : List ℕ}

theorem Stores.frame {vd : Vdata} {f : AFile} (h : Stores G fs vd l f)
    (he : ∀ c ∈ l, entry G fs' c = entry G fs c)
    (hd : ∀ c ∈ l, ∀ k < G.bytesPerCluster, cdata G fs' c k = cdata G fs c k) :
    Stores G fs' vd l f :=
  { h with
    chain := h.chain.congr he
    holds := fun i c hi hb k hk => (hd c (mem_of_getElem? hi) k hk).trans (h.holds i c hi hb k hk) }

variable {c f i : ℕ} {data : List Byte}

section
variable (hG : G.Ok) (h : Inv G w chain)
include h

theorem Inv.frame (hcache : CacheOk G fs') (hdir : ∀ c ∈ w.dirs, entry G fs' c ≠ 0)
    (he : ∀ f vd, w.files f = some vd → ∀ c ∈ chain f, entry G fs' c = entry G w.fs c)
    (hd : ∀ f vd, w.files f = some vd → ∀ c ∈ chain f, ∀ k < G.bytesPerCluster,
    cdata G fs' c k = cdata G w.fs c k) :
    Inv G { w with fs := fs' } chain where
  cache := hcache
  stores f vd hf := (h.stores f vd hf).frame (he f vd hf) (hd f vd hf)
  home := h.home
  dirs c hc := ⟨(h.dirs c hc).1, hdir c hc⟩
  apart := h.apart
  disjoint := h.disjoint

/-- One file has a new content or a new chain, and nothing else has changed. -/
theorem Inv.set {vd' : Vdata} {a : AFile} (hcache : CacheOk G fs') (hs : Stores G fs' vd' l' a)
    (hhome : vd'.dirCluster ∈ w.dirs) (hdirs : ∀ c ∈ w.dirs, entry G fs' c ≠ 0 ∧ c ∉ l')
    (hother : ∀ g ≠ f, ∀ vg, w.files g = some vg → Stores G fs' vg (chain g) (w.spec g) ∧
    (chain g).Disjoint l') :
    Inv G { w with fs := fs', files := update w.files f (some vd'), spec := update w.spec f a }
      (update chain f l') := by
  have hcase : ∀ {g vg}, update w.files f (some vd') g = some vg → (g = f ∧ vg = vd') ∨ g ≠ f ∧
      w.files g = some vg := by
    intro g vg hg
    rw [update_apply] at hg
    split_ifs at hg with hgf
    · exact .inl ⟨hgf, (some.inj hg).symm⟩
    · exact .inr ⟨hgf, hg⟩
  refine ⟨hcache, fun g vg hg => ?_, fun g vg hg => ?_, fun c hc =>
    ⟨(h.dirs c hc).1, (hdirs c hc).1⟩,
    fun c hc g vg hg => ?_, fun g g' vg vg' hne hg hg' => ?_⟩
  · rcases hcase hg with ⟨rfl, rfl⟩ | ⟨hgf, hg⟩
    · simpa only [update_self] using hs
    · simpa only [update_of_ne hgf] using (hother g hgf vg hg).1
  · rcases hcase hg with ⟨rfl, rfl⟩ | ⟨-, hg⟩
    · exact hhome
    · exact h.home g vg hg
  · rcases hcase hg with ⟨rfl, rfl⟩ | ⟨hgf, hg⟩
    · rw [update_self]
      exact (hdirs c hc).2
    · rw [update_of_ne hgf]
      exact h.apart c hc g vg hg
  · rcases hcase hg with ⟨rfl, rfl⟩ | ⟨hgf, hgv⟩
    · rw [update_self, update_of_ne hne.symm]
      exact (hother g' hne.symm vg' ((hcase hg').resolve_left fun he => hne he.1.symm).2).2.symm
    · rw [update_of_ne hgf]
      rcases hcase hg' with ⟨rfl, rfl⟩ | ⟨hgf', hg'⟩
      · rw [update_self]
        exact (hother g hgf vg hgv).2
      · rw [update_of_ne hgf']
        exact h.disjoint g g' vg vg' hne hgv hg'

theorem Inv.drop (f : ℕ) : Inv G { w with files := update w.files f none } chain := by
  have hold : ∀ g vd, update w.files f none g = some vd → w.files g = some vd := by
    intro g vd hg
    rw [update_apply] at hg
    split_ifs at hg
    exact hg
  exact ⟨h.cache, fun g vd hg => h.stores g vd (hold g vd hg), fun g vd hg =>
    h.home g vd (hold g vd hg), h.dirs,
    fun c hc g vd hg => h.apart c hc g vd (hold g vd hg),
    fun g g' vd vd' hne hg hg' => h.disjoint g g' vd vd' hne (hold g vd hg) (hold g' vd' hg')⟩

theorem Inv.create {dirCluster : ℕ} (hdir : dirCluster ∈ w.dirs) (dirEntryOffset : ℕ) :
    Inv G { w with
      files := update w.files f (some (newVdata dirCluster dirEntryOffset))
      spec := update w.spec f .empty } (update chain f []) := by
  have hempty : Stores G w.fs (newVdata dirCluster dirEntryOffset) [] .empty :=
    ⟨⟨fun c hc => absurd hc not_mem_nil, nodup_nil, fun i c hi => by cases hi⟩, rfl, .inl rfl,
      rfl, by decide,
      Nat.zero_le _, fun i c hi => by cases hi⟩
  exact h.set h.cache hempty hdir (fun c hc => ⟨(h.dirs c hc).2, not_mem_nil⟩)
    fun g _ vg hg => ⟨h.stores g vg hg, disjoint_nil_right _⟩

include hG

theorem Inv.same (hs : Same G w.fs fs') : Inv G { w with fs := fs' } chain := by
  refine h.frame hs.cache (fun c hc => ?_) (fun f vd hf c hc => ?_) fun f vd hf c _ k _ =>
    hs.data c k
  · rw [hs.entry c (hG.inTable (h.dirs c hc).1)]
    exact (h.dirs c hc).2
  · exact hs.entry c (hG.inTable ((h.stores f vd hf).chain.valid c hc))

theorem Inv.grow {vd vd' : Vdata} {a : AFile} (hf : w.files f = some vd)
    (hg : Grows G w.fs fs' (chain f) l') (hs : Stores G fs' vd' l' a)
    (hdir : vd'.dirCluster = vd.dirCluster) :
    Inv G { w with fs := fs', files := update w.files f (some vd'), spec := update w.spec f a }
      (update chain f l') := by
  obtain ⟨new, rfl, hfree⟩ := hg.ext
  refine h.set hg.cache hs (hdir ▸ h.home f vd hf) (fun c hc => ?_) fun g hgf vg hgv => ?_
  · have hd := h.dirs c hc
    have hmiss : c ∉ chain f ++ new := fun hm =>
      (mem_append.mp hm).elim (h.apart c hc f vd hf) fun hm => hd.2 (hfree c hm)
    exact ⟨by rw [hg.entry c (hG.inTable hd.1) hmiss]; exact hd.2, hmiss⟩
  · have hold := h.stores g vg hgv
    have hmiss : (chain g).Disjoint (chain f ++ new) := fun c hc hm =>
      (mem_append.mp hm).elim (h.disjoint g f vg vd hgf hgv hf hc) fun hm =>
        hold.chain.entry_ne_zero hc (hfree c hm)
    refine ⟨hold.frame (fun c hc => ?_) fun c hc k hk => ?_, hmiss⟩
    · exact hg.entry c (hG.inTable (hold.chain.valid c hc)) (hmiss hc)
    · exact hg.data c k (hold.chain.valid c hc) hk (hmiss hc)

theorem Inv.take {zeroFill : Bool} (ht : Takes G zeroFill c w.fs fs') :
    Inv G { w with fs := fs', dirs := c :: w.dirs } chain := by
  have hfile : ∀ f vd, w.files f = some vd → ∀ d ∈ chain f, d ≠ c := by
    rintro f vd hf d hd rfl
    exact (h.stores f vd hf).chain.entry_ne_zero hd ht.free
  have hdirs : ∀ d ∈ w.dirs, d ≠ c := by
    rintro d hd rfl
    exact (h.dirs d hd).2 ht.free
  have hfr : Inv G { w with fs := fs' } chain := by
    refine h.frame ht.cache (fun d hd => ?_) (fun f vd hf d hd => ?_) fun f vd hf d hd k hk => ?_
    · rw [ht.entry d (hG.inTable (h.dirs d hd).1), if_neg (hdirs d hd)]
      exact (h.dirs d hd).2
    · rw [ht.entry d (hG.inTable ((h.stores f vd hf).chain.valid d hd)),
        if_neg (hfile f vd hf d hd)]
    · exact ht.data d k ((h.stores f vd hf).chain.valid d hd) hk (hfile f vd hf d hd)
  refine ⟨hfr.cache, hfr.stores, fun f vd hf => .tail _ (h.home f vd hf), fun d hd =>
    ?_, fun d hd f vd hf => ?_, hfr.disjoint⟩
  · rcases mem_cons.mp hd with rfl | hd
    · refine ⟨ht.valid, ?_⟩
      rw [ht.entry d (hG.inTable ht.valid), if_pos rfl]
      decide
    · exact hfr.dirs d hd
  · rcases mem_cons.mp hd with rfl | hd
    · exact fun hm => hfile f vd hf d hm rfl
    · exact h.apart d hd f vd hf

theorem Inv.link {last : ℕ} (hlast : last ∈ w.dirs) (hc : 2 ≤ c)
    (hp : Puts G last c w.fs fs') : Inv G { w with fs := fs' } chain := by
  refine h.frame hp.cache (fun d hd => ?_) (fun f vd hf d hd => ?_) fun f vd hf d hd k hk =>
    hp.data d k
  · rw [hp.entry d (hG.inTable (h.dirs d hd).1)]
    split_ifs
    · omega
    · exact (h.dirs d hd).2
  · rw [hp.entry d (hG.inTable ((h.stores f vd hf).chain.valid d hd)), if_neg]
    rintro rfl
    exact h.apart d hlast f vd hf hd

theorem Inv.write_dir (hc : c ∈ w.dirs) (hlen : data.length = G.bytesPerCluster) :
    Inv G { w with fs := writeCluster G c data w.fs } chain := by
  obtain ⟨hcache, hentry⟩ := writeCluster_table h.cache c data
  refine h.frame hcache (fun d hd => ?_) (fun f vd hf d hd => ?_) fun f vd hf d hd k hk => ?_
  · rw [hentry d (hG.inTable (h.dirs d hd).1)]
    exact (h.dirs d hd).2
  · exact hentry d (hG.inTable ((h.stores f vd hf).chain.valid d hd))
  · have hne : d ≠ c := by
      rintro rfl
      exact h.apart d hc f vd hf hd
    exact cdata_writeCluster_off (h.dirs c hc).1.1 ((h.stores f vd hf).chain.valid d hd).1 hk
      (show data.length ≤ 1 * G.bytesPerCluster by omega) (by omega)

/-- Every call keeps the files apart and each stored as its array. -/
theorem next_inv {a : Action} {w' : World} (hok : Call w a) (hn : next G w a = some w') :
    ∃ chain', Inv G w' chain' := by
  cases a with
  | create f dirCluster dirEntryOffset =>
    obtain ⟨⟨-, hdir⟩, hw⟩ := ite_none_right_eq_some.mp hn
    cases hw
    exact ⟨_, h.create hdir dirEntryOffset⟩
  | write f data offset mem =>
    obtain ⟨vd, hf, rfl⟩ := map_eq_some_iff.mp hn
    obtain ⟨hdata, hend, hmem⟩ := hok
    obtain ⟨r, vd', fs', l', hw, hg, hdir, hres⟩ :=
      fat32FileWrite_spec hG hmem h.cache (h.stores f vd hf) hdata hend
    refine ⟨update chain f l', ?_⟩
    simp only [hw]
    rcases hres with ⟨rfl, -, hs⟩ | ⟨rfl, -, hs⟩ | ⟨n, rfl, -, -, -, hs⟩
    · rw [recordWrite, if_pos (by decide)]
      exact h.grow hG hf hg hs hdir
    · rw [recordWrite, if_pos (by decide)]
      exact h.grow hG hf hg hs hdir
    · rw [recordWrite, if_neg (by omega), Int.toNat_natCast]
      exact h.grow hG hf hg hs hdir
  | read f offset len =>
    obtain ⟨vd, hf, rfl⟩ := map_eq_some_iff.mp hn
    exact ⟨chain, h.same hG (fat32FileRead_spec hG h.cache (h.stores f vd hf) offset hok).2⟩
  | sync =>
    cases hn
    exact ⟨chain, h.same hG (fat32Sync_same h.cache)⟩
  | unref f now mem =>
    obtain ⟨vd, hf, rfl⟩ := map_eq_some_iff.mp hn
    refine ⟨chain, Inv.drop (w := { w with fs := fat32CommonUnref G mem vd now w.fs }) ?_ f⟩
    rw [fat32CommonUnref]
    split_ifs
    · have hlen : (read (updateDirent vd now fun i => w.fs.disk (G.clusterAddr vd.dirCluster + i)) 0
          G.bytesPerCluster).length = G.bytesPerCluster := Disk.length_read
      have hwd := h.write_dir hG (h.home f vd hf) hlen
      exact Inv.same (w := { w with fs := writeCluster G vd.dirCluster _ w.fs })
        hG hwd (fat32Sync_same hwd.cache)
    · exact h.same hG (fat32Sync_same h.cache)
    · exact h
  | mkdir mem =>
    rw [next] at hn
    dsimp only at hn
    cases hn
    rcases allocateClusterEx_spec hG mem true h.cache with ⟨hr, hs, -⟩ | ht
    · rw [if_pos hr]
      exact ⟨chain, h.same hG hs⟩
    · rw [if_neg (by have := ht.valid.1; omega)]
      exact ⟨chain, h.take hG ht⟩
  | growDir last mem =>
    rw [next] at hn
    obtain ⟨hlast, hw⟩ := ite_none_right_eq_some.mp hn
    dsimp only at hw
    cases hw
    rcases allocateClusterEx_spec hG mem true h.cache with ⟨hr, hs, -⟩ | ht
    · simp only [if_pos hr]
      exact ⟨chain, h.same hG hs⟩
    · have hne : (allocateClusterEx G mem true w.fs).1 ≠ 0 := by have := ht.valid.1; omega
      simp only [if_neg hne]
      refine ⟨chain, (h.take hG ht).link hG (.tail _ hlast) ht.valid.1 ?_⟩
      exact fatWriteEntry_spec ht.cache (hG.inTable (h.dirs last hlast).1) (hG.mask ht.valid)
  | writeDir c data =>
    obtain ⟨⟨hc, hlen⟩, hw⟩ := ite_none_right_eq_some.mp hn
    cases hw
    exact ⟨chain, h.write_dir hG hc hlen⟩

end

/-! The volume that `fat32_format` makes. -/

theorem fatSizeFrom_spec {dataSectors spc fuel first fatSize clusters : ℕ}
    (h : fatSizeFrom dataSectors spc fuel first = some (fatSize, clusters)) :
    clusters ≤ dataSectors / spc ∧ ((clusters + 2) * 4 + 511) / 512 ≤ fatSize := by
  induction fuel generalizing first with
  | zero => cases h
  | succ fuel ih =>
    obtain ⟨-, h⟩ := ite_none_left_eq_some.mp h
    dsimp only at h
    split_ifs at h with h1 h2
    · cases h
      exact ⟨Nat.div_le_div_right (Nat.sub_le _ _), h1⟩
    · exact ih h

theorem fat32Format_ok {n : ℕ} (h : fat32Format n = some G) : G.Ok := by
  rw [fat32Format] at h
  split_ifs at h with hsmall
  dsimp only at h
  split at h
  next => cases h
  next fatSize clusters hsize =>
    split_ifs at h with hcount
    cases h
    obtain ⟨hle, htable⟩ := fatSizeFrom_spec hsize
    have hlt : n % 2 ^ 32 < 2 ^ 32 := Nat.mod_lt _ (by decide)
    have hspc : sectorsPerCluster (n % 2 ^ 32) ≠ 0 ∧
        (n % 2 ^ 32 - reserved) / sectorsPerCluster (n % 2 ^ 32) + 2 ≤ 0x0FFFFFF7 := by
      rw [sectorsPerCluster]
      split_ifs <;> omega
    refine ⟨Nat.pos_of_ne_zero hspc.1, ?_, ?_, ?_⟩
    · dsimp only
      omega
    · dsimp only
      omega
    · dsimp only
      omega

theorem write_fats (hlen : data.length ≤ 512 * G.fatSize) (d : ℕ → Byte) {q : ℕ} (hi : i < numFats)
    (hq : q < 512 * G.fatSize) :
    (range numFats).foldl (fun d f => write d (G.fatAddr f 0) data) d (G.fatAddr i 0 + q) =
      data[q]?.getD (d (G.fatAddr i 0 + q)) := by
  have hi : i < 2 := hi
  have hnext : G.fatAddr 1 0 = G.fatAddr 0 0 + 512 * G.fatSize := by
    rw [Geometry.fatAddr, Geometry.fatAddr]
    omega
  change write (write d (G.fatAddr 0 0) data) (G.fatAddr 1 0) data (G.fatAddr i 0 + q) = _
  interval_cases i
  · rw [Disk.write_outside (.inl (by omega)), write, if_pos (Nat.le_add_right _ _),
      Nat.add_sub_cancel_left]
  · rw [write, if_pos (Nat.le_add_right _ _), Nat.add_sub_cancel_left,
      Disk.write_outside (.inr (by omega))]

theorem clear_fats (d : ℕ → Byte) {q : ℕ} (hi : i < numFats) (hq : q < 512 * G.fatSize) :
    (range numFats).foldl (fun d f => clear d (G.fatAddr f 0) (512 * G.fatSize)) d
    (G.fatAddr i 0 + q) = 0 := by
  have hi : i < 2 := hi
  have hin : G.fatAddr i 0 ≤ G.fatAddr i 0 + q ∧
    G.fatAddr i 0 + q < G.fatAddr i 0 + 512 * G.fatSize := by omega
  change clear (clear d (G.fatAddr 0 0) _) (G.fatAddr 1 0) _ (G.fatAddr i 0 + q) = 0
  interval_cases i
  · rw [clear, clear, if_pos hin, ite_self]
  · rw [clear, if_pos hin]

theorem formatDisk_fat (d : ℕ → Byte) {rel k : ℕ} (hi : i < numFats) (hrel : rel < G.fatSize)
    (hk : k < 512) :
    formatDisk G d (G.fatAddr i rel + k) = firstFat[512 * rel + k]?.getD 0 := by
  have hq : 512 * rel + k < 512 * G.fatSize := by omega
  have haddr : G.fatAddr i rel + k = G.fatAddr i 0 + (512 * rel + k) := by
    rw [Geometry.fatAddr, Geometry.fatAddr]
    omega
  have hfirst : firstFat.length ≤ 512 * G.fatSize := by
    simp only [firstFat, put32, zeros, length_append, length_cons, length_nil, length_replicate]
    omega
  rw [formatDisk]
  rw [Disk.write_outside (.inl (by simpa using fatAddr_lt_data hi hrel hk 2 0)), haddr,
    write_fats hfirst _ hi hq,
    clear_fats _ hi hq]

theorem init_inv (hG : G.Ok) (d : ℕ → Byte) : Inv G (system G d).init fun _ => [] := by
  have htwo : Valid G 2 := ⟨le_refl _, by have := hG.total_pos; omega⟩
  have hcache : CacheOk G (mount G d) := by
    refine ⟨fun rel hrel _ i hi k hk => ?_, fun rel hs => (nomatch hs), fun rel hs => (nomatch hs)⟩
    exact (formatDisk_fat d hi hrel hk).trans (formatDisk_fat d (by decide) hrel hk).symm
  have hin : 0 < G.fatSize := (Nat.zero_le _).trans_lt (hG.inTable htwo)
  have hbyte : ∀ k < 512, formatDisk G d (G.fatAddr 0 0 + k) = firstFat[k]?.getD 0 := fun k hk => by
    rw [formatDisk_fat d (by decide) hin hk, mul_zero, zero_add]
  have hentry : entry G (mount G d) 2 = eoc := by
    change (formatDisk G d (G.fatAddr 0 0 + 8)).toNat + _ *
      (formatDisk G d (G.fatAddr 0 0 + 9)).toNat +
      _ * (formatDisk G d (G.fatAddr 0 0 + 10)).toNat + _ *
        (formatDisk G d (G.fatAddr 0 0 + 11)).toNat &&& _ = _
    rw [hbyte 8 (by decide), hbyte 9 (by decide), hbyte 10 (by decide), hbyte 11 (by decide)]
    rfl
  exact {
    cache := hcache
    stores := fun f vd hf => (nomatch hf)
    home := fun f vd hf => (nomatch hf)
    dirs := by
      intro c hc
      obtain rfl := mem_singleton.mp hc
      exact ⟨htwo, hentry ▸ by decide⟩
    apart := fun c hc f vd hf => (nomatch hf)
    disjoint := fun f g vd vd' hne hf => (nomatch hf) }

theorem reach_inv (hG : G.Ok) {d : ℕ → Byte} (h : (system G d).Reach Call w) :
    ∃ chain, Inv G w chain := by
  refine System.Reach.invariant (I := fun w => ∃ chain, Inv G w chain) ⟨_, init_inv hG d⟩ ?_ h
  rintro w a w' - ⟨chain, hi⟩ hok hn
  exact next_inv hG hi hok hn

/-! Files refine arrays of bytes. -/

structure Refines (G : Geometry) (w : World) : Prop where
  size : ∀ f vd, w.files f = some vd → vd.fileSize = (w.spec f).size
  read : ∀ f vd offset len, w.files f = some vd → len < 2 ^ 63 →
    (fat32FileRead G vd offset len w.fs).1 = (w.spec f).read offset len
  /-- A write that stores less than it was given has run out of clusters. -/
  write : ∀ f vd data offset mem, w.files f = some vd → data ≠ [] → offset + data.length < 2 ^ 32 →
    (∀ c, mem.zeros c = true) →
    ∃ r vd' fs', fat32FileWrite G mem vd data offset w.fs = (r, vd', fs') ∧
      ((r = -Errno.enospc ∧ Full G fs' ∧ vd'.fileSize = vd.fileSize) ∨
        (r = -Errno.enomem ∧ mem.buffer = false ∧ vd'.fileSize = vd.fileSize) ∨
        ∃ n : ℕ, r = n ∧ 0 < n ∧ n ≤ data.length ∧ (n = data.length ∨ Full G fs') ∧
          vd'.fileSize = max vd.fileSize (offset + n))
  chains : ∃ chain : ℕ → List ℕ,
    (∀ f vd, w.files f = some vd → vd.firstCluster = (chain f).headD 0 ∧ Chain G w.fs (chain f)) ∧
      ∀ f g vd vd', f ≠ g → w.files f = some vd → w.files g = some vd' →
      (chain f).Disjoint (chain g)
  sync : ∀ i < numFats, ∀ rel < G.fatSize, ∀ k < 512,
    (fat32Sync G w.fs).disk (G.fatAddr i rel + k) = (fat32Sync G w.fs).disk (G.fatAddr 0 rel + k)

theorem Inv.refines (hG : G.Ok) (h : Inv G w chain) : Refines G w where
  size f vd hf := (h.stores f vd hf).size
  read f vd offset len hf hlen := (fat32FileRead_spec hG h.cache (h.stores f vd hf) offset hlen).1
  write f vd data offset mem hf hdata hend hmem := by
    obtain ⟨r, vd', fs', l', hw, -, -, hres⟩ :=
      fat32FileWrite_spec hG hmem h.cache (h.stores f vd hf) hdata hend
    have hsize := (h.stores f vd hf).size
    refine ⟨r, vd', fs', hw, ?_⟩
    rcases hres with ⟨hr, hfull, hs⟩ | ⟨hr, hno, hs⟩ | ⟨n, hr, hpos, hle, hall, hs⟩
    · exact .inl ⟨hr, hfull, hs.size.trans hsize.symm⟩
    · exact .inr (.inl ⟨hr, hno, hs.size.trans hsize.symm⟩)
    · refine .inr (.inr ⟨n, hr, hpos, hle, hall, ?_⟩)
      have hlen : (data.take n).length = n := by rw [length_take, min_eq_left hle]
      calc vd'.fileSize = max (w.spec f).size (offset + (data.take n).length) := hs.size
        _ = max vd.fileSize (offset + n) := by rw [hlen, hsize]
  chains := ⟨chain, fun f vd hf => ⟨(h.stores f vd hf).first, (h.stores f vd hf).chain⟩, h.disjoint⟩
  sync _ hi _ hrel _ hk := fat32Sync_agree h.cache hi hrel hk

/-- On a volume that `fat32_format` has made, whatever the device held before, and with memory for
the zeros of new clusters, files are arrays of bytes. -/
theorem files_refine {n : ℕ} (hG : fat32Format n = some G) {d : ℕ → Byte}
    (h : (system G d).Reach Call w) :
    Refines G w := by
  obtain ⟨chain, hi⟩ := reach_inv (fat32Format_ok hG) h
  exact hi.refines (fat32Format_ok hG)

section
/-! A small volume on a device full of 0xE5, and a file with one byte beyond its end. -/

def smallVolume : Geometry := ⟨1, 539, 68890⟩
def oldDevice : System World Action := system smallVolume fun _ => 0xE5
def gapWrite (zeros : Bool) : List Action := [.create 0 2 64, .write 0 [7] 1 ⟨fun _ => zeros, true⟩]

def readBack (w : World) (f offset len : ℕ) : Option (List Byte) :=
  (w.files f).map fun vd => (fat32FileRead smallVolume vd offset len w.fs).1

theorem Refines.readBack {w : World} {f offset len : ℕ} {bs : List Byte} (h : Refines smallVolume w)
    (hlen : len < 2 ^ 63) (hr : readBack w f offset len = some bs) :
    bs = (w.spec f).read offset len := by
  obtain ⟨vd, hf, rfl⟩ := map_eq_some_iff.mp hr
  exact h.read f vd offset len hf hlen

theorem fat32Format_smallVolume : fat32Format 70000 = some smallVolume := by decide +kernel

theorem files_refine_gap : Refines smallVolume (oldDevice.final (gapWrite true)) ∧
    readBack (oldDevice.final (gapWrite true)) 0 0 2 = some [0, 7] := by
  have hok : oldDevice.RunOk Call oldDevice.init (gapWrite true) :=
    ⟨trivial, fun _ _ => ⟨⟨cons_ne_nil _ _, by decide, fun _ => rfl⟩, fun _ _ => trivial⟩⟩
  have hsome : (oldDevice.run oldDevice.init (gapWrite true)).isSome := by decide +kernel
  exact ⟨files_refine fat32Format_smallVolume (System.Reach.final hok hsome), by decide +kernel⟩

/-- Without memory for its zeros a new cluster keeps what the device held, and a read of the gap
returns it. -/
theorem gap_reads_old : (oldDevice.run oldDevice.init (gapWrite false)).isSome ∧
    readBack (oldDevice.final (gapWrite false)) 0 0 2 = some [0xE5, 7] ∧
    ((oldDevice.final (gapWrite false)).spec 0).read 0 2 = [0, 7] ∧
    ¬Refines smallVolume (oldDevice.final (gapWrite false)) := by
  have hread : readBack (oldDevice.final (gapWrite false)) 0 0 2 =
    some [0xE5, 7] := by decide +kernel
  have hspec : ((oldDevice.final (gapWrite false)).spec 0).read 0 2 = [0, 7] := by decide +kernel
  refine ⟨by decide +kernel, hread, hspec, fun h => ?_⟩
  have hsame := (h.readBack (by decide) hread).trans hspec
  exact absurd hsame (by decide)

end

end Cervus.Fat32
