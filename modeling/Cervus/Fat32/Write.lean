import Cervus.Fat32.Read

/-! What `fat32_file_write` stores. A cluster that is taken without being cleared is one that the
next turn of the loop fills. -/

namespace Cervus.Fat32

open List Disk Nat

variable {G : Geometry} {fs fs' : Fs} {l l' : List ℕ} {d : ℕ → Byte} {bad bad' : ℕ → Prop}
  {c cluster i index k off offset pre skipped : ℕ} {data x : List Byte} {vd : Vdata} {f : AFile}
  {done last len n run : ℕ}

theorem HoldsBut.mono (h : HoldsBut G fs l d bad) (hb : ∀ i, bad i → bad' i) :
    HoldsBut G fs l d bad' :=
  fun i c hi hn => h i c hi fun hbad => hn (hb i hbad)

theorem Grows.length_le (h : Grows G fs fs' l l') : l.length ≤ l'.length := by
  obtain ⟨new, rfl, -⟩ := h.ext
  simp

/-- The chain `l` stores `d` up to its end but for the clusters in `bad`. -/
structure Backed (G : Geometry) (fs : Fs) (l : List ℕ) (d : ℕ → Byte) (bad : ℕ → Prop) : Prop where
  cache : CacheOk G fs
  chain : Chain G fs l
  holds : HoldsBut G fs l d bad
  zero : ∀ p, l.length * G.bytesPerCluster ≤ p → d p = 0

theorem Backed.mono (h : Backed G fs l d bad) (hb : ∀ i, bad i → bad' i) : Backed G fs l d bad' :=
  { h with holds := h.holds.mono hb }

theorem Grows.zero (hg : Grows G fs fs' l l') (h : ∀ p, l.length * G.bytesPerCluster ≤ p → d p = 0)
    (p : ℕ) (hp : l'.length * G.bytesPerCluster ≤ p) : d p = 0 :=
  h p ((mul_le_mul_right _ hg.length_le).trans hp)

theorem Advances.backed {zeroFill : Bool} {next : ℕ} (ha : Advances G zeroFill i next fs fs' l l')
    (h : Backed G fs l d bad) :
    Backed G fs' l' d fun j => bad j ∨ j = i + 1 ∧ zeroFill = false := by
  refine ⟨ha.grows.cache, ha.grows.chain, ?_, ha.grows.zero h.zero⟩
  intro j c hj hb k hk
  rw [not_or] at hb
  rcases ha.new with rfl | ⟨rfl, hlen, hclear⟩
  · rw [ha.keeps c (mem_of_getElem? hj) k hk]
    exact h.holds j c hj hb.1 k hk
  · rcases getElem?_append_new hj with hj | ⟨rfl, rfl⟩
    · rw [ha.keeps c (mem_of_getElem? hj) k hk]
      exact h.holds j c hj hb.1 k hk
    · have hz : zeroFill = true := by
        by_contra hz
        exact hb.2 ⟨hlen, Bool.eq_false_iff.mpr hz⟩
      rw [hclear hz k hk, h.zero _ (by omega)]

theorem Grows.getElem? (h : Grows G fs fs' l l') (hi : l[i]? = some c) : l'[i]? = some c := by
  obtain ⟨new, rfl, -⟩ := h.ext
  rw [List.getElem?_append_left (List.getElem?_eq_some_iff.mp hi).1, hi]

structure Ran (G : Geometry) (d : ℕ → Byte) (i cluster len : ℕ) (fs : Fs) (l : List ℕ)
    (run last pre : ℕ) (fs' : Fs) (l' : List ℕ) : Prop where
  grows : Grows G fs fs' l l'
  pos : 0 < run
  side : Side l' i cluster run
  ends : last + 1 = cluster + run
  fits : run * G.bytesPerCluster ≤ len
  seen : pre ≠ 0 → l'[i + run]? = some pre ∧ (run + 1) * G.bytesPerCluster ≤ len
  holds : HoldsBut G fs' l' d fun j => i ≤ j ∧ j < i + run ∨ pre ≠ 0 ∧ j = i + run

/-- A write over clusters side by side, which need not have held the array. -/
theorem HoldsBut.write_side (hl : Chain G fs l)
    (h : HoldsBut G fs l d fun j => i ≤ j ∧ j < i + run ∨ bad j) (hside : Side l i cluster run)
    (hrun : 0 < run) (hlen : data.length = run * G.bytesPerCluster) :
    HoldsBut G (writeCluster G cluster data fs) l (write d (i * G.bytesPerCluster) data) bad := by
  have h2 : 2 ≤ cluster := (hl.valid cluster (mem_of_getElem? (hside 0 hrun))).1
  intro j c hj hb k hk
  by_cases hin : i ≤ j ∧ j < i + run
  · obtain ⟨m, rfl⟩ := Nat.exists_eq_add_of_le hin.1
    have hm : m < run := by omega
    obtain rfl : c = cluster + m := Option.some.inj (hj.symm.trans (hside m hm))
    have hpos : m * G.bytesPerCluster + k < data.length := by
      have := Nat.mul_le_mul_right G.bytesPerCluster (show m + 1 ≤ run by omega)
      rw [add_mul, one_mul] at this
      omega
    rw [cdata_writeCluster_on h2 hpos, add_mul, add_assoc, Disk.write_inside hpos]
  · -- the other clusters of the chain lie outside the run
    have hc : c < cluster ∨ cluster + run ≤ c := by
      by_contra hc
      have hm : c - cluster < run := by omega
      have hc' := hside (c - cluster) hm
      rw [show cluster + (c - cluster) = c by omega] at hc'
      have := (List.getElem?_inj (List.getElem?_eq_some_iff.mp hj).1 hl.nodup).mp
        (hj.trans hc'.symm)
      omega
    rw [cdata_writeCluster_off h2 (hl.valid c (mem_of_getElem? hj)).1 hk hlen.le hc,
      h j c hj (by tauto) k hk, Disk.write_outside]
    rcases lt_or_ge j i with hji | hji
    · have := Nat.mul_le_mul_right G.bytesPerCluster (show j + 1 ≤ i by omega)
      rw [add_mul, one_mul] at this
      exact .inl (by omega)
    · have := Nat.mul_le_mul_right G.bytesPerCluster (show i + run ≤ j by omega)
      rw [add_mul] at this
      exact .inr (by omega)

theorem readCluster_length (c : ℕ) (fs : Fs) : (readCluster G c fs).length = G.bytesPerCluster :=
  Disk.length_read

theorem length_spliced {buf : List Byte} (hbuf : buf.length = n) (hx : off + x.length ≤ n) :
    (buf.take off ++ x ++ buf.drop (off + x.length)).length = n := by
  simp only [length_append, length_take, length_drop]
  omega

theorem HoldsBut.write_part (hd : HoldsBut G fs l d bad) (hl : Chain G fs l)
    (hi : l[i]? = some cluster) (hgood : ¬bad i) (hx : off + x.length ≤ G.bytesPerCluster) :
    HoldsBut G (writeCluster G cluster ((readCluster G cluster fs).take off ++ x ++
      (readCluster G cluster fs).drop (off + x.length)) fs) l
        (write d (i * G.bytesPerCluster + off) x) bad := by
  have hread : readCluster G cluster fs = read d (i * G.bytesPerCluster) G.bytesPerCluster :=
    map_congr_left fun k hk => hd i cluster hi hgood k (mem_range.mp hk)
  have hlen := length_spliced (readCluster_length cluster fs) hx
  have hside :=
    (hd.mono (show ∀ j, bad j → i ≤ j ∧ j < i + 1 ∨ bad j from fun _ => .inr)).write_side hl
    (Side.one hi)
    one_pos (hlen.trans (one_mul _).symm)
  rwa [hread, Disk.write_splice hx, ← hread] at hside

/-- What one turn has done: `n` bytes are stored, up to the end of a cluster or of the data. -/
structure Turned (G : Geometry) (d : ℕ → Byte) (i off : ℕ) (data : List Byte) (fs : Fs) (l : List ℕ)
    (n c skipped pre : ℕ) (fs' : Fs) (l' : List ℕ) : Prop where
  grows : Grows G fs fs' l l'
  pos : 0 < n
  le : n ≤ data.length
  at_ : l'[i + skipped]? = some c
  full : n < data.length → i * G.bytesPerCluster + off + n = (i + skipped + 1) * G.bytesPerCluster
  within : i * G.bytesPerCluster + off + n ≤ l'.length * G.bytesPerCluster
  seen : pre ≠ 0 → l'[i + skipped + 1]? = some pre ∧ G.bytesPerCluster ≤ data.length - n
  holds : HoldsBut G fs' l' (write d (i * G.bytesPerCluster + off) (data.take n)) fun j => pre ≠ 0 ∧
    j = i + skipped + 1

theorem lt_length_mul (h : l[i]? = some c) (n : ℕ) : (i + 1) * n ≤ l.length * n :=
  mul_le_mul_right n (List.getElem?_eq_some_iff.mp h).1

/-- What the loop has done from position `p` on: `done` bytes are stored, all of them unless no
cluster was free. -/
structure Wrote (G : Geometry) (d : ℕ → Byte) (p : ℕ) (data : List Byte) (fs : Fs) (l : List ℕ)
    (done c index : ℕ) (fs' : Fs) (l' : List ℕ) : Prop where
  grows : Grows G fs fs' l l'
  pos : 0 < done
  le : done ≤ data.length
  at_ : l'[index]? = some c
  within : p + done ≤ l'.length * G.bytesPerCluster
  holds : Holds G fs' l' (write d p (data.take done))
  short : done = data.length ∨ Full G fs'

theorem Grows.headD (h : Grows G fs fs' l l') (hne : l ≠ []) : l'.headD 0 = l.headD 0 := by
  obtain ⟨new, rfl, -⟩ := h.ext
  cases l with
  | nil => exact absurd rfl hne
  | cons c l => rfl

theorem Stores.grow (hf : Stores G fs vd l f) (hg : Grows G fs fs' l l')
    (hh : Holds G fs' l' f.data) (hne : l ≠ []) : Stores G fs' vd l' f where
  chain := hg.chain
  first := hf.first.trans (hg.headD hne).symm
  cached := hf.cached.imp_right hg.getElem?
  size := hf.size
  bound := hf.bound
  fits := hf.fits.trans (mul_le_mul_right _ hg.length_le)
  holds := hh

theorem Wrote.stores (hf : Stores G fs vd l f) (hne : l ≠ [])
    (hw : Wrote G f.data offset data fs l done c index fs' l')
    (hend : offset + data.length < 2 ^ 32) :
    Stores G fs' (if vd.fileSize < offset + done then
      { vd with
        cachedCluster := c, cachedIndex := index
        fileSize := (offset + done) % 2 ^ 32, sizeDirty := true }
      else { vd with cachedCluster := c, cachedIndex := index }) l'
        (f.write offset (data.take done)) := by
  have hle := hw.le
  have htake : (data.take done).length = done := by rw [length_take]; omega
  have hsize : (f.write offset (data.take done)).size = max f.size (offset + done) :=
    congrArg (fun n => max f.size (offset + n)) htake
  have hfirst : vd.firstCluster = l'.headD 0 := hf.first.trans (hw.grows.headD hne).symm
  have hbound : (f.write offset (data.take done)).size < 2 ^ 32 := by
    have := hf.bound
    omega
  have hfits : (f.write offset (data.take done)).size ≤ l'.length * G.bytesPerCluster := by
    have := hf.fits.trans (mul_le_mul_right _ hw.grows.length_le)
    have := hw.within
    omega
  have hvd := hf.size
  split_ifs with hlt
  · refine ⟨hw.grows.chain, hfirst, .inr hw.at_, ?_, hbound, hfits, hw.holds⟩
    dsimp only
    omega
  · refine ⟨hw.grows.chain, hfirst, .inr hw.at_, ?_, hbound, hfits, hw.holds⟩
    dsimp only
    omega

theorem Stores.start (hf : Stores G fs vd l f) (hne : l ≠ []) (target : ℕ) :
    ∃ cluster i, (if vd.cachedCluster ≠ 0 ∧ vd.cachedIndex ≤ target
      then (vd.cachedCluster, vd.cachedIndex)
      else (vd.firstCluster, 0)) = (cluster, i) ∧ l[i]? = some cluster ∧ i ≤ target := by
  split_ifs with h
  · exact ⟨_, _, rfl, hf.cached.resolve_left h.1, h.2⟩
  · refine ⟨_, _, rfl, ?_, zero_le _⟩
    rw [hf.first]
    cases l with
    | nil => exact absurd rfl hne
    | cons c l => rfl

variable (hG : G.Ok) {mem : Memory}
include hG

theorem Full.same (h : Full G fs) (hs : Same G fs fs') : Full G fs' := fun c hc => by
  rw [hs.entry c (hG.inTable hc)]
  exact h c hc

theorem extend_spec (hmem : ∀ c, mem.zeros c = true) (h : Backed G fs l d fun _ => False)
    (hi : l[i]? = some cluster) :
    ∃ r fs' l', extend G mem k cluster fs = (r, fs') ∧ Grows G fs fs' l l' ∧ Holds G fs' l' d ∧
      (r = none ∧ Full G fs' ∨ ∃ c, r = some c ∧ l'[i + k]? = some c) := by
  induction k generalizing i cluster fs l with
  | zero => exact ⟨_, fs, l, rfl, .of_same hG h.chain (Same.refl h.cache), h.holds,
    .inr ⟨cluster, rfl, hi⟩⟩
  | succ k ih =>
    rw [extend]
    dsimp only
    rcases chainNextOrAlloc_spec hG hmem h.cache h.chain hi true with ⟨hr, hs, hfull⟩ | ⟨hr, l₁, ha⟩
    · rw [if_pos hr]
      exact ⟨none, _, l, rfl, .of_same hG h.chain hs, Holds.same h.holds hs,
        .inl ⟨rfl, hfull.same hG hs⟩⟩
    · rw [if_neg hr]
      have h₁ : Backed G _ l₁ d fun _ => False :=
        (ha.backed h).mono fun j hj => hj.elim id fun hj => by cases hj.2
      obtain ⟨r, fs', l', he, hg, hh, hend⟩ := ih h₁ ha.follows
      refine ⟨r, fs', l', he, ha.grows.trans hG hg, hh, ?_⟩
      rwa [show i + (k + 1) = i + 1 + k by omega]

theorem Ran.stop (h : Backed G fs l d fun j => i ≤ j ∧ j < i + run) (hs : Same G fs fs')
    (hrun : 0 < run) (hside : Side l i cluster run) (hlast : last + 1 = cluster + run)
    (hlen : run * G.bytesPerCluster ≤ len) :
    Ran G d i cluster len fs l run last 0 fs' l where
  grows := .of_same hG h.chain hs
  pos := hrun
  side := hside
  ends := hlast
  fits := hlen
  seen h := absurd rfl h
  holds j c hj hb k hk := (hs.data c k).trans (h.holds j c hj (fun h => hb (.inl h)) k hk)

/-- A run of clusters, allocated as far as the chain does not have them. -/
theorem writeRun_spec (hmem : ∀ c, mem.zeros c = true)
    (h : Backed G fs l d fun j => i ≤ j ∧ j < i + run) (hrun : 0 < run)
    (hside : Side l i cluster run) (hlast : last + 1 = cluster + run)
    (hlen : run * G.bytesPerCluster ≤ len) :
    ∃ run' last' pre fs' l', writeRun G mem len k run last fs = (run', last', pre, fs') ∧
      Ran G d i cluster len fs l run' last' pre fs' l' := by
  induction k generalizing run last fs l with
  | zero =>
    exact ⟨run, last, 0, fs, l, rfl, Ran.stop hG h (Same.refl h.cache) hrun hside hlast hlen⟩
  | succ k ih =>
    rw [writeRun]
    split_ifs with hcond
    · dsimp only
      have hl1 : l[i + (run - 1)]? = some last := by
        rw [hside (run - 1) (by omega)]
        congr 1
        omega
      rcases chainNextOrAlloc_spec hG hmem h.cache h.chain hl1 false with ⟨hr, hs, -⟩ | ⟨hr, l₁, ha⟩
      · rw [if_pos hr]
        exact ⟨run, last, 0, _, l, rfl, Ran.stop hG h hs hrun hside hlast hlen⟩
      have hnext := ha.follows
      rw [show i + (run - 1) + 1 = i + run by omega] at hnext
      have hside₁ : Side l₁ i cluster run := fun j hj => ha.grows.getElem? (hside j hj)
      have h₁ := (ha.backed h).mono (show ∀ j, _ → i ≤ j ∧
        j < i + (run + 1) by rintro j (hj | hj) <;> omega)
      rw [if_neg hr]
      by_cases hc1 : (chainNextOrAlloc G mem last false fs).1 = last + 1
      · rw [if_neg (not_not.mpr hc1)]
        obtain ⟨run', last', pre, fs', l', he, hran⟩ := ih h₁ (succ_pos run)
          (hside₁.succ (by rw [hnext, hc1, hlast]))
            (show (chainNextOrAlloc G mem last false fs).1 + 1 = cluster + (run + 1) by
            omega) hcond.1
        exact ⟨run', last', pre, fs', l', he, { hran with grows := ha.grows.trans hG hran.grows }⟩
      · rw [if_pos hc1]
        refine ⟨run, last, _, _, l₁, rfl, ha.grows, hrun, hside₁, hlast, hlen, fun _ =>
          ⟨hnext, hcond.1⟩, ?_⟩
        exact h₁.holds.mono fun j hj => by omega
    · exact ⟨run, last, 0, fs, l, rfl, Ran.stop hG h (Same.refl h.cache) hrun hside hlast hlen⟩

theorem Grows.write (h : Grows G fs fs' l l') (hside : Side l' i cluster run)
    (hrun : 0 < run) (hlen : data.length = run * G.bytesPerCluster) :
    Grows G fs (writeCluster G cluster data fs') l l' := by
  obtain ⟨hcache, hentry⟩ := writeCluster_table h.cache cluster data
  have h2 : 2 ≤ cluster := (h.chain.valid cluster (mem_of_getElem? (hside 0 hrun))).1
  refine ⟨hcache, h.chain.congr fun c hc => hentry c (hG.inTable (h.chain.valid c hc)), h.ext,
    fun c hc hn => ?_,
    fun c k hc hk hn => ?_⟩
  · rw [hentry c hc, h.entry c hc hn]
  · rw [cdata_writeCluster_off h2 hc.1 hk hlen.le, h.data c k hc hk hn]
    by_contra hin
    refine hn (mem_of_getElem? (hside (c - cluster) (by omega)) |> fun hm => ?_)
    rwa [show cluster + (c - cluster) = c by omega] at hm

/-- One round of a write. -/
theorem writeTurn_spec (hmem : ∀ c, mem.zeros c = true)
    (h : Backed G fs l d fun j => j = i ∧ off = 0 ∧ G.bytesPerCluster ≤ data.length)
    (hi : l[i]? = some cluster) (hoff : off < G.bytesPerCluster) (hdata : 0 < data.length) :
    ∃ n c skipped pre fs' l', writeTurn G mem cluster off data fs = (n, c, skipped, pre, fs') ∧
      Turned G d i off data fs l n c skipped pre fs' l' := by
  rw [writeTurn]
  by_cases hfull : off = 0 ∧ min (G.bytesPerCluster - off) data.length = G.bytesPerCluster
  · obtain ⟨rfl, hmin⟩ := hfull
    obtain ⟨run, last, pre, fs', l', hrun, hran⟩ := writeRun_spec (k := maxRunSectors) hG hmem
      (h.mono (show ∀ j, _ → i ≤ j ∧ j < i + 1 by rintro j ⟨hj, -⟩; omega)) one_pos
        (Side.one hi) rfl
      (show 1 * G.bytesPerCluster ≤ data.length by omega)
    have htake : (data.take (run * G.bytesPerCluster)).length = run * G.bytesPerCluster :=
      (length_take).trans (min_eq_left hran.fits)
    have hlast : i + (run - 1) + 1 = i + run := by have := hran.pos; omega
    have hat : l'[i + (run - 1)]? = some last := by
      rw [hran.side (run - 1) (by have := hran.pos; omega)]
      have := hran.ends
      congr 1
      omega
    rw [if_pos ⟨rfl, hmin⟩, hrun]
    refine ⟨_, _, _, _, _, l', rfl, hran.grows.write hG hran.side hran.pos htake,
      mul_pos hran.pos hG.bytes_pos,
      hran.fits, hat, fun _ => ?_, ?_, fun hp => ?_, ?_⟩
    · rw [hlast, add_mul, add_zero]
    · have := lt_length_mul hat G.bytesPerCluster
      rwa [hlast, add_mul] at this
    · obtain ⟨hnext, hlen⟩ := hran.seen hp
      rw [add_mul, one_mul] at hlen
      exact ⟨by rw [hlast]; exact hnext, by omega⟩
    · rw [hlast]
      exact hran.holds.write_side hran.grows.chain hran.side hran.pos htake
  · -- a part of a cluster, all of which counts
    rw [if_neg hfull]
    have hn : min (G.bytesPerCluster - off) data.length =
        (data.take (min (G.bytesPerCluster - off) data.length)).length := by
      rw [length_take]
      omega
    have hfits : off + (data.take (min (G.bytesPerCluster - off) data.length)).length ≤
        G.bytesPerCluster := by
      omega
    have hgood : ¬(i = i ∧ off = 0 ∧ G.bytesPerCluster ≤ data.length) :=
      fun hb => hfull ⟨hb.2.1, by omega⟩
    have hlen := length_spliced (readCluster_length cluster fs) hfits
    have hone := h.holds.write_part h.chain hi hgood hfits
    rw [← hn] at hlen hone
    have hwithin := lt_length_mul hi G.bytesPerCluster
    rw [add_mul, one_mul] at hwithin
    refine ⟨_, cluster, 0, 0, _, l, rfl,
      (Grows.of_same hG h.chain (Same.refl h.cache)).write hG (Side.one hi) one_pos
      (hlen.trans (one_mul _).symm), by omega,
      min_le_right _ _, hi, fun hlt => ?_, by omega, fun h => absurd rfl h, ?_⟩
    · rw [add_zero, add_mul, one_mul]
      omega
    · intro j c hj _
      by_cases hji : j = i ∧ off = 0 ∧ G.bytesPerCluster ≤ data.length
      · exact absurd ⟨rfl, hji.2⟩ hgood
      · exact hone j c hj hji

theorem Turned.wrote {c' : ℕ} {fs'' : Fs} {l'' : List ℕ}
    (ht : Turned G d i off data fs l n c skipped pre fs' l')
    (hw : Wrote G (write d (i * G.bytesPerCluster + off) (data.take n))
    (i * G.bytesPerCluster + off + n) (data.drop n) fs' l' done c' index fs'' l'') :
    Wrote G d (i * G.bytesPerCluster + off) data fs l (n + done) c' index fs'' l'' := by
  have hle := hw.le
  have hn := ht.le
  rw [length_drop] at hle
  refine ⟨ht.grows.trans hG hw.grows, by have := ht.pos; omega, by omega, hw.at_, by
    have := hw.within; omega, ?_, ?_⟩
  · have htake : (data.take n).length = n := by rw [length_take]; omega
    have happ : write (write d (i * G.bytesPerCluster + off) (data.take n))
      (i * G.bytesPerCluster + off + n)
        ((data.drop n).take done) = write d (i * G.bytesPerCluster + off)
          (data.take (n + done)) := by
      have := @Disk.write_append _ d (i * G.bytesPerCluster + off) (data.take n)
        ((data.drop n).take done)
      rwa [htake, ← take_add] at this
    rw [← happ]
    exact hw.holds
  · rcases hw.short with h | h
    · rw [length_drop] at h
      exact .inl (by omega)
    · exact .inr h

theorem Turned.stop (ht : Turned G d i off data fs l n c skipped pre fs' l') {fs'' : Fs}
    (hs : Same G fs' fs'') (hpre : pre = 0) (hshort : n = data.length ∨ Full G fs'') :
    Wrote G d (i * G.bytesPerCluster + off) data fs l n c (i + skipped) fs'' l' where
  grows := ht.grows.trans hG (.of_same hG ht.grows.chain hs)
  pos := ht.pos
  le := ht.le
  at_ := ht.at_
  within := ht.within
  holds := Holds.same (ht.holds.mono fun _ h => h.1 hpre) hs
  short := hshort

/-- The rounds of a write, up to the end of the data or a full volume. -/
theorem writeLoop_spec (hmem : ∀ c, mem.zeros c = true)
    (h : Backed G fs l d fun j => j = i ∧ off = 0 ∧ G.bytesPerCluster ≤ data.length)
    (hi : l[i]? = some cluster) (hoff : off < G.bytesPerCluster) (hdata : 0 < data.length)
    (hk : data.length ≤ k) :
    ∃ done c index fs' l', writeLoop G mem k cluster i off data fs = (done, c, index, fs') ∧
      Wrote G d (i * G.bytesPerCluster + off) data fs l done c index fs' l' := by
  induction k generalizing fs l d i cluster off data with
  | zero => omega
  | succ k ih =>
    obtain ⟨n, c, skipped, pre, fs', l', hturn, ht⟩ := writeTurn_spec hG hmem h hi hoff hdata
    have hn := ht.pos
    have hle := ht.le
    rw [writeLoop, if_neg (ne_nil_of_length_pos hdata), hturn]
    dsimp only
    by_cases hend : data.drop n = []
    · have hall : n = data.length := le_antisymm hle (drop_eq_nil_iff.mp hend)
      have hpre : pre = 0 := by
        by_contra hp
        have := (ht.seen hp).2
        omega
      rw [if_pos hend]
      exact ⟨n, c, i + skipped, fs', l', rfl,
        ht.stop hG (Same.refl ht.grows.cache) hpre (.inl hall)⟩
    have hlt : n < data.length := by
      by_contra hge
      exact hend (drop_eq_nil_iff.mpr (by omega))
    have hlen : (data.drop n).length = data.length - n := length_drop
    have hfull := ht.full hlt
    rw [if_neg hend]
    have h' : Backed G fs' l' _ _ := ⟨ht.grows.cache, ht.grows.chain, ht.holds, fun p hp => by
      have hwithin := ht.within
      rw [Disk.write_outside (.inr (by rw [length_take]; omega))]
      exact ht.grows.zero h.zero p hp⟩
    by_cases hp : pre ≠ 0
    · obtain ⟨hnext, hroom⟩ := ht.seen hp
      obtain ⟨done, c', index, fs'', l'', hloop, hw⟩ :=
        ih (h'.mono fun j hj => ⟨hj.2, rfl, by omega⟩) hnext
        hG.bytes_pos (show 0 < (data.drop n).length by omega)
          (show (data.drop n).length ≤ k by omega)
      rw [if_pos hp, if_neg hp, hloop]
      refine ⟨n + done, c', index, fs'', l'', rfl, ht.wrote hG ?_⟩
      rwa [add_zero, ← hfull] at hw
    · rw [if_neg hp]
      have hp := not_not.mp hp
      rcases chainNextOrAlloc_spec hG hmem ht.grows.cache ht.grows.chain ht.at_
        (decide ((data.drop n).length < G.bytesPerCluster)) with ⟨hr, hs, hno⟩ | ⟨hr, l₁, ha⟩
      · rw [if_pos hr]
        exact ⟨n, c, i + skipped, _, l', rfl, ht.stop hG hs hp (.inr (hno.same hG hs))⟩
      · rw [if_neg hr]
        obtain ⟨done, c', index, fs'', l'', hloop, hw⟩ := ih ((ha.backed h').mono fun j hj =>
          hj.elim (fun hj => absurd hp hj.1) fun hj =>
            ⟨hj.1, rfl, by simpa using hj.2⟩) ha.follows hG.bytes_pos
          (show 0 < (data.drop n).length by omega) (show (data.drop n).length ≤ k by omega)
        rw [hloop]
        refine ⟨n + done, c', index, fs'', l'', rfl, ht.wrote hG ?_⟩
        rw [add_zero, ← hfull] at hw
        exact { hw with grows := ha.grows.trans hG hw.grows }

/-! The whole call. -/

theorem grows_nil {zeroFill : Bool} (ht : Takes G zeroFill c fs fs') : Grows G fs fs' [] [c] where
  cache := ht.cache
  chain := by
    refine ⟨fun d hd => ?_, nodup_singleton c, fun i d hi => ?_⟩
    · rw [mem_singleton.mp hd]
      exact ht.valid
    · obtain ⟨hi', rfl⟩ := List.getElem?_eq_some_iff.mp hi
      obtain rfl : i = 0 := by simpa using hi'
      exact (ht.entry c (hG.inTable ht.valid)).trans (if_pos rfl)
  ext := ⟨[c], rfl, fun d hd => by rw [mem_singleton.mp hd]; exact ht.free⟩
  entry d hd hn := by rw [ht.entry d hd, if_neg fun e => hn (mem_singleton.mpr e)]
  data d k hd hk hn := ht.data d k hd hk fun e => hn (mem_singleton.mpr e)

theorem first_spec (hmem : ∀ c, mem.zeros c = true) (h : CacheOk G fs) (hf : Stores G fs vd l f) :
    let r := if vd.firstCluster = 0 then allocateClusterEx G mem true fs else (vd.firstCluster, fs)
    (r.1 = 0 ∧ Same G fs r.2 ∧ Full G fs) ∨
      (r.1 ≠ 0 ∧ ∃ l', Grows G fs r.2 l l' ∧ l' ≠ [] ∧ Stores G r.2 (if vd.firstCluster = 0 then
        { vd with firstCluster := r.1, cachedCluster := r.1, cachedIndex := 0 } else vd) l' f) := by
  split_ifs with h0
  · have hnil : l = [] := by
      cases l with
      | nil => rfl
      | cons c l =>
        have := (hf.chain.valid c (.head _)).1
        have := hf.first
        rw [h0, headD_cons] at this
        omega
    subst hnil
    have hsize : f.size = 0 := by simpa using hf.fits
    rcases allocateClusterEx_spec hG mem true h with hfail | ht
    · exact .inl hfail
    · have hg := grows_nil hG ht
      refine .inr ⟨by have := ht.valid.1; omega, _, hg, cons_ne_nil _ _, hg.chain,
        rfl, .inr rfl, hf.size, hf.bound,
        by rw [hsize]; exact zero_le _, fun i d hi _ k hk => ?_⟩
      obtain ⟨hi', rfl⟩ := List.getElem?_eq_some_iff.mp hi
      obtain rfl : i = 0 := by simpa using hi'
      exact (ht.zero (hmem _) k hk).trans (f.beyond _ (by omega)).symm
  · refine .inr ⟨h0, l, .of_same hG hf.chain (Same.refl h), ?_, hf⟩
    rintro rfl
    exact h0 hf.first

/-- A write is that of the array, cut where the volume is full. -/
theorem fat32FileWrite_spec (hmem : ∀ c, mem.zeros c = true) (h : CacheOk G fs)
    (hf : Stores G fs vd l f) (hdata : data ≠ []) (hend : offset + data.length < 2 ^ 32) :
    ∃ r vd' fs' l', fat32FileWrite G mem vd data offset fs = (r, vd', fs') ∧ Grows G fs fs' l l' ∧
      vd'.dirCluster = vd.dirCluster ∧
      ((r = -Errno.enospc ∧ Full G fs' ∧ Stores G fs' vd' l' f) ∨
        (r = -Errno.enomem ∧ mem.buffer = false ∧ Stores G fs' vd' l' f) ∨
        ∃ n : ℕ, r = n ∧ 0 < n ∧ n ≤ data.length ∧ (n = data.length ∨ Full G fs') ∧
          Stores G fs' vd' l' (f.write offset (data.take n))) := by
  rw [fat32FileWrite]
  dsimp only
  rcases first_spec hG hmem h hf with ⟨hr, hs, hno⟩ | ⟨hr, l₁, hg₁, hne₁, hf₁⟩
  · rw [if_pos hr]
    refine ⟨_, vd, _, l, rfl, .of_same hG hf.chain hs, rfl, .inl ⟨rfl, hno.same hG hs, ?_⟩⟩
    exact { hf with chain := hf.chain.same hG hs, holds := hf.holds.same hs }
  rw [if_neg hr]
  generalize (if vd.firstCluster = 0 then allocateClusterEx G mem true fs
    else (vd.firstCluster, fs)) = r₁ at *
  have hdir : (if vd.firstCluster = 0
    then { vd with firstCluster := r₁.1, cachedCluster := r₁.1, cachedIndex := 0 }
      else vd).dirCluster = vd.dirCluster := by split_ifs <;> rfl
  generalize (if vd.firstCluster = 0
    then { vd with firstCluster := r₁.1, cachedCluster := r₁.1, cachedIndex := 0 }
    else vd) = vd₁ at hf₁ hdir ⊢
  have hpos := hG.bytes_pos
  obtain ⟨cluster, i, hstart, hi, hle⟩ := hf₁.start hne₁ (offset / G.bytesPerCluster)
  have h₁ : Backed G r₁.2 l₁ f.data fun _ => False :=
    ⟨hg₁.cache, hf₁.chain, hf₁.holds, fun p hp => f.beyond p (hf₁.fits.trans hp)⟩
  obtain ⟨r₂, fs₂, l₂, hext, hg₂, hh₂, hend₂⟩ :=
    extend_spec (k := offset / G.bytesPerCluster - i) hG hmem h₁ hi
  have hg := hg₁.trans hG hg₂
  have hf₂ := hf₁.grow hg₂ hh₂ hne₁
  rw [hstart]
  rw [hext]
  rcases hend₂ with ⟨rfl, hno⟩ | ⟨c, rfl, hc⟩
  · exact ⟨_, vd₁, fs₂, l₂, rfl, hg, hdir, .inl ⟨rfl, hno, hf₂⟩⟩
  rw [Nat.add_sub_cancel' hle] at hc
  have hne₂ : l₂ ≠ [] := by
    rintro rfl
    cases hc
  have h₂ : Backed G fs₂ l₂ f.data fun _ => False := ⟨hg₂.cache, hg₂.chain, hh₂, hg₂.zero h₁.zero⟩
  obtain ⟨done, c', index, fs₃, l₃, hloop, hw⟩ :=
    writeLoop_spec hG hmem (h₂.mono fun _ => False.elim) hc
    (Nat.mod_lt offset hpos) (length_pos_of_ne_nil hdata) le_rfl
  rw [Nat.div_add_mod'] at hw
  dsimp only
  by_cases hbuf : ¬vd₁.ioBuf ∧ ¬mem.buffer
  · rw [if_pos hbuf]
    have hno := Bool.eq_false_of_not_eq_true hbuf.2
    exact ⟨_, vd₁, fs₂, l₂, rfl, hg, hdir, .inr (.inl ⟨rfl, hno, hf₂⟩)⟩
  rw [if_neg hbuf, hloop]
  have hf₃ : Stores G fs₂ { vd₁ with ioBuf := true } l₂ f := { hf₂ with }
  refine ⟨done, _, fs₃, l₃, rfl, hg.trans hG hw.grows, ?_,
    .inr (.inr ⟨done, rfl, hw.pos, hw.le, hw.short, hw.stores hf₃ hne₂ hend⟩)⟩
  split_ifs
  · exact hdir
  · exact hdir

end Cervus.Fat32
