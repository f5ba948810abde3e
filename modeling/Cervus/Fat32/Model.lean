import Cervus.Errno
import Cervus.Lib.Disk
import Cervus.Lib.Run

/-! The FAT32 file system of `fat32.c` as far as the data of files is concerned: the volume that
`fat32_format` makes, the allocation table behind a cache of one sector, chains of clusters, and
reading and writing through an open vnode. The device does not fail and memory does not run out. -/

namespace Cervus.Fat32

open Disk

abbrev Byte := UInt8

def get32 (d : ℕ → Byte) (a : ℕ) : ℕ :=
  (d a).toNat + 2 ^ 8 * (d (a + 1)).toNat + 2 ^ 16 * (d (a + 2)).toNat + 2 ^ 24 * (d (a + 3)).toNat

def put16 (v : ℕ) : List Byte := [UInt8.ofNat v, UInt8.ofNat (v / 2 ^ 8)]

def put32 (v : ℕ) : List Byte :=
  [UInt8.ofNat v, UInt8.ofNat (v / 2 ^ 8), UInt8.ofNat (v / 2 ^ 16), UInt8.ofNat (v / 2 ^ 24)]

def eoc : ℕ := 0x0FFFFFFF
def eocMin : ℕ := 0x0FFFFFF8
def clusterMask : ℕ := 0x0FFFFFFF
def maxRunSectors : ℕ := 256

/-! The layout of a volume. -/

/-- The fields of `fat32_t` that `fat32_mount` sets and nothing changes. -/
structure Geometry where
  sectorsPerCluster : ℕ
  fatSize : ℕ
  totalClusters : ℕ
deriving DecidableEq

def reserved : ℕ := 32
def numFats : ℕ := 2
def fsinfoSector : ℕ := 1

def sectorsPerCluster (total : ℕ) : ℕ :=
  if total ≤ 532480 then 1
  else if total ≤ 16777216 then 8
  else if total ≤ 33554432 then 16
  else if total ≤ 67108864 then 32
  else 64

def fatSizeFrom (dataSectors spc : ℕ) : ℕ → ℕ → Option (ℕ × ℕ)
  | 0, _ => none
  | fuel + 1, fatSize =>
    if dataSectors ≤ fatSize * numFats then none
    else
      let clusterCount := (dataSectors - fatSize * numFats) / spc
      if ((clusterCount + 2) * 4 + 511) / 512 ≤ fatSize then some (fatSize, clusterCount)
      else if 1024 * 1024 < fatSize then none
      else fatSizeFrom dataSectors spc fuel (fatSize + 1)

/-- The layout that `fat32_format` chooses for a device of so many sectors. -/
def fat32Format (sectorCount : ℕ) : Option Geometry :=
  let total := sectorCount % 2 ^ 32
  if total < 65536 then none
  else
    let spc := sectorsPerCluster total
    match fatSizeFrom (total - reserved) spc (1024 * 1024 + 2) 1 with
    | none => none
    | some (fatSize, clusterCount) =>
      if clusterCount < 65525 then none
      else some { sectorsPerCluster := spc, fatSize, totalClusters := clusterCount }

namespace Geometry

variable (G : Geometry)

def bytesPerCluster : ℕ := 512 * G.sectorsPerCluster

def firstDataSector : ℕ := reserved + numFats * G.fatSize

def clusterAddr (c : ℕ) : ℕ := 512 * (G.firstDataSector + (c - 2) * G.sectorsPerCluster)

def fatAddr (copy rel : ℕ) : ℕ := 512 * (reserved + copy * G.fatSize + rel)

end Geometry

/-- The fields of `fat32_t` that change, and the device. -/
structure Fs where
  disk : ℕ → Byte
  fatCache : ℕ → Byte
  fatCacheSec : Option ℕ
  fatCacheDirty : Bool
  nextFreeHint : ℕ
  freeCount : ℕ

structure Vdata where
  firstCluster : ℕ
  dirCluster : ℕ
  dirEntryOffset : ℕ
  fileSize : ℕ
  attr : ℕ
  cachedCluster : ℕ
  cachedIndex : ℕ
  sizeDirty : Bool
  ioBuf : Bool

/-- What `malloc` answers during a call: for the zeros of a new cluster, by the number of the
cluster, and for the buffer of the call. -/
structure Memory where
  zeros : ℕ → Bool
  buffer : Bool

section

variable (G : Geometry)

/-! The table. -/

def fatCacheFlush (fs : Fs) : Fs :=
  match fs.fatCacheSec with
  | none => fs
  | some sec =>
    if fs.fatCacheDirty then
      { fs with
        disk := (List.range numFats).foldl (fun d i =>
          write d (G.fatAddr i sec) (read fs.fatCache 0 512)) fs.disk
        fatCacheDirty := false }
    else fs

def fatCacheLoad (rel : ℕ) (fs : Fs) : Fs :=
  if fs.fatCacheSec = some rel then fs
  else
    let fs := fatCacheFlush G fs
    { fs with fatCache := fun i => fs.disk (G.fatAddr 0 rel + i), fatCacheSec := some rel }

def fatReadEntry (c : ℕ) (fs : Fs) : ℕ × Fs :=
  let fs := fatCacheLoad G (c * 4 / 512) fs
  (get32 fs.fatCache (c * 4 % 512) &&& clusterMask, fs)

def fatWriteEntry (c value : ℕ) (fs : Fs) : Fs :=
  let fs := fatCacheLoad G (c * 4 / 512) fs
  let existing := get32 fs.fatCache (c * 4 % 512)
  let merged := value &&& clusterMask ||| existing &&& 0xF0000000
  { fs with fatCache := write fs.fatCache (c * 4 % 512) (put32 merged), fatCacheDirty := true }

def isEoc (c : ℕ) : Bool := eocMin ≤ c &&& clusterMask

def fat32Sync (fs : Fs) : Fs :=
  let fs := fatCacheFlush G fs
  let a := 512 * fsinfoSector
  if get32 fs.disk a = 0x41615252 ∧ get32 fs.disk (a + 484) = 0x61417272 then
    { fs with disk := write (write fs.disk (a + 488)
    (put32 fs.freeCount)) (a + 492) (put32 fs.nextFreeHint) }
  else fs

/-! Clusters. -/

def readCluster (c : ℕ) (fs : Fs) : List Byte := read fs.disk (G.clusterAddr c) G.bytesPerCluster

def writeCluster (c : ℕ) (data : List Byte) (fs : Fs) : Fs :=
  { fs with disk := write fs.disk (G.clusterAddr c) data }

def zeros (n : ℕ) : List Byte := List.replicate n 0

section

variable (mem : Memory)

def allocateFrom (zeroFill : Bool) (start : ℕ) : ℕ → ℕ → Fs → ℕ × Fs
  | 0, _, fs => (0, fs)
  | k + 1, i, fs =>
    let c := 2 + (start - 2 + i) % G.totalClusters
    let (v, fs) := fatReadEntry G c fs
    if v = 0 then
      let fs := fatWriteEntry G c eoc fs
      let fs := { fs with
        nextFreeHint := c + 1
        freeCount := if fs.freeCount = 0xFFFFFFFF then fs.freeCount
          else (fs.freeCount + 0xFFFFFFFF) % 2 ^ 32 }
      (c, if zeroFill && mem.zeros c then writeCluster G c (zeros G.bytesPerCluster) fs else fs)
    else allocateFrom zeroFill start k (i + 1) fs

def allocateClusterEx (zeroFill : Bool) (fs : Fs) : ℕ × Fs :=
  allocateFrom G mem zeroFill (max fs.nextFreeHint 2) G.totalClusters 0 fs

def chainNextOrAlloc (cluster : ℕ) (zeroFill : Bool) (fs : Fs) : ℕ × Fs :=
  let (next, fs) := fatReadEntry G cluster fs
  if ¬isEoc next ∧ 2 ≤ next then (next, fs)
  else
    let (nc, fs) := allocateClusterEx G mem zeroFill fs
    if nc = 0 then (0, fs) else (nc, fatWriteEntry G cluster nc fs)

end

/-! Reading. -/

def walk : ℕ → ℕ → Fs → Option ℕ × Fs
  | 0, cluster, fs => (some cluster, fs)
  | k + 1, cluster, fs =>
    if isEoc cluster ∨ cluster < 2 then (none, fs)
    else
      let (next, fs) := fatReadEntry G cluster fs
      walk k next fs

def readRun (len : ℕ) : ℕ → ℕ → ℕ → Fs → ℕ × ℕ × ℕ × Fs
  | 0, run, last, fs => (run, last, 0, fs)
  | k + 1, run, last, fs =>
    if (run + 1) * G.bytesPerCluster ≤ len ∧ run * G.sectorsPerCluster < maxRunSectors then
      let (nxt, fs) := fatReadEntry G last fs
      if isEoc nxt ∨ nxt < 2 then (run, last, 0, fs)
      else if nxt ≠ last + 1 then (run, last, nxt, fs)
      else readRun len k (run + 1) nxt fs
    else (run, last, 0, fs)

def readTurn (cluster inClusterOff len : ℕ) (fs : Fs) : List Byte × ℕ × ℕ × Fs :=
  let take := min (G.bytesPerCluster - inClusterOff) len
  if inClusterOff = 0 ∧ take = G.bytesPerCluster then
    let (run, last, prefetched, fs) := readRun G len maxRunSectors 1 cluster fs
    (read fs.disk (G.clusterAddr cluster) (run * G.bytesPerCluster), last, prefetched, fs)
  else (((readCluster G cluster fs).drop inClusterOff).take take, cluster, 0, fs)

def readLoop : ℕ → ℕ → ℕ → ℕ → Fs → List Byte × Fs
  | 0, _, _, _, fs => ([], fs)
  | k + 1, cluster, inClusterOff, len, fs =>
    if 0 < len ∧ ¬isEoc cluster ∧ 2 ≤ cluster then
      let (data, cluster, prefetched, fs) := readTurn G cluster inClusterOff len fs
      let len := len - data.length
      if 0 < len then
        let (next, fs) := if prefetched ≠ 0 then (prefetched, fs) else fatReadEntry G cluster fs
        let (rest, fs) := readLoop k next 0 len fs
        (data ++ rest, fs)
      else (data, fs)
    else ([], fs)

def fat32FileRead (vd : Vdata) (offset len : ℕ) (fs : Fs) : List Byte × Fs :=
  if vd.fileSize ≤ offset then ([], fs)
  else
    let len := if vd.fileSize < (offset + len) % 2 ^ 64 then vd.fileSize - offset else len
    match walk G (offset / G.bytesPerCluster) vd.firstCluster fs with
    | (none, fs) => ([], fs)
    | (some cluster, fs) => readLoop G len cluster (offset % G.bytesPerCluster) len fs

/-! Writing. -/

section

variable (mem : Memory)

def extend : ℕ → ℕ → Fs → Option ℕ × Fs
  | 0, cluster, fs => (some cluster, fs)
  | k + 1, cluster, fs =>
    let (next, fs) := chainNextOrAlloc G mem cluster true fs
    if next = 0 then (none, fs) else extend k next fs

def writeRun (len : ℕ) : ℕ → ℕ → ℕ → Fs → ℕ × ℕ × ℕ × Fs
  | 0, run, last, fs => (run, last, 0, fs)
  | k + 1, run, last, fs =>
    if (run + 1) * G.bytesPerCluster ≤ len ∧ run * G.sectorsPerCluster < maxRunSectors then
      let (nxt, fs) := chainNextOrAlloc G mem last false fs
      if nxt = 0 then (run, last, 0, fs)
      else if nxt ≠ last + 1 then (run, last, nxt, fs)
      else writeRun len k (run + 1) nxt fs
    else (run, last, 0, fs)

def writeTurn (cluster inClusterOff : ℕ) (data : List Byte) (fs : Fs) : ℕ × ℕ × ℕ × ℕ × Fs :=
  let take := min (G.bytesPerCluster - inClusterOff) data.length
  if inClusterOff = 0 ∧ take = G.bytesPerCluster then
    let (run, last, prefetched, fs) := writeRun G mem data.length maxRunSectors 1 cluster fs
    (run * G.bytesPerCluster, last, run - 1, prefetched,
      writeCluster G cluster (data.take (run * G.bytesPerCluster)) fs)
  else
    let ioBuf := readCluster G cluster fs
    let ioBuf := ioBuf.take inClusterOff ++ data.take take ++ ioBuf.drop (inClusterOff + take)
    (take, cluster, 0, 0, writeCluster G cluster ioBuf fs)

/-- The loop of `fat32_file_write`: how much was written, the cluster it ends in and its index. -/
def writeLoop : ℕ → ℕ → ℕ → ℕ → List Byte → Fs → ℕ × ℕ × ℕ × Fs
  | 0, cluster, index, _, _, fs => (0, cluster, index, fs)
  | k + 1, cluster, index, inClusterOff, data, fs =>
    if data = [] then (0, cluster, index, fs)
    else
      let (done, cluster, skipped, prefetched, fs) := writeTurn G mem cluster inClusterOff data fs
      let index := index + skipped
      let data := data.drop done
      if data = [] then (done, cluster, index, fs)
      else
        let (next, fs) :=
          if prefetched ≠ 0 then (prefetched, fs)
          else chainNextOrAlloc G mem cluster (decide (data.length < G.bytesPerCluster)) fs
        if next = 0 then (done, cluster, index, fs)
        else
          let (more, cluster, index, fs) := writeLoop k next (index + 1) 0 data fs
          (done + more, cluster, index, fs)

def fat32FileWrite (vd : Vdata) (data : List Byte) (offset : ℕ) (fs : Fs) : ℤ × Vdata × Fs :=
  let (c, fs) := if vd.firstCluster = 0 then allocateClusterEx G mem true fs
    else (vd.firstCluster, fs)
  if c = 0 then (-Errno.enospc, vd, fs)
  else
    let vd :=
      if vd.firstCluster = 0 then
        { vd with firstCluster := c, cachedCluster := c, cachedIndex := 0 }
      else vd
    let targetIndex := offset / G.bytesPerCluster
    let (cluster, startIndex) :=
      if vd.cachedCluster ≠ 0 ∧ vd.cachedIndex ≤ targetIndex then (vd.cachedCluster, vd.cachedIndex)
      else (vd.firstCluster, 0)
    match extend G mem (targetIndex - startIndex) cluster fs with
    | (none, fs) => (-Errno.enospc, vd, fs)
    | (some cluster, fs) =>
      if ¬vd.ioBuf ∧ ¬mem.buffer then (-Errno.enomem, vd, fs)
      else
        let (done, cluster, index, fs) :=
          writeLoop G mem data.length cluster targetIndex (offset % G.bytesPerCluster) data fs
        let vd := { vd with ioBuf := true, cachedCluster := cluster, cachedIndex := index }
        let vd :=
          if vd.fileSize < offset + done then
            { vd with fileSize := (offset + done) % 2 ^ 32, sizeDirty := true }
          else vd
        (done, vd, fs)

end

/-! Closing. -/

def updateDirent (vd : Vdata) (now : Option (ℕ × ℕ)) (tmp : ℕ → Byte) : ℕ → Byte :=
  let a := vd.dirEntryOffset
  let createDate := (tmp (a + 16)).toNat + 2 ^ 8 * (tmp (a + 17)).toNat
  let tmp := write tmp (a + 28) (put32 vd.fileSize)
  let tmp := write tmp (a + 26) (put16 (vd.firstCluster % 2 ^ 16))
  let tmp := write tmp (a + 20) (put16 (vd.firstCluster / 2 ^ 16))
  let tmp := write tmp (a + 11) [UInt8.ofNat (if vd.attr = 0 then 0x20 else vd.attr)]
  match now with
  | none => tmp
  | some (d, t) =>
    let tmp := write tmp (a + 24) (put16 d)
    let tmp := write tmp (a + 22) (put16 t)
    let tmp := write tmp (a + 18) (put16 d)
    if createDate = 0 then write (write tmp (a + 16) (put16 d)) (a + 14) (put16 t) else tmp

def fat32CommonUnref (mem : Memory) (vd : Vdata) (now : Option (ℕ × ℕ)) (fs : Fs) : Fs :=
  if vd.sizeDirty then
    if mem.buffer then
      let tmp := updateDirent vd now fun i => fs.disk (G.clusterAddr vd.dirCluster + i)
      fat32Sync G (writeCluster G vd.dirCluster (read tmp 0 G.bytesPerCluster) fs)
    else fat32Sync G fs
  else fs

end

end Cervus.Fat32
