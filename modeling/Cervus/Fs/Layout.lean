import Cervus.Lib.Disk
import Cervus.Net.Bytes

/-! The superblock and the group descriptors of a mounted ext2 volume as the
bytes they are on the device, with the checksums the driver keeps in them. -/

namespace Cervus.Fs

open List
open Net (Byte rd16be rd32be be16 be32 rd32be_be32)

abbrev Image := Nat → Byte

def rd16le (p : List Byte) (i : Nat) : Nat :=
  (p.getD i 0).toNat + (p.getD (i + 1) 0).toNat * 256

def rd32le (p : List Byte) (i : Nat) : Nat := rd16le p i + rd16le p (i + 2) * 65536

def le16 (v : Nat) : List Byte := [BitVec.ofNat 8 v, BitVec.ofNat 8 (v / 256)]

def le32 (v : Nat) : List Byte := le16 v ++ le16 (v / 65536)

/-- The bytes of `new` copied over those of `p` from `off` on. -/
def patch (p : List Byte) (off : Nat) (new : List Byte) : List Byte :=
  p.take off ++ new ++ p.drop (off + new.length)

@[simp] theorem length_be32 (v : Nat) : (be32 v).length = 4 := rfl

@[simp] theorem length_be16 (v : Nat) : (be16 v).length = 2 := rfl

theorem length_patch {p new : List Byte} {off : Nat} (h : off + new.length ≤ p.length) :
    (patch p off new).length = p.length := by
  simp only [patch, length_append, length_take, length_drop]
  omega

theorem rd32be_lt (p : List Byte) (i : Nat) : rd32be p i < 2 ^ 32 := by
  have h1 := Net.rd16be_lt p i
  have h2 := Net.rd16be_lt p (i + 2)
  simp only [rd32be]
  omega

section
variable {p new : List Byte} {off i : Nat}

theorem getD_patch_of_mem (h : off + new.length ≤ p.length) (hi : i < new.length) :
    (patch p off new).getD (off + i) 0 = new.getD i 0 := by
  have hl : (p.take off).length = off := by rw [length_take]; omega
  rw [patch, append_assoc, getD_append_right _ _ _ _ (by omega), hl,
    Nat.add_sub_cancel_left, getD_append _ _ _ _ hi]

theorem getD_patch_of_notMem (h : off ≤ p.length ∨ i < p.length)
    (hi : i < off ∨ off + new.length ≤ i) : (patch p off new).getD i 0 = p.getD i 0 := by
  rw [patch, append_assoc]
  by_cases hl : i < off
  · by_cases hp : i < p.length
    · rw [getD_append _ _ _ _ (by rw [length_take]; omega)]
      simp [getD_eq_getElem?_getD, hl]
    · omega
  · have ho : (p.take off).length = off := by rw [length_take]; omega
    obtain ⟨k, rfl⟩ := Nat.exists_eq_add_of_le (hi.resolve_left hl)
    rw [← append_assoc,
      getD_append_right _ _ _ _ (by rw [length_append, ho]; omega)]
    simp [getD_eq_getElem?_getD, length_append, ho]

theorem patch_patch {new' : List Byte} (h : off + new.length ≤ p.length)
    (hn : new'.length = new.length) : patch (patch p off new) off new' = patch p off new' := by
  have hl : (p.take off).length = off := by rw [length_take]; omega
  simp only [patch, hn]
  congr 1
  · congr 1
    rw [append_assoc, take_append_of_le_length (by omega), take_take, min_self]
  · rw [drop_append, drop_of_length_le (by rw [length_append, hl]),
      length_append, hl, Nat.sub_self, drop_zero, nil_append]

theorem rd32be_patch_of_notMem (h : off + new.length ≤ p.length)
    (hi : i + 4 ≤ off ∨ off + new.length ≤ i) : rd32be (patch p off new) i = rd32be p i := by
  have ho : off ≤ p.length := by omega
  simp only [rd32be, rd16be]
  rw [getD_patch_of_notMem (.inl ho) (by omega), getD_patch_of_notMem (.inl ho) (by omega),
    getD_patch_of_notMem (.inl ho) (by omega), getD_patch_of_notMem (.inl ho) (by omega)]

theorem rd32be_patch_same {v : Nat} (h : off + 4 ≤ p.length) :
    rd32be (patch p off (be32 v)) off = v % 2 ^ 32 := by
  have hv := rd32be_be32 v []
  rw [append_nil] at hv
  rw [← hv]
  have hl : off + (be32 v).length ≤ p.length := by simpa using h
  have g : ∀ k < 4, (patch p off (be32 v)).getD (off + k) 0 = (be32 v).getD k 0 :=
    fun k hk => getD_patch_of_mem hl (by simpa using hk)
  simp only [rd32be, rd16be, add_assoc, zero_add]
  rw [show (patch p off (be32 v)).getD off 0 = (be32 v).getD 0 0 from g 0 (by omega),
    g 1 (by omega), g 2 (by omega), g (2 + 1) (by omega)]

end

def superOffset : Nat := 1024
def superSize : Nat := 1024
def superMagic : Nat := 0xEF53

/-- The fields of `ext2_superblock_t` the model reads, by their offset. -/
def sBlocksCount : Nat := 4
def sLogBlockSize : Nat := 24
def sBlocksPerGroup : Nat := 32
def sInodesPerGroup : Nat := 40
def sMagic : Nat := 56
def sRevLevel : Nat := 76
def sInodeSize : Nat := 88
def sFeatureCompat : Nat := 92
def sFeatureIncompat : Nat := 96
def sFeatureRoCompat : Nat := 100
def sUuid : Nat := 104
def sJournalInum : Nat := 224
def sDescSize : Nat := 254
def sCsumSeed : Nat := 0x270
def sChecksum : Nat := 1020

def compatHasJournal : Nat := 0x0004
def incompatRecover : Byte := 0x04
def incompat64Bit : Nat := 0x0080
def incompatCsumSeed : Nat := 0x2000
def roCompatMetadataCsum : Nat := 0x0400

def bgChecksum : Nat := 0x1E
def groupDescSize : Nat := 32

/-- What the driver takes from elsewhere: `crc32c`, and the device blocks of
the journal inode (`ext2_bmap`, zero where it gives none) on a volume where none of
the blocks written holds that inode or its map. -/
structure Env where
  crc32c : Nat → List Byte → Nat
  bmap : Nat → Nat

structure Ext2 where
  sb : List Byte
  gdt : List Byte
  gdtShadow : Option (List Byte)
  blockSize : Nat
  groupsCount : Nat
  descSize : Nat
  dirty : Bool
  hasCsum : Bool
  csumSeed : Nat
  journalWritable : Bool

def setRecover (sb : List Byte) : List Byte :=
  patch sb sFeatureIncompat [sb.getD sFeatureIncompat 0 ||| incompatRecover]

def clearRecover (sb : List Byte) : List Byte :=
  patch sb sFeatureIncompat [sb.getD sFeatureIncompat 0 &&& ~~~incompatRecover]

def needsRecover (sb : List Byte) : Bool := sb.getD sFeatureIncompat 0 &&& incompatRecover != 0

theorem getD_recover {sb : List Byte} (h : sb.length = superSize) (x : Byte) :
    (patch sb sFeatureIncompat [x]).getD sFeatureIncompat 0 = x := by
  refine getD_patch_of_mem (i := 0) ?_ (by simp)
  rw [h]
  exact show 96 + 1 ≤ 1024 by decide

theorem recover_mask :
    ∀ x : Byte, (x ||| incompatRecover) &&& ~~~incompatRecover = x &&& ~~~incompatRecover ∧
    x &&& ~~~incompatRecover &&& ~~~incompatRecover = x &&& ~~~incompatRecover ∧
    x &&& ~~~incompatRecover &&& incompatRecover = 0 := by decide

section
variable {sb : List Byte} (h : sb.length = superSize)
include h

theorem length_setRecover : (setRecover sb).length = superSize := by
  refine (length_patch ?_).trans h
  rw [h]
  exact show 96 + 1 ≤ 1024 by decide

theorem length_clearRecover : (clearRecover sb).length = superSize := by
  refine (length_patch ?_).trans h
  rw [h]
  exact show 96 + 1 ≤ 1024 by decide

theorem clearRecover_set : clearRecover (setRecover sb) = clearRecover sb := by
  have hp : sFeatureIncompat + 1 ≤ sb.length := by rw [h]; decide
  unfold clearRecover setRecover
  rw [getD_recover h, patch_patch (by simpa using hp) (by simp), (recover_mask _).1]

theorem clearRecover_clear : clearRecover (clearRecover sb) = clearRecover sb := by
  have hp : sFeatureIncompat + 1 ≤ sb.length := by rw [h]; decide
  unfold clearRecover
  rw [getD_recover h, patch_patch (by simpa using hp) (by simp), (recover_mask _).2.1]

theorem needsRecover_clear : needsRecover (clearRecover sb) = false := by
  unfold needsRecover clearRecover
  rw [getD_recover h, (recover_mask _).2.2]
  rfl

end

def gdtBlock (fs : Ext2) : Nat := if fs.blockSize = 1024 then 2 else 1

/-- The blocks of the table of group descriptors, counted in 32 bits. -/
def gdtBlocks (bs groups desc : Nat) : Nat := (groups * desc % 2 ^ 32 + bs - 1) % 2 ^ 32 / bs

abbrev Ext2.gdtBlocks (fs : Ext2) : Nat := Fs.gdtBlocks fs.blockSize fs.groupsCount fs.descSize

/-! What a mount computes from a superblock it has not checked. -/

inductive Fault where
  | shift
  | divide
  deriving DecidableEq

def shiftKilo (s : Nat) : Except Fault Nat := if s ≤ 20 then .ok (1024 <<< s) else .error .shift

def divide (a b : Nat) : Except Fault Nat := if b = 0 then .error .divide else .ok (a / b)

structure Geometry where
  blockSize : Nat
  inodeSize : Nat
  groupsCount : Nat
  inodesPerBlock : Nat
  descSize : Nat
  deriving DecidableEq

abbrev Geometry.gdtBlocks (g : Geometry) : Nat :=
  Fs.gdtBlocks g.blockSize g.groupsCount g.descSize

def inodeSizeOf (sb : List Byte) : Nat :=
  if 1 ≤ rd32le sb sRevLevel then rd16le sb sInodeSize else 128

def descSizeOf (sb : List Byte) : Nat :=
  if rd32le sb sFeatureIncompat &&& incompat64Bit ≠ 0 then
    if rd16le sb sDescSize ≠ 0 then rd16le sb sDescSize else 64
  else groupDescSize

/-- The fields of `ext2_t` that `ext2_mount` computes before it allocates the table
of descriptors. -/
def ext2Geometry (sb : List Byte) : Except Fault Geometry := do
  let blockSize ← shiftKilo (rd32le sb sLogBlockSize)
  let perGroup := rd32le sb sBlocksPerGroup
  let groupsCount ← divide ((rd32le sb sBlocksCount + perGroup + 2 ^ 32 - 1) % 2 ^ 32) perGroup
  let inodesPerBlock ← divide blockSize (inodeSizeOf sb)
  return ⟨blockSize, inodeSizeOf sb, groupsCount, inodesPerBlock, descSizeOf sb⟩

theorem divide_ok {a b q : Nat} : divide a b = .ok q ↔ b ≠ 0 ∧ a / b = q := by
  unfold divide
  split_ifs with h <;> simp [h]

theorem shiftKilo_ok {n q : Nat} : shiftKilo n = .ok q ↔ n ≤ 20 ∧ 1024 <<< n = q := by
  unfold shiftKilo
  split_ifs with h <;> simp [h]

theorem bind_ok {α β : Type} {x : Except Fault α} {f : α → Except Fault β} {b : β} :
    (x >>= f) = .ok b ↔ ∃ a, x = .ok a ∧ f a = .ok b := by
  cases x <;> simp [bind, Except.bind]

theorem ext2Geometry_ok {sb : List Byte} {g : Geometry} : ext2Geometry sb = .ok g ↔
    rd32le sb sLogBlockSize ≤ 20 ∧ rd32le sb sBlocksPerGroup ≠ 0 ∧ inodeSizeOf sb ≠ 0 ∧
      g = ⟨1024 <<< rd32le sb sLogBlockSize, inodeSizeOf sb,
        (rd32le sb sBlocksCount + rd32le sb sBlocksPerGroup + 2 ^ 32 - 1) % 2 ^ 32 /
          rd32le sb sBlocksPerGroup,
        1024 <<< rd32le sb sLogBlockSize / inodeSizeOf sb, descSizeOf sb⟩ := by
  unfold ext2Geometry
  simp only [bind_ok, shiftKilo_ok, divide_ok, pure, Except.pure, Except.ok.injEq]
  constructor
  · rintro ⟨_, ⟨h1, rfl⟩, _, ⟨h2, rfl⟩, _, ⟨h3, rfl⟩, rfl⟩
    exact ⟨h1, h2, h3, rfl⟩
  · rintro ⟨h1, h2, h3, rfl⟩
    exact ⟨_, ⟨h1, rfl⟩, _, ⟨h2, rfl⟩, _, ⟨h3, rfl⟩, rfl⟩

section
variable (E : Env)

def gdCsumSet (descSize csumSeed : Nat) (gdt : List Byte) (g : Nat) : List Byte :=
  let at_ := g * descSize
  let desc := patch (gdt.drop at_) bgChecksum (le16 0)
  let c := E.crc32c csumSeed (le32 g)
  let c := E.crc32c c (desc.take bgChecksum)
  let c := E.crc32c c (le16 0)
  let c := if descSize > 0x20 then E.crc32c c ((desc.drop 0x20).take (descSize - 0x20)) else c
  patch gdt (at_ + bgChecksum) (le16 c)

def gdCsumAll (fs : Ext2) : Ext2 :=
  if fs.hasCsum then
    { fs with
      gdt := (List.range fs.groupsCount).foldl (gdCsumSet E fs.descSize fs.csumSeed) fs.gdt }
  else fs

def sbCsumSet (fs : Ext2) : Ext2 :=
  if fs.hasCsum then
    { fs with sb := patch fs.sb sChecksum (le32 (E.crc32c 0xFFFFFFFF (fs.sb.take sChecksum))) }
  else fs

def ext2CsumFinalize (fs : Ext2) : Ext2 := sbCsumSet E (gdCsumAll E fs)

theorem ext2CsumFinalize_frame (fs : Ext2) : (ext2CsumFinalize E fs).blockSize = fs.blockSize ∧
    (ext2CsumFinalize E fs).groupsCount = fs.groupsCount ∧ (ext2CsumFinalize E fs).descSize =
    fs.descSize ∧
    (ext2CsumFinalize E fs).gdt = (gdCsumAll E fs).gdt := by
  unfold ext2CsumFinalize sbCsumSet gdCsumAll
  by_cases h : fs.hasCsum = true <;> simp [h]

end

end Cervus.Fs
