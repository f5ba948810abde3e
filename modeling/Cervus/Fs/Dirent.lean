import Mathlib.Tactic.NormNum
import Mathlib.Tactic.Positivity
import Cervus.Fs.Layout

/-! The divisions that a mount makes with the fields of the superblock, and the
search for a name in the blocks of a directory, with every read of the block buffer
checked against its end. -/

namespace Cervus.Fs

open Net (Byte)

def rootIno : Nat := 2

/-- `ext2_mount` up to the first call of `inode_read`, which divides by the number of
inodes in a group; `none` where it gives up before. `loaded` is false when memory or
the device fails. -/
def mountStart (sb : List Byte) (loaded : Bool) : Except Fault (Option Geometry) :=
  if rd16le sb sMagic ≠ superMagic then .ok none
  else do
    let g ← ext2Geometry sb
    -- a table of no bytes is not allocated: `kmalloc(0)` is `NULL`
    if g.gdtBlocks = 0 ∨ loaded = false then return none
    let _ ← divide (rootIno - 1) (rd32le sb sInodesPerGroup)
    return some g

/-- The fields that a mount shifts or divides by. -/
structure GeometryOk (sb : List Byte) : Prop where
  shift : rd32le sb sLogBlockSize ≤ 20
  blocks : rd32le sb sBlocksPerGroup ≠ 0
  size : 1 ≤ rd32le sb sRevLevel → rd16le sb sInodeSize ≠ 0
  inodes : ∀ g, ext2Geometry sb = .ok g → g.gdtBlocks ≠ 0 → rd32le sb sInodesPerGroup ≠ 0

theorem inodeSizeOf_ne_zero {sb : List Byte} :
    inodeSizeOf sb ≠ 0 ↔ (1 ≤ rd32le sb sRevLevel → rd16le sb sInodeSize ≠ 0) := by
  unfold inodeSizeOf
  split_ifs with h <;> simp [h]

theorem mountStart_ok_iff {sb : List Byte} (hm : rd16le sb sMagic = superMagic) :
    (∀ loaded, ∃ g, mountStart sb loaded = .ok g) ↔ GeometryOk sb := by
  simp only [mountStart, if_neg (not_not.mpr hm), bind_ok]
  constructor
  · intro h
    obtain ⟨_, g, hg, hrest⟩ := h true
    obtain ⟨h1, h2, h3, -⟩ := ext2Geometry_ok.mp hg
    refine ⟨h1, h2, inodeSizeOf_ne_zero.mp h3, fun g' hg' hne => ?_⟩
    cases hg.symm.trans hg'
    rw [if_neg (by simp [hne]), bind_ok] at hrest
    obtain ⟨q, hq, -⟩ := hrest
    exact (divide_ok.mp hq).1
  · rintro ⟨h1, h2, h3, h4⟩ loaded
    have hg := ext2Geometry_ok.mpr ⟨h1, h2, inodeSizeOf_ne_zero.mpr h3, rfl⟩
    generalize Geometry.mk _ _ _ _ _ = g at hg
    by_cases hne : g.gdtBlocks = 0 ∨ loaded = false
    · exact ⟨none, g, hg, if_pos hne⟩
    · refine ⟨some g, g, hg, ?_⟩
      rw [if_neg hne, bind_ok]
      exact ⟨_, divide_ok.mpr ⟨h4 g hg fun h => hne (.inl h), rfl⟩, rfl⟩

/-! The search for a name. -/

inductive Scan where
  | outside
  | endless
  | done
  | found (ino : Nat)
  deriving DecidableEq

def entInode (blk : List Byte) (off : Nat) : Nat := rd32le blk off
def entRecLen (blk : List Byte) (off : Nat) : Nat := rd16le blk (off + 4)
def entNameLen (blk : List Byte) (off : Nat) : Nat := (blk.getD (off + 6) 0).toNat
def entName (blk : List Byte) (off n : Nat) : List Byte := (blk.drop (off + 8)).take n

section
variable (bs ds : Nat) (name : List Byte)

/-- The inner loop of `ext2_dir_lookup` over the block at `pos`. The record length,
the inode, the length of the name and the name are read in this order. -/
def scanBlock (blk : List Byte) (pos : Nat) : Nat → Nat → Scan
  | 0, _ => .endless
  | fuel + 1, off =>
    if off < bs ∧ (pos + off) % 2 ^ 32 < ds then
      if bs < off + 6 then .outside
      else if entRecLen blk off = 0 then .done
      else if entInode blk off ≠ 0 ∧ bs < off + 7 then .outside
      else if entInode blk off ≠ 0 ∧ entNameLen blk off = name.length then
        if bs < off + 8 + name.length then .outside
        else if entName blk off name.length = name then .found (entInode blk off)
        else scanBlock blk pos fuel (off + entRecLen blk off)
      else scanBlock blk pos fuel (off + entRecLen blk off)
    else .done

/-- `ext2_dir_lookup`: `D` gives the contents of the blocks that are there. -/
def dirLookup (D : Nat → Option (List Byte)) : Nat → Nat → Nat → Scan
  | 0, _, _ => .endless
  | fuel + 1, pos, fb =>
    if pos < ds then
      match (D fb).elim .done fun blk => scanBlock bs ds name blk pos (bs + 1) 0 with
      | .done => dirLookup D fuel ((pos + bs) % 2 ^ 32) ((fb + 1) % 2 ^ 32)
      | r => r
    else .done

end

def Scan.Safe : Scan → Prop
  | .outside | .endless => False
  | .done | .found _ => True

def LookupSafe (bs ds : Nat) (name : List Byte) (D : Nat → Option (List Byte)) : Prop :=
  ∃ fuel, (dirLookup bs ds name D fuel 0 0).Safe

/-- From `off` on the block is made of entries, each with its name inside it and the
last one ending with the block. -/
inductive Tiled (bs : Nat) (blk : List Byte) : Nat → Prop
  | last : Tiled bs blk bs
  | entry {off : Nat} (name : 8 + entNameLen blk off ≤ entRecLen blk off)
      (block : off + entRecLen blk off ≤ bs) (next : Tiled bs blk (off + entRecLen blk off)) :
      Tiled bs blk off

section
variable {bs ds pos fuel off : Nat} {name blk : List Byte} {D : Nat → Option (List Byte)}

theorem Tiled.scan (h : Tiled bs blk off) (hf : bs < off + fuel) :
    (scanBlock bs ds name blk pos fuel off).Safe := by
  induction h generalizing fuel with
  | last =>
    obtain ⟨fuel, rfl⟩ := Nat.exists_eq_succ_of_ne_zero (show fuel ≠ 0 by omega)
    rw [scanBlock, if_neg fun h => absurd h.1 (lt_irrefl _)]
    trivial
  | entry hname hblock hnext ih =>
    obtain ⟨fuel, rfl⟩ := Nat.exists_eq_succ_of_ne_zero (show fuel ≠ 0 by omega)
    have hgo := @ih fuel (by omega)
    rw [scanBlock]
    split_ifs with hs h6 hr h7 hn h8 he
    · omega
    · trivial
    · omega
    · omega
    · trivial
    · exact hgo
    · exact hgo
    · trivial

/-- The search goes through the blocks one after the other and does not come back to
the first: the position does not wrap around. -/
theorem dirLookup_safe (hd : ds + bs ≤ 2 ^ 32)
    (hD : ∀ fb blk, D fb = some blk → Tiled bs blk 0) (fb : Nat) (hf : ds ≤ pos + fuel * bs) :
    (dirLookup bs ds name D (fuel + 1) pos fb).Safe := by
  induction fuel generalizing pos fb with
  | zero =>
    rw [dirLookup, if_neg (by omega)]
    trivial
  | succ fuel ih =>
    rw [dirLookup]
    split_ifs with hp
    · have hs : ((D fb).elim Scan.done fun blk =>
          scanBlock bs ds name blk pos (bs + 1) 0).Safe := by
        cases h : D fb with
        | none => trivial
        | some blk => exact (hD fb blk h).scan (by omega)
      cases hr : (D fb).elim Scan.done fun blk => scanBlock bs ds name blk pos (bs + 1) 0 with
      | outside | endless =>
        rw [hr] at hs
        exact hs.elim
      | found ino => trivial
      | done =>
        dsimp only
        rw [Nat.mod_eq_of_lt (show pos + bs < 2 ^ 32 by omega)]
        exact ih _ (by rw [Nat.succ_mul] at hf; omega)
    · trivial

theorem lookupSafe_of_tiled (hb : 0 < bs) (hd : ds + bs ≤ 2 ^ 32)
    (hD : ∀ fb blk, D fb = some blk → Tiled bs blk 0) : LookupSafe bs ds name D :=
  ⟨ds + 1, dirLookup_safe hd hD 0 (by rw [zero_add]; exact Nat.le_mul_of_pos_right ds hb)⟩

end

def plainSb (perGroup : Nat) : List Byte :=
  patch (patch (patch (patch (List.replicate 1024 0) sMagic (le16 superMagic)) sBlocksCount
    (le32 8192)) sBlocksPerGroup (le32 perGroup)) sInodesPerGroup (le32 128)

def dirEntry (ino rec : Nat) (name : List Byte) : List Byte :=
  le32 ino ++ le16 rec ++ [BitVec.ofNat 8 name.length, 0] ++ name ++
    List.replicate (rec - 8 - name.length) 0

/-- The block of a root directory with one file. -/
def rootBlock : List Byte := dirEntry 2 12 [46] ++ dirEntry 2 12 [46, 46] ++ dirEntry 11 1000 [97]

theorem rootBlock_tiled : Tiled 1024 rootBlock 0 := by
  have h : Tiled 1024 rootBlock 24 :=
    .entry (by decide +kernel) (by decide +kernel)
      ((show 24 + entRecLen rootBlock 24 = 1024 by decide +kernel) ▸ .last)
  have h' : Tiled 1024 rootBlock 12 := by
    refine .entry (by decide +kernel) (by decide +kernel) ?_
    rwa [show 12 + entRecLen rootBlock 12 = 24 by decide +kernel]
  refine .entry (by decide +kernel) (by decide +kernel) ?_
  rwa [show 0 + entRecLen rootBlock 0 = 12 by decide +kernel]

def shortBlock : List Byte := patch (List.replicate 1024 0) 4 (le16 1020)

/-- In a directory of holes whose size is `2 ^ 32 - 1` the position wraps around. -/
theorem dirLookup_wraps (fuel fb : Nat) {pos : Nat} (hp : pos < 2 ^ 32) (hd : 1024 ∣ pos) :
    dirLookup 1024 (2 ^ 32 - 1) [97] (fun _ => none) fuel pos fb = .endless := by
  induction fuel generalizing pos fb with
  | zero => rfl
  | succ fuel ih =>
    rw [dirLookup, if_pos (by omega)]
    exact ih _ (Nat.mod_lt _ (by norm_num)) (by omega)

end Cervus.Fs
