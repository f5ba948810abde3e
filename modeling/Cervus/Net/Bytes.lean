import Mathlib.Algebra.Order.Ring.Nat
import Mathlib.Data.List.GetD
import Mathlib.Data.Nat.SuccPred

/-! Bytes of packets in network order. -/

namespace Cervus.Net

abbrev Byte := BitVec 8

def rd16be (p : List Byte) (i : Nat) : Nat :=
  (p.getD i 0).toNat * 256 + (p.getD (i + 1) 0).toNat

def rd32be (p : List Byte) (i : Nat) : Nat := rd16be p i * 65536 + rd16be p (i + 2)

def be16 (v : Nat) : List Byte := [BitVec.ofNat 8 (v / 256), BitVec.ofNat 8 v]

def be32 (v : Nat) : List Byte := be16 (v / 65536) ++ be16 v

theorem rd16be_lt (p : List Byte) (i : Nat) : rd16be p i < 65536 := by
  simp only [rd16be]
  omega

theorem getD_append_add (a b : List Byte) (k : Nat) :
    (a ++ b).getD (a.length + k) 0 = b.getD k 0 := by
  rw [List.getD_append_right _ _ _ _ (Nat.le_add_right _ _), Nat.add_sub_cancel_left]

theorem rd16be_append_add (a b : List Byte) (k : Nat) :
    rd16be (a ++ b) (a.length + k) = rd16be b k := by
  rw [rd16be, rd16be, add_assoc, getD_append_add, getD_append_add]

theorem rd16be_be16 (v : Nat) (b : List Byte) : rd16be (be16 v ++ b) 0 = v % 65536 := by
  simp [rd16be, be16]
  omega

theorem rd32be_append_add (a b : List Byte) (k : Nat) :
    rd32be (a ++ b) (a.length + k) = rd32be b k := by
  rw [rd32be, rd32be, add_assoc, rd16be_append_add, rd16be_append_add]

theorem rd32be_be32 (v : Nat) (b : List Byte) : rd32be (be32 v ++ b) 0 = v % 2 ^ 32 := by
  rw [rd32be, be32, List.append_assoc, rd16be_be16]
  have h := rd16be_append_add (be16 (v / 65536)) (be16 v ++ b) 0
  rw [rd16be_be16] at h
  have hl : (be16 (v / 65536)).length = 2 := rfl
  rw [hl] at h
  rw [h]
  omega

end Cervus.Net
