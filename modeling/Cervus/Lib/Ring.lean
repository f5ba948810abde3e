import Mathlib.Data.Nat.ModEq
import Cervus.Lib.Disk

/-! Circular buffers of `size` cells: `used` of them from `head` on, wrapping at
the end, read as a list. -/

namespace Cervus.Ring

open Disk

variable {β : Type*} {size head used : Nat} {buf : Nat → β} {data : List β}

def contents (size : Nat) (buf : Nat → β) (head used : Nat) : List β :=
  (List.range used).map fun i => buf ((head + i) % size)

@[simp] theorem length_contents : (contents size buf head used).length = used := by simp [contents]

theorem getElem?_contents {i : Nat} (h : i < used) :
    (contents size buf head used)[i]? = some (buf ((head + i) % size)) := by
  simp [contents, h]

theorem read_eq_take {n : Nat} (hn : n ≤ used) (hw : head + n ≤ size) :
    read buf head n = (contents size buf head used).take n := by
  refine List.ext_getElem? fun i => ?_
  rcases Nat.lt_or_ge i n with hi | hi
  · rw [Disk.read_getElem? hi, List.getElem?_take_of_lt hi, getElem?_contents (by omega),
      Nat.mod_eq_of_lt (by omega)]
  · rw [List.getElem?_eq_none (by simpa using hi), List.getElem?_eq_none (by simp; omega)]

theorem contents_drop {n : Nat} (hn : n ≤ used) :
    contents size buf ((head + n) % size) (used - n) = (contents size buf head used).drop n := by
  refine List.ext_getElem? fun i => ?_
  rw [List.getElem?_drop]
  rcases lt_or_ge i (used - n) with hi | hi
  · rw [getElem?_contents hi, getElem?_contents (by omega), Nat.mod_add_mod, add_assoc]
  · rw [List.getElem?_eq_none (by simpa using hi), List.getElem?_eq_none (by simp; omega)]

theorem cell_inj {i j : Nat} (hi : i < size) (hj : j < size)
    (h : (head + i) % size = (head + j) % size) :
    i = j := by
  have hm : i ≡ j [MOD size] := Nat.ModEq.add_left_cancel' head h
  rwa [Nat.ModEq, Nat.mod_eq_of_lt hi, Nat.mod_eq_of_lt hj] at hm

theorem contents_write (hu : used + data.length ≤ size)
    (hw : (head + used) % size + data.length ≤ size) :
    contents size (write buf ((head + used) % size) data) head (used + data.length) =
      contents size buf head used ++ data := by
  have hcell : ∀ k < data.length, (head + (used + k)) % size = (head + used) % size + k := by
    intro k hk
    rw [← add_assoc, ← Nat.mod_add_mod, Nat.mod_eq_of_lt (by omega)]
  refine List.ext_getElem? fun i => ?_
  rcases lt_or_ge i used with hi | hi
  · rw [getElem?_contents (by omega), List.getElem?_append_left (by simpa using hi),
      getElem?_contents hi,
      Disk.write_outside]
    -- a cell in the written range would be one of the free ones
    by_contra hin
    push Not at hin
    obtain ⟨k, hk⟩ := Nat.exists_eq_add_of_le hin.1
    have hlt : k < data.length := by omega
    rw [← hcell k hlt] at hk
    have := cell_inj (by omega) (by omega) hk
    omega
  · obtain ⟨k, rfl⟩ := Nat.exists_eq_add_of_le hi
    rw [List.getElem?_append_right (by simp), length_contents, Nat.add_sub_cancel_left]
    rcases lt_or_ge k data.length with hk | hk
    · rw [getElem?_contents (by omega), hcell k hk, Disk.write_inside hk,
        List.getElem?_eq_getElem hk]
    · rw [List.getElem?_eq_none (by simp; omega), List.getElem?_eq_none hk]

/-! Copies in at most two pieces, the second one from the start of the buffer on. -/

def put (size : Nat) (buf : Nat → β) (pos : Nat) (data : List β) : Nat → β :=
  let first := min (size - pos) data.length
  let buf' := write buf pos (data.take first)
  if first < data.length then write buf' 0 (data.drop first) else buf'

def get (size : Nat) (buf : Nat → β) (pos n : Nat) : List β :=
  let first := min (size - pos) n
  read buf pos first ++ read buf 0 (n - first)

theorem length_get (size : Nat) (buf : Nat → β) (pos n : Nat) :
    (get size buf pos n).length = n := by
  rw [get, List.length_append, Disk.length_read, Disk.length_read]
  omega

end Cervus.Ring
