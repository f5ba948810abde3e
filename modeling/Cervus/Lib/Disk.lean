import Mathlib.Algebra.Order.Ring.Nat
import Mathlib.Order.Lattice.Nat

/-! A byte addressed device: ranges that are read and written, lists of writes
carried out in order, and the images a loss of power can leave when the writes
since the last flush reach the device in any subset and order. -/

namespace Cervus.Disk

open List

variable {β : Type*} {d d' : Nat → β} {off len a : Nat} {data : List β}

def read (d : Nat → β) (off len : Nat) : List β := (List.range len).map fun i => d (off + i)

def write (d : Nat → β) (off : Nat) (data : List β) : Nat → β :=
  fun a => if off ≤ a then data[a - off]?.getD (d a) else d a

def run (d : Nat → β) (ws : List (Nat × List β)) : Nat → β :=
  ws.foldl (fun d w => write d w.1 w.2) d

/-- The writes that put whole blocks of `bs` bytes in place. -/
def blocks (bs : Nat) (ws : List (Nat × List β)) : List (Nat × List β) :=
  ws.map fun w => (w.1 * bs, w.2)

def Crash (d : Nat → β) : List (List (Nat × List β)) → (Nat → β) → Prop
  | [], d' => d' = d
  | g :: gs, d' => (∃ s, s.Subperm g ∧ d' = run d s) ∨ Crash (run d g) gs d'

@[simp] theorem length_read : (read d off len).length = len := by simp [read]

variable {i n o : Nat} {ws : List (Nat × List β)}

theorem read_getElem? (h : i < len) : (read d off len)[i]? = some (d (off + i)) := by
  simp [read, h]

theorem read_congr (h : ∀ a, off ≤ a → a < off + len → d a = d' a) :
    read d off len = read d' off len := by
  refine map_congr_left fun i hi => ?_
  have := mem_range.mp hi
  exact h (off + i) (by omega) (by omega)

theorem read_eq_iff :
    read d off len = read d' off len ↔ ∀ a, off ≤ a → a < off + len → d a = d' a := by
  refine ⟨fun h a h1 h2 => ?_, read_congr⟩
  have hi : a - off < len := by omega
  have := congrArg (·[a - off]?) h
  simp only [read_getElem? hi, Option.some.injEq] at this
  rwa [Nat.add_sub_cancel' h1] at this

theorem write_outside (h : a < off ∨ off + data.length ≤ a) : write d off data a = d a := by
  rcases h with h | h
  · exact if_neg (by omega)
  · have : data[a - off]? = none := List.getElem?_eq_none (by omega)
    simp [write, this]

theorem write_inside (h : i < data.length) : write d off data (off + i) = data[i] := by
  simp [write, h]

theorem read_write_take (h : len ≤ data.length) :
    read (write d off data) off len = data.take len := by
  refine ext_getElem (by simpa using h) fun i h1 h2 => ?_
  simp only [length_read] at h1
  simp only [read, getElem_map, getElem_range, getElem_take]
  exact write_inside (by omega)

theorem read_write : read (write d off data) off data.length = data := by
  rw [read_write_take (le_refl _), take_length]

theorem read_write_disjoint (h : off + len ≤ o ∨ o + data.length ≤ off) :
    read (write d o data) off len = read d off len := by
  refine read_congr fun a h1 h2 => write_outside ?_
  omega

theorem read_add (m : Nat) : read d off (len + m) = read d off len ++ read d (off + len) m := by
  simp only [read, range_add, map_append, map_map]
  congr 1
  exact map_congr_left fun i _ => congrArg d (add_assoc off len i).symm

theorem write_append (more : List β) :
    write (write d off data) (off + data.length) more = write d off (data ++ more) := by
  funext a
  rcases lt_or_ge a (off + data.length) with h | h
  · rw [write_outside (.inl h)]
    rcases lt_or_ge a off with h' | h'
    · rw [write_outside (.inl h'), write_outside (.inl h')]
    · simp only [write, if_pos h']
      rw [List.getElem?_append_left (by omega)]
  · simp only [write, if_pos h, if_pos (show off ≤ a by omega)]
    rw [List.getElem?_append_right (by omega),
      List.getElem?_eq_none (show data.length ≤ a - off by omega),
      Nat.sub_sub]
    rfl

theorem write_splice (h : o + data.length ≤ n) :
    write d off ((read d off n).take o ++ data ++ (read d off n).drop (o + data.length)) =
      write d (off + o) data := by
  funext a
  have htake : ((read d off n).take o).length = o := by simp; omega
  rcases lt_or_ge a off with h1 | h1
  · rw [write_outside (.inl h1), write_outside (.inl (by omega))]
  obtain ⟨k, rfl⟩ := Nat.exists_eq_add_of_le h1
  rcases lt_or_ge k o with h2 | h2
  · have hout : write d (off + o) data (off + k) = d (off + k) := write_outside (.inl (by omega))
    rw [hout, write, if_pos h1, Nat.add_sub_cancel_left, append_assoc,
      List.getElem?_append_left (by omega), List.getElem?_take_of_lt h2, read_getElem? (by omega)]
    rfl
  rcases lt_or_ge k (o + data.length) with h3 | h3
  · obtain ⟨m, rfl⟩ := Nat.exists_eq_add_of_le h2
    have hm : m < data.length := by omega
    have hin : write d (off + o) data (off + (o + m)) = data[m] := by
      rw [← add_assoc]
      exact write_inside hm
    rw [hin, write, if_pos h1, Nat.add_sub_cancel_left, append_assoc,
      List.getElem?_append_right (by omega), htake, Nat.add_sub_cancel_left,
      List.getElem?_append_left (by omega), List.getElem?_eq_getElem (by omega)]
    rfl
  have hout : write d (off + o) data (off + k) = d (off + k) := write_outside (.inr (by omega))
  rw [hout, write, if_pos h1, Nat.add_sub_cancel_left, List.getElem?_append_right (by simp; omega),
    List.getElem?_drop]
  rcases lt_or_ge k n with h4 | h4
  · rw [show o + data.length + (k - ((read d off n).take o ++ data).length) = k by
      rw [length_append, htake]; omega, read_getElem? h4]
    rfl
  · rw [List.getElem?_eq_none (by rw [length_append, htake, length_read]; omega)]
    rfl

@[simp] theorem run_nil : run d [] = d := rfl

@[simp] theorem run_cons (w : Nat × List β) (ws : List (Nat × List β)) :
    run d (w :: ws) = run (write d w.1 w.2) ws := rfl

theorem run_append (ws vs : List (Nat × List β)) : run d (ws ++ vs) = run (run d ws) vs :=
  foldl_append

theorem run_outside (h : ∀ w ∈ ws, a < w.1 ∨ w.1 + w.2.length ≤ a) : run d ws a = d a := by
  induction ws generalizing d with
  | nil => rfl
  | cons w ws ih =>
    rw [run_cons, ih fun v hv => h v (mem_cons_of_mem _ hv)]
    exact write_outside (h w mem_cons_self)

theorem read_run_disjoint (h : ∀ w ∈ ws, off + len ≤ w.1 ∨ w.1 + w.2.length ≤ off) :
    read (run d ws) off len = read d off len := by
  refine read_congr fun a h1 h2 => run_outside fun w hw => ?_
  have := h w hw
  omega

theorem read_run_or (hl : data.length = len)
    (h : ∀ w ∈ ws, w = (off, data) ∨ off + len ≤ w.1 ∨ w.1 + w.2.length ≤ off) :
    read (run d ws) off len = read d off len ∨ read (run d ws) off len = data := by
  induction ws generalizing d with
  | nil => exact .inl rfl
  | cons w ws ih =>
    rcases ih (d := write d w.1 w.2) fun v hv => h v (mem_cons_of_mem _ hv) with he | he
    · rcases h w mem_cons_self with rfl | hw
      · refine .inr (he.trans ?_)
        rw [← hl, read_write]
      · exact .inl (he.trans (read_write_disjoint hw))
    · exact .inr he

theorem read_subrange (h : read d off len = read d' off len) (h1 : off ≤ o)
    (h2 : o + n ≤ off + len) : read d o n = read d' o n :=
  read_congr fun a ha hb => read_eq_iff.mp h a (by omega) (by omega)

theorem block_disjoint (bs : Nat) {b c : Nat} (h : b ≠ c) :
    b * bs + bs ≤ c * bs ∨ c * bs + bs ≤ b * bs := by
  rcases lt_or_gt_of_ne h with h | h
  · exact .inl (by simpa [Nat.succ_mul] using Nat.mul_le_mul_right bs (Nat.succ_le_of_lt h))
  · exact .inr (by simpa [Nat.succ_mul] using Nat.mul_le_mul_right bs (Nat.succ_le_of_lt h))

section
variable {bs b : Nat} {ws : List (Nat × List β)}

section
variable (hl : ∀ w ∈ ws, w.2.length = bs)
include hl

theorem read_blocks_of_notMem (h : b ∉ ws.map Prod.fst) :
    read (run d (blocks bs ws)) (b * bs) bs = read d (b * bs) bs := by
  refine read_run_disjoint fun w hw => ?_
  obtain ⟨v, hv, rfl⟩ := mem_map.mp hw
  rw [hl v hv]
  exact block_disjoint bs fun he => h (mem_map.mpr ⟨v, hv, he.symm⟩)

theorem read_blocks_of_mem (hn : (ws.map Prod.fst).Nodup)
    (h : (b, data) ∈ ws) : read (run d (blocks bs ws)) (b * bs) bs = data := by
  induction ws generalizing d with
  | nil => cases h
  | cons w ws ih =>
    have hn := nodup_cons.mp hn
    have hl' := fun v hv => hl v (mem_cons_of_mem _ hv)
    rcases mem_cons.mp h with rfl | h
    · have hd : data.length = bs := hl (b, data) mem_cons_self
      have hw : read (write d (b * bs) data) (b * bs) data.length = data := read_write
      rw [hd] at hw
      exact (read_blocks_of_notMem hl' hn.1).trans hw
    · exact ih hl' hn.2 h

theorem run_blocks_of_mem (hn : (ws.map Prod.fst).Nodup) (h : (b, data) ∈ ws) {i : Nat}
    (hi : i < data.length) : run d (blocks bs ws) (b * bs + i) = data[i] := by
  have hr := congrArg (·[i]?) (read_blocks_of_mem (d := d) hl hn h)
  have hb : i < bs := by rw [← hl _ h]; exact hi
  simp only [read_getElem? hb, List.getElem?_eq_getElem hi] at hr
  exact Option.some.inj hr

end

end

theorem subperm_singleton {s : List (Nat × List β)} {w : Nat × List β} (h : s.Subperm [w]) :
    s = [] ∨ s = [w] := by
  cases s with
  | nil => exact .inl rfl
  | cons x s =>
    have hl := h.length_le
    have hs : s = [] := length_eq_zero_iff.mp (by simpa using hl)
    exact .inr (by rw [hs, mem_singleton.mp (h.subset mem_cons_self)])

end Cervus.Disk
