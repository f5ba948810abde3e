import Mathlib.Data.List.GetD
import Mathlib.Tactic.Common

/-! A memory of bytes read and written in 64-bit words, least significant byte first. -/

namespace Cervus

abbrev Word := BitVec 64

def Memory := Nat → BitVec 8

namespace Memory

variable {m m' : Memory} {a b : Nat}

def word (m : Memory) (a : Nat) : Word :=
  m (a + 7) ++ m (a + 6) ++ m (a + 5) ++ m (a + 4) ++ m (a + 3) ++ m (a + 2) ++ m (a + 1) ++ m a

def storeBytes (m : Memory) (a : Nat) (bs : List (BitVec 8)) : Memory := fun x =>
  if a ≤ x then bs.getD (x - a) (m x) else m x

def storeWords (m : Memory) (a : Nat) (ws : List Word) : Memory := fun x =>
  if a ≤ x then
    match ws[(x - a) / 8]? with
    | some w => w.extractLsb' (8 * ((x - a) % 8)) 8
    | none => m x
  else m x

theorem word_congr (h : ∀ x, a ≤ x → x < a + 8 → m x = m' x) : m.word a = m'.word a := by
  simp only [word]
  rw [h a (by omega) (by omega), h (a + 1) (by omega) (by omega), h (a + 2) (by omega) (by omega),
    h (a + 3) (by omega) (by omega), h (a + 4) (by omega) (by omega),
    h (a + 5) (by omega) (by omega),
    h (a + 6) (by omega) (by omega), h (a + 7) (by omega) (by omega)]

variable {bs : List (BitVec 8)} {i x : Nat} {ws : List Word}

theorem storeBytes_off (h : x < a ∨ a + bs.length ≤ x) : m.storeBytes a bs x = m x := by
  unfold storeBytes
  split_ifs with hx
  · rw [List.getD_eq_default _ _ (by omega)]
  · rfl

theorem storeWords_off (h : x < a ∨ a + 8 * ws.length ≤ x) : m.storeWords a ws x = m x := by
  unfold storeWords
  split_ifs with hx
  · rw [List.getElem?_eq_none (by omega)]
  · rfl

theorem word_storeBytes_off (h : b + 8 ≤ a ∨ a + bs.length ≤ b) :
    (m.storeBytes a bs).word b = m.word b :=
  word_congr fun x h1 h2 => storeBytes_off (by omega)

theorem word_storeWords_off (h : b + 8 ≤ a ∨ a + 8 * ws.length ≤ b) :
    (m.storeWords a ws).word b = m.word b :=
  word_congr fun x h1 h2 => storeWords_off (by omega)

theorem storeWords_byte {w : Word} {k : Nat} (hw : ws[i]? = some w) (hk : k < 8) :
    m.storeWords a ws (a + 8 * i + k) = w.extractLsb' (8 * k) 8 := by
  unfold storeWords
  rw [if_pos (by omega), show (a + 8 * i + k - a) / 8 = i by
    omega, show (a + 8 * i + k - a) % 8 = k by omega, hw]

theorem word_storeWords {w : Word} (hw : ws[i]? = some w) :
    (m.storeWords a ws).word (a + 8 * i) = w := by
  have h0 := storeWords_byte (m := m) (a := a) hw (show 0 < 8 by omega)
  rw [Nat.add_zero] at h0
  simp only [word]
  rw [h0]
  repeat rw [storeWords_byte hw (by omega)]
  ext j hj
  simp only [BitVec.getElem_append, BitVec.getElem_extractLsb']
  split_ifs <;> (rw [← BitVec.getLsbD_eq_getElem]; congr 1; omega)

end Memory

end Cervus
