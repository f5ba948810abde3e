import Cervus.Lib.Limbs

/-! RSA signatures of `bignum.c`: numbers of 256 words, their multiplication, remainder and
power, and the check of a PKCS #1 signature. -/

namespace Cervus.Rsa

open List Limbs

abbrev Byte := BitVec 8

def W : Nat := 256

abbrev Bn := { d : List (BitVec 32) // d.length = W }

def Bn.value (a : Bn) : Nat := Limbs.value a.1

def bnZero : Bn := ⟨replicate W 0, length_replicate⟩

def topword (d : List (BitVec 32)) : Nat := (d.reverse.dropWhile (· == 0)).length - 1

def bnTopbit (a : Bn) : Option Nat :=
  let i := topword a.1
  let x := a.1.getD i 0
  if i = 0 ∧ x = 0 then none else some (i * 32 + x.toNat.log2)

def bnBit (a : Bn) (i : Nat) : Bool := (a.1.getD (i / 32) 0).getLsbD (i % 32)

def bnCmp (a b : Bn) : Ordering := Limbs.cmp a.1 b.1

def bnSub (a b : Bn) : Bn :=
  ⟨(sub false a.1 b.1).1, by rw [Limbs.length_sub false (a.2.trans b.2.symm), a.2]⟩

def bnShl1 (a : Bn) : Bn := ⟨shl1 false a.1, by rw [Limbs.length_shl1, a.2]⟩

def bnOrBit (a : Bn) (b : Bool) : Bn :=
  ⟨a.1.modifyHead (· ||| (BitVec.ofBool b).setWidth 32), by rw [length_modifyHead, a.2]⟩

def word32 (b : List Byte) : BitVec 32 :=
  (b.getD 0 0).setWidth 32 ||| (b.getD 1 0).setWidth 32 <<< 8 ||| (b.getD 2 0).setWidth 32 <<<
    16 |||
    (b.getD 3 0).setWidth 32 <<< 24

theorem word32_append (a b c d : Byte) :
    a.setWidth 32 ||| b.setWidth 32 <<< 8 ||| c.setWidth 32 <<< 16 ||| d.setWidth 32 <<< 24 = d ++
      c ++ b ++ a := by
  ext i hi
  grind

theorem word32_toNat (b : List Byte) : (word32 b).toNat = Limbs.value (b.take 4) := by
  have happ : ∀ {n : Nat} (h : BitVec n) (l : Byte),
      (h ++ l).toNat = l.toNat + 2 ^ 8 * h.toNat := by
    intro n h l
    rw [BitVec.toNat_append, ← Nat.shiftLeft_add_eq_or_of_lt l.isLt, Nat.shiftLeft_eq]
    omega
  have hcat : ∀ x y z u : Byte, (u ++ z ++ y ++ x).toNat =
      x.toNat + 2 ^ 8 * (y.toNat + 2 ^ 8 * (z.toNat + 2 ^ 8 * u.toNat)) := by
    intro x y z u
    rw [happ, happ, happ]
  rw [word32, word32_append, hcat]
  obtain _ | ⟨x, _ | ⟨y, _ | ⟨z, _ | ⟨u, b⟩⟩⟩⟩ := b <;> simp

def packWords : Nat → List Byte → List (BitVec 32)
  | 0, _ => []
  | k + 1, b => word32 b :: packWords k (b.drop 4)

theorem length_packWords (k : Nat) (b : List Byte) : (packWords k b).length = k := by
  induction k generalizing b with
  | zero => rfl
  | succ k ih => simp [packWords, ih]

theorem value_packWords {k : Nat} {b : List Byte} (hb : b.length ≤ 4 * k) :
    Limbs.value (packWords k b) = Limbs.value b := by
  induction k generalizing b with
  | zero =>
    obtain rfl := length_eq_zero_iff.mp (show b.length = 0 by omega)
    rfl
  | succ k ih =>
    rw [packWords, Limbs.value_cons, ih (by rw [length_drop]; omega), word32_toNat]
    by_cases h4 : 4 ≤ b.length
    · exact Limbs.value_take_add_drop 4 b h4
    · rw [drop_eq_nil_of_le (by omega), take_of_length_le (by omega)]
      simp

def bnFromBe (b : List Byte) : Bn := ⟨packWords W b.reverse, length_packWords _ _⟩

def wordBytes (x : BitVec 32) : List Byte :=
  [x.setWidth 8, (x >>> 8).setWidth 8, (x >>> 16).setWidth 8, (x >>> 24).setWidth 8]

theorem value_wordBytes (x : BitVec 32) : Limbs.value (wordBytes x) = x.toNat := by
  simp only [wordBytes, Limbs.value_cons, Limbs.value_nil, BitVec.toNat_setWidth,
    BitVec.toNat_ushiftRight,
    Nat.shiftRight_eq_div_pow]
  omega

theorem value_flatMap_wordBytes (d : List (BitVec 32)) :
    Limbs.value (d.flatMap wordBytes) = Limbs.value d := by
  induction d with
  | nil => rfl
  | cons x d ih =>
    rw [flatMap_cons, Limbs.value_append, value_wordBytes, ih, Limbs.value_cons]
    rfl

theorem length_flatMap_wordBytes (d : List (BitVec 32)) :
    (d.flatMap wordBytes).length = 4 * d.length := by
  induction d with
  | nil => rfl
  | cons x d ih =>
    simp [wordBytes]
    omega

def bnToBe (a : Bn) (len : Nat) : List Byte := ((a.1.flatMap wordBytes).take len).reverse

def mulRow (x : BitVec 32) (b r : List (BitVec 32)) : List (BitVec 32) :=
  let q := mulAdd x 0 (b.take r.length) (r.take b.length)
  match r.drop b.length with
  | [] => q.1
  | d :: rest => q.1 ++ (d + q.2.setWidth 32) :: rest

def mulLoop (b : List (BitVec 32)) : List (BitVec 32) → List (BitVec 32) → List (BitVec 32)
  | [], r => r
  | x :: a, r =>
    match if x = 0 then r else mulRow x b r with
    | [] => []
    | d :: rest => d :: mulLoop b a rest

theorem length_mulRow (x : BitVec 32) (b r : List (BitVec 32)) :
    (mulRow x b r).length = r.length := by
  have hl : (b.take r.length).length = (r.take b.length).length := by
    simp [min_comm]
  have hq := Limbs.length_mulAdd x 0 hl
  unfold mulRow
  split
  · rename_i h
    rw [hq, length_take]
    have := drop_eq_nil_iff.mp h
    omega
  · rename_i d rest h
    have hr := congrArg length h
    rw [length_drop, length_cons] at hr
    rw [length_append, hq, length_take, length_cons]
    omega

theorem length_mulLoop (b a r : List (BitVec 32)) : (mulLoop b a r).length = r.length := by
  induction a generalizing r with
  | nil => rfl
  | cons x a ih =>
    have hlen : (if x = 0 then r else mulRow x b r).length = r.length := by
      split_ifs
      · rfl
      · exact length_mulRow x b r
    rw [mulLoop]
    split
    · rename_i h
      rw [← hlen, h]
    · rename_i d rest h
      rw [← hlen, h, length_cons, length_cons, ih]

def bnMul (a b : Bn) : Bn :=
  ⟨mulLoop (b.1.take (topword b.1 + 1)) (a.1.take (topword a.1 + 1)) bnZero.1, by
    rw [length_mulLoop, bnZero.2]⟩

def modLoop (a m : Bn) : Nat → Bn → Bn
  | 0, r => r
  | i + 1, r =>
    let r := bnOrBit (bnShl1 r) (bnBit a i)
    modLoop a m i (if bnCmp r m = .lt then r else bnSub r m)

def bnMod (a m : Bn) : Bn :=
  match bnTopbit a with
  | none => bnZero
  | some t => modLoop a m (t + 1) bnZero

def bnMulmod (a b m : Bn) : Bn := bnMod (bnMul a b) m

def expBits (e : List Byte) : List Bool :=
  e.flatMap fun x => [x.getLsbD 7, x.getLsbD 6, x.getLsbD 5, x.getLsbD 4, x.getLsbD 3, x.getLsbD 2,
    x.getLsbD 1,
    x.getLsbD 0]

def expStep (base m : Bn) (p : Bn × Bool) (bit : Bool) : Bn × Bool :=
  let r := if p.2 then bnMulmod p.1 p.1 m else p.1
  if bit then (if p.2 then bnMulmod r base m else bnMod base m, true) else (r, p.2)

def bnOne : Bn := bnOrBit bnZero true

def bnModexp (base : Bn) (e : List Byte) (m : Bn) : Bn :=
  ((expBits e).foldl (expStep base m) (bnOne, false)).1

def rsaPublic (n e sig : List Byte) : Option (List Byte) :=
  if W * 4 < n.length ∨ n.length < sig.length then none
  else if bnCmp (bnFromBe sig) (bnFromBe n) ≠ .lt then none
  else some (bnToBe (bnModexp (bnFromBe sig) e (bnFromBe n)) n.length)

def diSha256 : List Byte :=
  [0x30, 0x31, 0x30, 0x0d, 0x06, 0x09, 0x60, 0x86, 0x48, 0x01, 0x65, 0x03, 0x04, 0x02, 0x01, 0x05,
    0x00, 0x04, 0x20]
def diSha384 : List Byte :=
  [0x30, 0x41, 0x30, 0x0d, 0x06, 0x09, 0x60, 0x86, 0x48, 0x01, 0x65, 0x03, 0x04, 0x02, 0x02, 0x05,
    0x00, 0x04, 0x30]
def diSha512 : List Byte :=
  [0x30, 0x51, 0x30, 0x0d, 0x06, 0x09, 0x60, 0x86, 0x48, 0x01, 0x65, 0x03, 0x04, 0x02, 0x03, 0x05,
    0x00, 0x04, 0x40]

def digestInfo (hashId : Int) : Option (List Byte) :=
  if hashId = 0 then some diSha256
  else if hashId = 1 then some diSha384
  else if hashId = 2 then some diSha512
  else none

def padEnd (em : List Byte) (stop : Nat) : Nat → Nat → Nat
  | 0, i => i
  | fuel + 1, i => if i < stop ∧ em.getD i 0 = 0xff then padEnd em stop fuel (i + 1) else i

def checkPadding (em di hash : List Byte) : Bool :=
  let tlen := di.length + hash.length
  if em.length < tlen + 11 then false
  else if em.getD 0 0 ≠ 0x00 ∨ em.getD 1 0 ≠ 0x01 then false
  else
    let i := padEnd em (em.length - tlen - 1) em.length 2
    if em.getD i 0 ≠ 0x00 then false
    else if i + 1 + tlen ≠ em.length then false
    else if (em.drop (i + 1)).take di.length ≠ di then false
    else (em.drop (i + 1 + di.length)).take hash.length = hash

def rsaPkcs1v15Verify (n e sig hash : List Byte) (hashId : Int) : Bool :=
  match rsaPublic n e sig with
  | none => false
  | some em =>
    match digestInfo hashId with
    | none => false
    | some di => checkPadding em di hash

end Cervus.Rsa
