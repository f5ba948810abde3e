import Cervus.Crypto.Rsa
import Cervus.Lib.Jacobian
import Cervus.Lib.Ladder
import Cervus.Lib.Montgomery

/-! ECDSA on the curve P-256, `p256.c`: numbers of four words in Montgomery form, points with a
common denominator, and the check of a signature. -/

namespace Cervus.P256

open List Limbs

abbrev Byte := BitVec 8

abbrev Word := BitVec 64

abbrev F256 := { l : List Word // l.length = 4 }

def F256.value (a : F256) : Nat := Limbs.value a.1

def zero : F256 := ⟨[0, 0, 0, 0], rfl⟩
def one : F256 := ⟨[1, 0, 0, 0], rfl⟩
def two : F256 := ⟨[2, 0, 0, 0], rfl⟩

def pBe : List Byte :=
  [0xff, 0xff, 0xff, 0xff, 0x00, 0x00, 0x00, 0x01, 0x00, 0x00, 0x00, 0x00, 0x00, 0x00, 0x00, 0x00,
    0x00, 0x00, 0x00, 0x00, 0xff, 0xff, 0xff, 0xff, 0xff, 0xff, 0xff, 0xff, 0xff, 0xff, 0xff, 0xff]
def nBe : List Byte :=
  [0xff, 0xff, 0xff, 0xff, 0x00, 0x00, 0x00, 0x00, 0xff, 0xff, 0xff, 0xff, 0xff, 0xff, 0xff, 0xff,
    0xbc, 0xe6, 0xfa, 0xad, 0xa7, 0x17, 0x9e, 0x84, 0xf3, 0xb9, 0xca, 0xc2, 0xfc, 0x63, 0x25, 0x51]
def gxBe : List Byte :=
  [0x6b, 0x17, 0xd1, 0xf2, 0xe1, 0x2c, 0x42, 0x47, 0xf8, 0xbc, 0xe6, 0xe5, 0x63, 0xa4, 0x40, 0xf2,
    0x77, 0x03, 0x7d, 0x81, 0x2d, 0xeb, 0x33, 0xa0, 0xf4, 0xa1, 0x39, 0x45, 0xd8, 0x98, 0xc2, 0x96]
def gyBe : List Byte :=
  [0x4f, 0xe3, 0x42, 0xe2, 0xfe, 0x1a, 0x7f, 0x9b, 0x8e, 0xe7, 0xeb, 0x4a, 0x7c, 0x0f, 0x9e, 0x16,
    0x2b, 0xce, 0x33, 0x57, 0x6b, 0x31, 0x5e, 0xce, 0xcb, 0xb6, 0x40, 0x68, 0x37, 0xbf, 0x51, 0xf5]

def beWord (b : List Byte) : Word := (b.take 8).foldl (fun v x => v <<< 8 ||| x.setWidth 64) 0

def beToLimbs (b : List Byte) : F256 :=
  ⟨[beWord (b.drop 24), beWord (b.drop 16), beWord (b.drop 8), beWord b], rfl⟩

def limbsToBe (a : F256) : List Byte :=
  a.1.reverse.flatMap fun v => [56, 48, 40, 32, 24, 16, 8, 0].map fun k => (v >>> k).setWidth 8

def u256Cmp (a b : F256) : Ordering := Limbs.cmp a.1 b.1

def u256Sub (a b : F256) : F256 × Bool :=
  let s := sub false a.1 b.1
  (⟨s.1, by rw [Limbs.length_sub false (a.2.trans b.2.symm), a.2]⟩, s.2)

def u256Add (a b : F256) : F256 × BitVec (2 * 64) :=
  let s := add 0 a.1 b.1
  (⟨s.1, by rw [Limbs.length_add 0 (a.2.trans b.2.symm), a.2]⟩, s.2)

def u256Iszero (a : F256) : Bool := a.1.foldr (· ||| ·) 0 == 0

def subIfOver (m : F256) (carry : Bool) (t : F256) : F256 :=
  ⟨Montgomery.reduce m.1 carry t.1, by rw [Montgomery.length_reduce (t.2.trans m.2.symm), m.2]⟩

structure Mont where
  m : F256
  n0 : Word
  r2 : F256

def montSetup (mBe : List Byte) : Mont :=
  let m := beToLimbs mBe
  let m0 := m.1.headD 0
  let inv := (fun inv => inv * (2 - m0 * inv))^[6] m0
  { m := m
    n0 := -inv
    r2 := (fun t => let s := u256Add t t; subIfOver m (s.2 != 0) s.1)^[512] one }

theorem F256.ne_nil (a : F256) : a.1 ≠ [] := List.ne_nil_of_length_pos (by rw [a.2]; decide)

def montMul (C : Mont) (a b : F256) : F256 :=
  ⟨Montgomery.mul C.m.1 C.n0 a.1 b.1,
    by rw [Montgomery.length_mul C.m.ne_nil (a.2.trans C.m.2.symm), C.m.2]⟩

def montTo (C : Mont) (a : F256) : F256 := montMul C a C.r2

def montFrom (C : Mont) (a : F256) : F256 := montMul C a one

def fadd (C : Mont) (a b : F256) : F256 :=
  let s := u256Add a b
  subIfOver C.m (s.2 != 0) s.1

def fsub (C : Mont) (a b : F256) : F256 :=
  let s := u256Sub a b
  if s.2 then (u256Add s.1 C.m).1 else s.1

def finv (C : Mont) (a : F256) : F256 :=
  let exp := limbsToBe (u256Sub C.m two).1
  Ladder.run a (fun r => montMul C r r) (fun r => montMul C r a) (montTo C one) (Rsa.expBits exp)

/-! Points; `C` is the field of their coordinates. -/

abbrev JPoint := Jacobian.Triple F256

def JPoint.zero : JPoint := ⟨P256.zero, P256.zero, P256.zero⟩

def smallMul (C : Mont) (a : F256) (k : Nat) : F256 := (fun acc => fadd C acc a)^[k] zero

def pIsInf (P : JPoint) : Bool := u256Iszero P.z

def pDouble (C : Mont) (P : JPoint) : JPoint :=
  if pIsInf P then JPoint.zero
  else
    let delta := montMul C P.z P.z
    let gamma := montMul C P.y P.y
    let beta := montMul C P.x gamma
    let t1 := fsub C P.x delta
    let t2 := fadd C P.x delta
    let t1 := montMul C t1 t2
    let alpha := smallMul C t1 3
    let x3 := montMul C alpha alpha
    let t1 := smallMul C beta 8
    let x3 := fsub C x3 t1
    let z3 := fadd C P.y P.z
    let z3 := montMul C z3 z3
    let z3 := fsub C z3 gamma
    let z3 := fsub C z3 delta
    let t1 := smallMul C beta 4
    let t1 := fsub C t1 x3
    let y3 := montMul C alpha t1
    let t2 := montMul C gamma gamma
    let t2 := smallMul C t2 8
    let y3 := fsub C y3 t2
    ⟨x3, y3, z3⟩

def pAdd (C : Mont) (P Q : JPoint) : JPoint :=
  if pIsInf P then Q
  else if pIsInf Q then P
  else
    let z1z1 := montMul C P.z P.z
    let z2z2 := montMul C Q.z Q.z
    let u1 := montMul C P.x z2z2
    let u2 := montMul C Q.x z1z1
    let s1 := montMul C (montMul C P.y Q.z) z2z2
    let s2 := montMul C (montMul C Q.y P.z) z1z1
    let h := fsub C u2 u1
    let r := fsub C s2 s1
    if u256Iszero h then
      if u256Iszero r then pDouble C P else JPoint.zero
    else
      let r := smallMul C r 2
      let t := smallMul C h 2
      let i := montMul C t t
      let j := montMul C h i
      let v := montMul C u1 i
      let x3 := montMul C r r
      let x3 := fsub C x3 j
      let t := smallMul C v 2
      let x3 := fsub C x3 t
      let t := fsub C v x3
      let y3 := montMul C r t
      let t := montMul C s1 j
      let t := smallMul C t 2
      let y3 := fsub C y3 t
      let z3 := fadd C P.z Q.z
      let z3 := montMul C z3 z3
      let z3 := fsub C z3 z1z1
      let z3 := fsub C z3 z2z2
      let z3 := montMul C z3 h
      ⟨x3, y3, z3⟩

def scalarBits (k : F256) : List Bool :=
  ((range 256).map fun i => (k.1.getD (i / 64) 0).getLsbD (i % 64)).reverse

def scalarmult (C : Mont) (k : F256) (P : JPoint) : JPoint :=
  Ladder.run P (pDouble C) (fun acc => pAdd C acc P) JPoint.zero (scalarBits k)

/-! The signature. -/

def mp : Mont := montSetup pBe

def mn : Mont := montSetup nBe

def affine (x y : F256) : JPoint := ⟨montTo mp x, montTo mp y, montTo mp one⟩

def hashBytes (hash : List Byte) : List Byte :=
  if 32 ≤ hash.length then hash.take 32 else replicate (32 - hash.length) 0 ++ hash

def verifyNumbers (pub : List Byte) (r s : F256) (hash : List Byte) : Int :=
  if u256Iszero r ∨ u256Iszero s then -1
  else if u256Cmp r mn.m ≠ .lt ∨ u256Cmp s mn.m ≠ .lt then -1
  else
    let z := subIfOver mn.m false (beToLimbs (hashBytes hash))
    let zm := montTo mn z
    let rm := montTo mn r
    let sm := montTo mn s
    let wm := finv mn sm
    let u1 := montFrom mn (montMul mn zm wm)
    let u2 := montFrom mn (montMul mn rm wm)
    let G := affine (beToLimbs gxBe) (beToLimbs gyBe)
    let Q := affine (beToLimbs (pub.drop 1)) (beToLimbs (pub.drop 33))
    let R := pAdd mp (scalarmult mp u1 G) (scalarmult mp u2 Q)
    if pIsInf R then -1
    else
      let z2inv := finv mp (montMul mp R.z R.z)
      let xa := subIfOver mn.m false (montFrom mp (montMul mp R.x z2inv))
      if u256Cmp xa r = .eq then 0 else -1

/-- Reads an INTEGER at `pos` and goes on with its bytes and the place after it. The byte of its
length is read without a check that the signature goes on that far: `none` stands for a read
beyond the signature. -/
def readInteger (sig : List Byte) (pos : Nat) (go : List Byte → Nat → Option Int) : Option Int :=
  if sig[pos]? ≠ some 0x02 then some (-1)
  else
    match sig[pos + 1]? with
    | none => none
    | some l =>
      if l &&& 0x80 ≠ 0 then some (-1)
      else if sig.length < pos + 2 + l.toNat ∨ 33 < l.toNat then some (-1)
      else
        let v := ((sig.drop (pos + 2)).take l.toNat).dropWhile (· == 0)
        if 32 < v.length then some (-1)
        else go (replicate (32 - v.length) 0 ++ v) (pos + 2 + l.toNat)

def ecdsaP256Verify (pub sig hash : List Byte) : Option Int :=
  if pub.length ≠ 65 ∨ pub[0]? ≠ some 0x04 then some (-1)
  else if sig[0]? ≠ some 0x30 then some (-1)
  else
    match sig[1]? with
    | none => some (-1)
    | some seqlen =>
      if seqlen &&& 0x80 ≠ 0 then some (-1)
      else if sig.length < 2 + seqlen.toNat then some (-1)
      else
        readInteger sig 2 fun rb pos =>
          readInteger sig pos fun sb _ => some
            (verifyNumbers pub (beToLimbs rb) (beToLimbs sb) hash)

end Cervus.P256
