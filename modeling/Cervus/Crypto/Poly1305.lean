import Cervus.Crypto.Rsa
import Cervus.Lib.Absorb

/-! The one-time authenticator of `poly1305.c`: the accumulator in five limbs of 26 bits, with
products in 64 bits and delayed carries, and the buffer of the bytes that do not fill a block. -/

namespace Cervus.Poly1305

abbrev Byte := BitVec 8

abbrev Bytes (n : Nat) := { b : List Byte // b.length = n }

structure Limbs26 where
  l0 : BitVec 32
  l1 : BitVec 32
  l2 : BitVec 32
  l3 : BitVec 32
  l4 : BitVec 32
  deriving DecidableEq

def Limbs26.zero : Limbs26 := ⟨0, 0, 0, 0, 0⟩

structure Limbs64 where
  d0 : BitVec 64
  d1 : BitVec 64
  d2 : BitVec 64
  d3 : BitVec 64
  d4 : BitVec 64

def u32 (p : List Byte) : BitVec 32 := Rsa.word32 p

def st32 (v : BitVec 32) : List Byte := Rsa.wordBytes v

/-- `poly1305_ctx`; of the buffer only the first `leftover` bytes. -/
structure Poly1305Ctx where
  r : Limbs26
  h : Limbs26
  pad : List (BitVec 32)
  buffer : List Byte
  deriving DecidableEq

def keyR (key : List Byte) : Limbs26 where
  l0 := u32 key &&& 0x3ffffff
  l1 := u32 (key.drop 3) >>> 2 &&& 0x3ffff03
  l2 := u32 (key.drop 6) >>> 4 &&& 0x3ffc0ff
  l3 := u32 (key.drop 9) >>> 6 &&& 0x3f03fff
  l4 := u32 (key.drop 12) >>> 8 &&& 0x00fffff

def poly1305Init (key : Bytes 32) : Poly1305Ctx where
  r := keyR key.1
  h := .zero
  pad := [u32 (key.1.drop 16), u32 (key.1.drop 20), u32 (key.1.drop 24), u32 (key.1.drop 28)]
  buffer := []

/-! One block. -/

def addBlock (hibit : BitVec 32) (h : Limbs26) (m : List Byte) : Limbs26 where
  l0 := h.l0 + (u32 m &&& 0x3ffffff)
  l1 := h.l1 + (u32 (m.drop 3) >>> 2 &&& 0x3ffffff)
  l2 := h.l2 + (u32 (m.drop 6) >>> 4 &&& 0x3ffffff)
  l3 := h.l3 + (u32 (m.drop 9) >>> 6 &&& 0x3ffffff)
  l4 := h.l4 + (u32 (m.drop 12) >>> 8 ||| hibit)

def mul64 (a b : BitVec 32) : BitVec 64 := a.setWidth 64 * b.setWidth 64

def products (r h : Limbs26) : Limbs64 :=
  let s1 := r.l1 * 5
  let s2 := r.l2 * 5
  let s3 := r.l3 * 5
  let s4 := r.l4 * 5
  { d0 := mul64 h.l0 r.l0 + mul64 h.l1 s4 + mul64 h.l2 s3 + mul64 h.l3 s2 + mul64 h.l4 s1
    d1 := mul64 h.l0 r.l1 + mul64 h.l1 r.l0 + mul64 h.l2 s4 + mul64 h.l3 s3 + mul64 h.l4 s2
    d2 := mul64 h.l0 r.l2 + mul64 h.l1 r.l1 + mul64 h.l2 r.l0 + mul64 h.l3 s4 + mul64 h.l4 s3
    d3 := mul64 h.l0 r.l3 + mul64 h.l1 r.l2 + mul64 h.l2 r.l1 + mul64 h.l3 r.l0 + mul64 h.l4 s4
    d4 := mul64 h.l0 r.l4 + mul64 h.l1 r.l3 + mul64 h.l2 r.l2 + mul64 h.l3 r.l1 + mul64 h.l4 r.l0 }

def carryOf (d : BitVec 64) : BitVec 32 := (d >>> 26).setWidth 32

def low26 (d : BitVec 64) : BitVec 32 := d.setWidth 32 &&& 0x3ffffff

def withCarry (d : BitVec 64) (c : BitVec 32) : BitVec 64 := d + c.setWidth 64

def carried (d : Limbs64) : Limbs64 :=
  let d1 := withCarry d.d1 (carryOf d.d0)
  let d2 := withCarry d.d2 (carryOf d1)
  let d3 := withCarry d.d3 (carryOf d2)
  let d4 := withCarry d.d4 (carryOf d3)
  { d0 := d.d0, d1, d2, d3, d4 }

def reduceOnce (d : Limbs64) : Limbs26 :=
  let h0 := low26 d.d0 + carryOf d.d4 * 5
  { l0 := h0 &&& 0x3ffffff
    l1 := low26 d.d1 + h0 >>> 26
    l2 := low26 d.d2
    l3 := low26 d.d3
    l4 := low26 d.d4 }

def poly1305Block (r : Limbs26) (hibit : BitVec 32) (h : Limbs26) (m : List Byte) : Limbs26 :=
  reduceOnce (carried (products r (addBlock hibit h m)))

def poly1305Update (st : Poly1305Ctx) (m : List Byte) : Poly1305Ctx :=
  let x := Absorb.update 16 (poly1305Block st.r (1#32 <<< 24)) (st.h, st.buffer) m
  { st with h := x.1, buffer := x.2 }

/-! The tag. -/

def finalSums (h : Limbs26) : Limbs26 :=
  let h2 := h.l2 + h.l1 >>> 26
  let h3 := h.l3 + h2 >>> 26
  let h4 := h.l4 + h3 >>> 26
  let h0 := h.l0 + h4 >>> 26 * 5
  { l0 := h0, l1 := (h.l1 &&& 0x3ffffff) + h0 >>> 26, l2 := h2, l3 := h3, l4 := h4 }

def finalCarry (h : Limbs26) : Limbs26 :=
  let s := finalSums h
  { l0 := s.l0 &&& 0x3ffffff
    l1 := s.l1
    l2 := s.l2 &&& 0x3ffffff
    l3 := s.l3 &&& 0x3ffffff
    l4 := s.l4 &&& 0x3ffffff }

def plusFive (h : Limbs26) : Limbs26 :=
  let g0 := h.l0 + 5
  let g1 := h.l1 + g0 >>> 26
  let g2 := h.l2 + g1 >>> 26
  let g3 := h.l3 + g2 >>> 26
  { l0 := g0, l1 := g1, l2 := g2, l3 := g3, l4 := h.l4 + g3 >>> 26 }

/-- `g`: the accumulator plus 5 minus `2 ^ 130`; the top limb wraps around if that is negative. -/
def lessP (h : Limbs26) : Limbs26 :=
  let g := plusFive h
  { l0 := g.l0 &&& 0x3ffffff
    l1 := g.l1 &&& 0x3ffffff
    l2 := g.l2 &&& 0x3ffffff
    l3 := g.l3 &&& 0x3ffffff
    l4 := g.l4 - 1#32 <<< 26 }

def select (h g : Limbs26) : Limbs26 :=
  let mask := g.l4 >>> 31 - 1
  { l0 := h.l0 &&& ~~~mask ||| g.l0 &&& mask
    l1 := h.l1 &&& ~~~mask ||| g.l1 &&& mask
    l2 := h.l2 &&& ~~~mask ||| g.l2 &&& mask
    l3 := h.l3 &&& ~~~mask ||| g.l3 &&& mask
    l4 := h.l4 &&& ~~~mask ||| g.l4 &&& mask }

def pack (h : Limbs26) : List (BitVec 32) :=
  [h.l0 ||| h.l1 <<< 26, h.l1 >>> 6 ||| h.l2 <<< 20, h.l2 >>> 12 ||| h.l3 <<< 14,
    h.l3 >>> 18 ||| h.l4 <<< 8]

def lastBlock (st : Poly1305Ctx) : Limbs26 :=
  if st.buffer = [] then st.h
  else poly1305Block st.r 0 st.h (st.buffer ++ 1 :: List.replicate (15 - st.buffer.length) 0)

def poly1305Final (st : Poly1305Ctx) : List Byte :=
  let h := finalCarry (lastBlock st)
  (Limbs.add 0 (pack (select h (lessP h))) st.pad).1.flatMap st32

end Cervus.Poly1305
