import Cervus.Crypto.Rsa
import Cervus.Lib.Ladder
import Mathlib.Data.List.GetD
import Mathlib.Data.List.TakeWhile
import Mathlib.Data.Nat.Prime.Pow

/-! What the arithmetic of `bignum.c` computes: the power of a signature as long as no product
of two remainders leaves the 8192 bits of a number, and the encoding that a valid signature
must have. -/

namespace Cervus.Rsa

open List Limbs Nat
open Limbs (beValue beValue_append beValue_lt)
open Ladder (bitsValue)

def limit : Nat := 2 ^ (32 * W)

theorem Bn.value_lt (a : Bn) : a.value < limit := by
  have h := Limbs.value_lt a.1
  rwa [a.2] at h

theorem value_zero : bnZero.value = 0 := value_replicate W

theorem bnCmp_eq (a b : Bn) : bnCmp a b = compare a.value b.value := cmp_eq (a.2.trans b.2.symm)

variable {a b m r : Bn} {d : List (BitVec 32)} {k s : Nat} {l : List Bool} {e em sig : List Byte}

theorem bnCmp_lt : bnCmp a b = .lt ↔ a.value < b.value := by
  rw [bnCmp_eq, Nat.compare_eq_lt]

theorem value_bnSub (h : b.value ≤ a.value) : (bnSub a b).value = a.value - b.value := by
  have hs := value_sub (by decide) false (a.2.trans b.2.symm)
  have hlt := (bnSub a b).value_lt
  have hb := b.value_lt
  have ha := a.value_lt
  rw [a.2, show 2 ^ (32 * W) = limit from rfl] at hs
  change value (sub false a.1 b.1).1 < limit at hlt
  change value (sub false a.1 b.1).1 = _
  unfold Bn.value at h ha hb ⊢
  cases hc : (sub false a.1 b.1).2 with
  | false | true => rw [hc] at hs; simp at hs; omega

theorem value_shiftIn (a : Bn) (b : Bool) :
    (bnOrBit (bnShl1 a) b).value = (2 * a.value + b.toNat) % limit := by
  have heq : (bnOrBit (bnShl1 a) b).1 = shl1 b a.1 := by
    obtain ⟨l, hl⟩ := a
    obtain _ | ⟨x, l⟩ := l
    · rfl
    · simp [bnOrBit, bnShl1, shl1]
  have h := value_shl1 (by decide) b a.1
  rw [a.2] at h
  rw [Bn.value, heq, h]
  rfl

theorem value_bnOne : bnOne.value = 1 := by
  have h : bnOne.1 = 1#32 :: replicate 255 0#32 := rfl
  rw [Bn.value, h, value_cons, value_replicate]
  rfl

theorem bnBit_eq (a : Bn) (i : Nat) : bnBit a i = a.value.testBit i :=
  Limbs.testBit_value (by decide) a.1 i

/-! The highest word and the highest bit. -/

theorem mem_drop_topword {x : BitVec 32} (hx : x ∈ d.drop (topword d + 1)) : x = 0#32 := by
  have hd : d = (d.reverse.dropWhile (· == 0)).reverse ++
      (d.reverse.takeWhile (· == 0)).reverse := by
    rw [← reverse_append, takeWhile_append_dropWhile, reverse_reverse]
  have hlen : (d.reverse.dropWhile (· == 0)).reverse.length ≤ topword d + 1 := by
    rw [topword, length_reverse]
    omega
  generalize topword d + 1 = k at hx hlen
  rw [hd, drop_append, drop_eq_nil_of_le hlen, nil_append] at hx
  simpa using mem_takeWhile_imp (mem_reverse.mp (mem_of_mem_drop hx))

theorem topword_lt (hd : d ≠ []) : topword d < d.length := by
  have h1 := (dropWhile_suffix (· == 0) (l := d.reverse)).length_le
  have h2 := length_pos_iff.mpr hd
  rw [length_reverse] at h1
  rw [topword]
  omega

theorem value_take_topword (d : List (BitVec 32)) : value (d.take (topword d + 1)) = value d := by
  obtain rfl | hd := eq_or_ne d []
  · rfl
  · conv_rhs => rw [← value_take_add_drop (topword d + 1) d (topword_lt hd),
      value_eq_zero.mpr fun x hx => mem_drop_topword hx, mul_zero, add_zero]

theorem Bn.ne_nil (a : Bn) : a.1 ≠ [] := ne_nil_of_length_pos (by rw [a.2]; decide)

theorem value_topword (a : Bn) :
    a.value = value (a.1.take (topword a.1)) + 2 ^ (32 * topword a.1) *
      (a.1.getD (topword a.1) 0).toNat := by
  have hlt := topword_lt a.ne_nil
  rw [Bn.value, ← value_take_topword, take_succ_eq_append_getElem hlt, value_append,
    length_take_of_le hlt.le, getD_eq_getElem _ _ hlt]
  simp

theorem bnTopbit_none (h : bnTopbit a = none) : a.value = 0 := by
  simp only [bnTopbit, ite_eq_left_iff, reduceCtorEq, imp_false, not_not] at h
  rw [value_topword, h.2, h.1]
  simp

theorem bnTopbit_some {t : Nat} (h : bnTopbit a = some t) : a.value < 2 ^ (t + 1) := by
  have hlt := topword_lt a.ne_nil
  have hlow := Limbs.value_lt (a.1.take (topword a.1))
  rw [length_take_of_le hlt.le] at hlow
  simp only [bnTopbit] at h
  split_ifs at h with h0
  obtain rfl := Option.some_inj.mp h
  have hx := lt_log2_self (n := (a.1.getD (topword a.1) 0).toNat)
  rw [value_topword, add_assoc, mul_comm _ 32, pow_add]
  nlinarith

/-! The product. -/

def ZeroFrom (k : Nat) (r : List (BitVec 32)) : Prop := ∀ x ∈ r.drop k, x = 0#32

/-- One row of the schoolbook product, modulo the length of the result. -/
theorem mulRow_spec (x : BitVec 32) {b r : List (BitVec 32)} (hz : ZeroFrom b.length r) :
    value (mulRow x b r) = (value r + x.toNat * value b) % 2 ^ (32 * r.length) ∧
      ZeroFrom (b.length + 1) (mulRow x b r) := by
  have hl : (b.take r.length).length = (r.take b.length).length := by simp [min_comm]
  obtain ⟨hv, hc⟩ := value_mulAdd x (c := 0) hl (by decide)
  have hq := length_mulAdd x 0 hl
  have hlen := length_mulRow x b r
  have hbound := Limbs.value_lt (mulRow x b r)
  rw [hlen] at hbound
  generalize hm : mulRow x b r = m at hlen hbound ⊢
  unfold mulRow at hm
  dsimp only at hm
  generalize mulAdd x 0 (b.take r.length) (r.take b.length) = q at hv hc hq hm
  rw [BitVec.ofNat_eq_ofNat, BitVec.toNat_ofNat, zero_mod, Nat.add_zero] at hv
  split at hm
  · rename_i hd
    have hle := drop_eq_nil_iff.mp hd
    rw [length_take_of_le hle, take_of_length_le hle, hm] at hv
    refine ⟨?_, fun y hy => ?_⟩
    · rw [← value_take_add_drop r.length b hle, mul_add, ← add_assoc, Nat.add_comm (value r), ← hv,
        mul_left_comm, add_mul_mod_self_left, add_mul_mod_self_left, mod_eq_of_lt hbound]
    · rw [drop_eq_nil_of_le (by omega)] at hy
      cases hy
  · rename_i d rest hd
    have hlt : b.length < r.length := by
      by_contra hge
      rw [drop_eq_nil_of_le (by omega)] at hd
      cases hd
    rw [ZeroFrom, hd] at hz
    have h0 : d = 0#32 := hz d (by simp)
    have hrest : value rest = 0 := value_eq_zero.mpr fun y hy => hz y (by simp [hy])
    have hr : value (r.take b.length) = value r := by
      conv_rhs => rw [← value_take_add_drop b.length r hlt.le, hd, value_cons, hrest, h0]
      simp
    rw [take_of_length_le hlt.le, hr] at hv
    rw [take_of_length_le hlt.le] at hq
    have hcarry : (d + q.2.setWidth 32).toNat = q.2.toNat := by
      rw [h0, BitVec.zero_add, BitVec.toNat_setWidth, mod_eq_of_lt hc]
    refine ⟨?_, ?_⟩
    · rw [← mod_eq_of_lt hbound]
      congr 1
      rw [← hm, value_append, value_cons, hrest, hq, hcarry, Nat.mul_zero, Nat.add_zero, hv,
        Nat.add_comm]
    · rw [ZeroFrom, ← hm, ← hq, drop_append, drop_eq_nil_of_le (by omega), Nat.add_sub_cancel_left]
      exact fun y hy => hz y (by simp [show y ∈ rest from hy])

theorem add_mul_mod_mul {d B : Nat} (y P : Nat) (hd : d < B) :
    (d + B * y) % (B * P) = d + B * (y % P) := by
  rw [mod_mul, add_mul_mod_self_left, mod_eq_of_lt hd, add_mul_div_left _ _ (by omega),
    div_eq_of_lt hd, zero_add]

/-- All rows: the product, modulo the length of the result. -/
theorem value_mulLoop (b a : List (BitVec 32)) {r : List (BitVec 32)} (hz : ZeroFrom b.length r) :
    value (mulLoop b a r) = (value r + value a * value b) % 2 ^ (32 * r.length) := by
  induction a generalizing r with
  | nil => rw [mulLoop, value_nil, zero_mul, add_zero, mod_eq_of_lt (Limbs.value_lt r)]
  | cons x a ih =>
    have hrow : value (if x = 0 then r else mulRow x b r) =
          (value r + x.toNat * value b) % 2 ^ (32 * r.length) ∧
        ZeroFrom (b.length + 1) (if x = 0 then r else mulRow x b r) ∧
        (if x = 0 then r else mulRow x b r).length = r.length := by
      split_ifs with hx
      · refine ⟨?_, fun y hy => hz y ?_, rfl⟩
        · simp [hx, mod_eq_of_lt (Limbs.value_lt r)]
        · exact (drop_subset_drop_left r (le_succ _)) hy
      · obtain ⟨h1, h2⟩ := mulRow_spec x hz
        exact ⟨h1, h2, length_mulRow x b r⟩
    obtain ⟨hv, hz', hl⟩ := hrow
    rw [mulLoop]
    split
    · rename_i hm
      rw [hm] at hl
      rw [← hl]
      simp [mod_one]
    · rename_i d rest hm
      rw [hm] at hv hz' hl
      rw [value_cons, ih hz', ← add_mul_mod_mul _ _ d.isLt, ← hl, length_cons, mul_succ,
        add_comm (32 * _), pow_add, mul_add, ← add_assoc, ← value_cons, hv, ← hl,
        length_cons, mul_succ, add_comm (32 * _), pow_add, mod_add_mod, value_cons]
      congr 1
      ring

theorem value_bnMul (a b : Bn) : (bnMul a b).value = a.value * b.value % limit := by
  have hz : ZeroFrom (b.1.take (topword b.1 + 1)).length bnZero.1 := fun x hx =>
    eq_of_mem_replicate (mem_of_mem_drop hx)
  have h := value_mulLoop _ (a.1.take (topword a.1 + 1)) hz
  rw [value_take_topword, value_take_topword, bnZero.2] at h
  rw [show (bnMul a b).value = _ from h]
  rw [show value bnZero.1 = 0 from value_zero, zero_add]
  rfl

/-! The remainder. -/

theorem value_modStep {b : Bool} (hr : r.value < m.value) (hm : 2 * m.value ≤ limit) :
    (if bnCmp (bnOrBit (bnShl1 r) b) m = .lt then bnOrBit (bnShl1 r) b
      else bnSub (bnOrBit (bnShl1 r) b) m).value = (2 * r.value + b.toNat) % m.value := by
  have hb : b.toNat ≤ 1 := Bool.toNat_le b
  have hs : (bnOrBit (bnShl1 r) b).value = 2 * r.value + b.toNat := by
    rw [value_shiftIn, mod_eq_of_lt (by omega)]
  split_ifs with h
  · rw [bnCmp_lt, hs] at h
    rw [hs, mod_eq_of_lt h]
  · rw [bnCmp_lt, hs] at h
    rw [value_bnSub (by omega), hs, mod_eq_sub_mod (by omega), mod_eq_of_lt (by omega)]

theorem modLoop_value (hm : 2 * m.value ≤ limit) (hr : r.value < m.value) (i : Nat) :
    (modLoop a m i r).value = (r.value * 2 ^ i + a.value % 2 ^ i) % m.value := by
  induction i generalizing r with
  | zero => simp [modLoop, mod_one, mod_eq_of_lt hr]
  | succ i ih =>
    have hstep := value_modStep (b := bnBit a i) hr hm
    rw [modLoop, ih (by rw [hstep]; exact mod_lt _ (by omega)), hstep, bnBit_eq,
      toNat_testBit, mod_pow_succ, add_mod, mod_mul_mod, ← add_mod]
    congr 1
    ring

theorem modLoop_of_lt (ha : a.value < m.value) (i : Nat) (hr : r.value = a.value / 2 ^ i) :
    (modLoop a m i r).value = a.value := by
  induction i generalizing r with
  | zero => simpa [modLoop] using hr
  | succ i ih =>
    have hdiv : 2 * r.value + (bnBit a i).toNat = a.value / 2 ^ i := by
      rw [hr, bnBit_eq, Nat.toNat_testBit, Nat.pow_succ, ← Nat.div_div_eq_div_mul]
      omega
    have hle : a.value / 2 ^ i ≤ a.value := Nat.div_le_self _ _
    have hlim := a.value_lt
    have hs : (bnOrBit (bnShl1 r) (bnBit a i)).value = a.value / 2 ^ i := by
      rw [value_shiftIn, hdiv, mod_eq_of_lt (by omega)]
    rw [modLoop]
    exact ih (by rw [if_pos (bnCmp_lt.mpr (by omega)), hs])

theorem value_bnMod (hm0 : 0 < m.value) (hm : 2 * m.value ≤ limit) :
    (bnMod a m).value = a.value % m.value := by
  unfold bnMod
  split
  · rename_i h
    rw [bnTopbit_none h, value_zero, zero_mod]
  · rename_i t h
    rw [modLoop_value hm (by rw [value_zero]; exact hm0), value_zero, zero_mul, zero_add,
      mod_eq_of_lt (bnTopbit_some h)]

theorem value_bnMod_of_lt (ha : a.value < m.value) : (bnMod a m).value = a.value := by
  unfold bnMod
  split
  · rename_i h
    rw [bnTopbit_none h, value_zero]
  · rename_i t h
    exact modLoop_of_lt ha _ (by rw [value_zero, div_eq_of_lt (bnTopbit_some h)])

/-! The power. -/

def Exact (m : Bn) : Prop :=
  ∀ a b : Bn, a.value < m.value → b.value < m.value →
    (bnMulmod a b m).value = a.value * b.value % m.value

def half : Nat := 2 ^ (16 * W)

theorem half_mul_half : half * half = limit := by
  rw [half, limit, ← pow_add, ← add_mul]

theorem exact_of_le (hm : m.value ≤ half) : Exact m := by
  intro a b ha hb
  have h2 : 2 ≤ half := by
    rw [half]
    exact le_self_pow (by decide) 2
  have hhalf := half_mul_half
  have hprod : a.value * b.value < limit := by nlinarith
  rw [bnMulmod, value_bnMod (by omega) (by nlinarith), value_bnMul, mod_eq_of_lt hprod]

theorem exact_of_two_pow (hm : m.value = 2 ^ k) : Exact m := by
  intro a b _ _
  have hlt := m.value_lt
  rw [hm, limit] at hlt
  have hk : k < 32 * W := (Nat.pow_lt_pow_iff_right (by omega)).mp hlt
  have hdvd : 2 ^ k ∣ limit := Nat.pow_dvd_pow 2 hk.le
  have hle : 2 * 2 ^ k ≤ limit := by
    rw [← Nat.pow_succ']
    exact Nat.pow_le_pow_right (by omega) hk
  rw [bnMulmod, value_bnMod (by rw [hm]; exact Nat.two_pow_pos k) (by rw [hm]; exact hle),
    value_bnMul, hm,
    Nat.mod_mod_of_dvd _ hdvd]

theorem expStep_eq (base m : Bn) :
    expStep base m = Ladder.step (bnMod base m) (fun r => bnMulmod r r m)
      (fun r => bnMulmod r base m) := rfl

variable {base : Bn} {n : List Byte}

theorem modexp_exact (hb : base.value < m.value) (he : Exact m) (l : List Bool) :
    (l.foldl (expStep base m) (bnOne, false)).1.value =
      if bitsValue l = 0 then 1 else base.value ^ bitsValue l % m.value := by
  have hm : 0 < m.value := by omega
  have hsq : ∀ v (a : Bn), v ≠ 0 → a.value = base.value ^ v % m.value →
      (bnMulmod a a m).value = base.value ^ (2 * v) % m.value := by
    intro v a _ ha
    have hlt : a.value < m.value := by rw [ha]; exact mod_lt _ hm
    rw [he _ _ hlt hlt, ha, ← mul_mod, ← pow_add, ← two_mul]
  have hmul : ∀ v (a : Bn), v ≠ 0 → a.value = base.value ^ v % m.value →
      (bnMulmod a base m).value = base.value ^ (v + 1) % m.value := by
    intro v a _ ha
    have hlt : a.value < m.value := by rw [ha]; exact mod_lt _ hm
    rw [he _ _ hlt hb, ha, mod_mul_mod, ← pow_succ]
  rw [expStep_eq]
  obtain ⟨hf, h0⟩ | ⟨a, hf, hq, h0⟩ := Ladder.foldl_step (Q :=
    fun v a => a.value = base.value ^ v % m.value)
    (by rw [value_bnMod_of_lt hb, pow_one, mod_eq_of_lt hb]) hsq hmul bnOne l
  · rw [hf, if_pos h0, value_bnOne]
  · rw [hf, if_neg h0, hq]

theorem modexp_small (hb : base.value < m.value) (hl : bitsValue l ≤ 1) :
    (l.foldl (expStep base m) (bnOne, false)).1.value = if bitsValue l = 0 then 1
    else base.value := by
  rw [expStep_eq]
  obtain ⟨hf, h0⟩ | ⟨a, hf, hq, h0⟩ := Ladder.foldl_step (Q :=
    fun v a => v = 1 → a.value = base.value)
    (fun _ => value_bnMod_of_lt hb) (fun v a _ _ h => by omega) (fun v a h0 _ h => by omega) bnOne l
  · rw [hf, if_pos h0, value_bnOne]
  · rw [hf, if_neg h0, hq (by omega)]

theorem value_bnMulmod_zero (hm : 0 < m.value) (h : a.value * b.value % limit = 0) :
    (bnMulmod a b m).value = 0 := by
  rw [bnMulmod, value_bnMod_of_lt] <;> rw [value_bnMul, h]
  exact hm

theorem modexp_half (hbase : base.value = half) (hm : half < m.value) (hl : 2 ≤ bitsValue l) :
    (l.foldl (expStep base m) (bnOne, false)).1.value = 0 := by
  have hm0 : 0 < m.value := by omega
  -- what the ladder has for the first power and from the second on
  let Q : Nat → Bn → Prop := fun v a => a.value = if v = 1 then half else 0
  have hzero : ∀ v (a b : Bn), Q v a → b = a ∨ b = base → a.value * b.value % limit = 0 := by
    intro v a b ha hb
    change a.value = _ at ha
    split_ifs at ha
    · obtain rfl | rfl := hb
      · rw [ha, half_mul_half, mod_self]
      · rw [ha, hbase, half_mul_half, mod_self]
    · rw [ha, zero_mul, zero_mod]
  have hq : ∀ v (a : Bn), 2 ≤ v → a.value = 0 → Q v a := by
    intro v a hv ha
    change _ = _
    rw [ha, if_neg (by omega)]
  rw [expStep_eq]
  obtain ⟨-, h0⟩ | ⟨a, hf, ha, -⟩ := Ladder.foldl_step (Q := Q)
    (by change _ = _; rw [value_bnMod_of_lt (hbase.trans_lt hm), hbase, if_pos rfl])
    (fun v a h0 ha => hq _ _ (by omega) (value_bnMulmod_zero hm0 (hzero v a a ha (.inl rfl))))
    (fun v a h0 ha => hq _ _ (by omega) (value_bnMulmod_zero hm0 (hzero v a base ha (.inr rfl))))
    bnOne l
  · omega
  · rw [hf]
    change a.value = _ at ha
    rw [ha, if_neg (by omega)]

/-! Bytes. -/

theorem bitsValue_expBits (e : List Byte) : bitsValue (expBits e) = beValue e := by
  induction e using reverseRecOn with
  | nil => rfl
  | append_singleton e x ih =>
    have hx : ∀ x : Byte, bitsValue [x.getLsbD 7, x.getLsbD 6, x.getLsbD 5, x.getLsbD 4,
      x.getLsbD 3, x.getLsbD 2,
        x.getLsbD 1, x.getLsbD 0] = x.toNat := by decide
    rw [beValue_append, ← ih, expBits, flatMap_append, Ladder.bitsValue_append_list,
      flatMap_singleton, hx]
    simp [expBits]

theorem value_bnFromBe {b : List Byte} (hb : b.length ≤ 4 * W) : (bnFromBe b).value = beValue b :=
  value_packWords (by rwa [length_reverse])

theorem bnToBe_spec (a : Bn) {len : Nat} (hl : len ≤ 4 * W) :
    (bnToBe a len).length = len ∧ beValue (bnToBe a len) = a.value % 2 ^ (8 * len) := by
  have hlen : len ≤ (a.1.flatMap wordBytes).length := by
    rw [length_flatMap_wordBytes, a.2]; exact hl
  constructor
  · rw [bnToBe, length_reverse, length_take_of_le hlen]
  · rw [beValue, bnToBe, reverse_reverse, value_take hlen, value_flatMap_wordBytes]
    rfl

/-! The padding. -/

/-- The encoding of a hash for a modulus of `len` bytes. -/
def emsa (hashId : Int) (hash : List Byte) (len : Nat) : Option (List Byte) :=
  match digestInfo hashId with
  | none => none
  | some di =>
    let t := di ++ hash
    if len < t.length + 11 then none
    else some (0x00 :: 0x01 :: replicate (len - t.length - 3) 0xff ++ 0x00 :: t)

theorem padEnd_spec (em : List Byte) (stop fuel : Nat) {i : Nat} (hf : stop ≤ i + fuel)
    (hi : i ≤ stop) :
    (i ≤ padEnd em stop fuel i ∧ padEnd em stop fuel i ≤ stop) ∧
      (∀ k, i ≤ k → k < padEnd em stop fuel i → em.getD k 0 = 0xff) ∧
      (padEnd em stop fuel i < stop → em.getD (padEnd em stop fuel i) 0 ≠ 0xff) := by
  induction fuel generalizing i with
  | zero =>
    obtain rfl : i = stop := by omega
    exact ⟨⟨le_rfl, le_rfl⟩, fun k h1 h2 => absurd h2 (by rw [padEnd]; omega), fun h =>
      absurd h (by rw [padEnd]; omega)⟩
  | succ fuel ih =>
    rw [padEnd]
    split_ifs with h
    · obtain ⟨⟨h1, h2⟩, h3, h4⟩ := ih (i := i + 1) (by omega) h.1
      refine ⟨⟨by omega, h2⟩, fun k hk hk' => ?_, h4⟩
      obtain rfl | hlt := eq_or_lt_of_le hk
      · exact h.2
      · exact h3 k hlt hk'
    · exact ⟨⟨le_rfl, hi⟩, fun k h1 h2 => by omega, fun hlt heq => h ⟨hlt, heq⟩⟩

def padByte (s k : Nat) : Byte :=
  if k = 0 then 0x00 else if k = 1 then 0x01 else if k < s then 0xff else 0x00

theorem getElem?_padding (hk : k ≤ s) (hs : 2 ≤ s) :
    (0x00 :: 0x01 :: replicate (s - 2) 0xff ++ [0x00] : List Byte)[k]? = some (padByte s k) := by
  obtain _ | _ | k := k
  · rfl
  · rfl
  · rw [cons_append, cons_append, List.getElem?_cons_succ, List.getElem?_cons_succ]
    by_cases h : k < s - 2
    · rw [List.getElem?_append_left (by simpa using h), List.getElem?_replicate_of_lt h]
      simp [padByte, show k + 2 < s by omega]
    · obtain rfl : k = s - 2 := by omega
      rw [List.getElem?_append_right (by simp), length_replicate, Nat.sub_self]
      simp [padByte, show ¬s - 2 + 2 < s by omega]

theorem take_eq_padding (hs : 2 ≤ s) (hlen : s < em.length) :
    em.take (s + 1) = 0x00 :: 0x01 :: replicate (s - 2) 0xff ++ [0x00] ↔
      ∀ k ≤ s, em.getD k 0 = padByte s k := by
  have hget : ∀ k ≤ s, (em.take (s + 1))[k]? = some (em.getD k 0) := by
    intro k hk
    rw [List.getElem?_take_of_lt (by omega), List.getElem?_eq_getElem (by omega),
      getD_eq_getElem _ _ (by omega)]
  constructor
  · intro h k hk
    have hk' := hget k hk
    rw [h, getElem?_padding hk hs] at hk'
    exact (Option.some_inj.mp hk').symm
  · intro h
    refine ext_getElem? fun k => ?_
    by_cases hk : k ≤ s
    · rw [hget k hk, getElem?_padding hk hs, h k hk]
    · rw [List.getElem?_eq_none (by simp; omega), List.getElem?_eq_none (by simp; omega)]

/-- The loop over the padding accepts exactly the encoding. -/
theorem checkPadding_iff (em di hash : List Byte) :
    checkPadding em di hash = true ↔ (di ++ hash).length + 11 ≤ em.length ∧
      em = 0x00 :: 0x01 :: replicate (em.length - (di ++ hash).length - 3) 0xff ++ 0x00 ::
      (di ++ hash) := by
  rw [length_append]
  unfold checkPadding
  dsimp only
  by_cases hlen : em.length < di.length + hash.length + 11
  · simp [hlen]
  rw [if_neg hlen]
  obtain ⟨s, hs⟩ : ∃ s, em.length = s + 1 + (di.length + hash.length) :=
    ⟨em.length - (di.length + hash.length) - 1, by omega⟩
  rw [show em.length - (di.length + hash.length) - 1 = s by omega,
    show em.length - (di.length + hash.length) - 3 = s - 2 by omega]
  obtain ⟨⟨hlo, hhi⟩, hff, hstop⟩ := padEnd_spec em s em.length (i := 2) (by omega) (by omega)
  generalize padEnd em s em.length 2 = j at *
  have htail : em.drop (s + 1) = di ++ hash ↔
      (em.drop (s + 1)).take di.length = di ∧
      (em.drop (s + 1 + di.length)).take hash.length = hash := by
    have hdrop : em.drop (s + 1 + di.length) = (em.drop (s + 1)).drop di.length :=
      (drop_drop ..).symm
    constructor
    · intro h
      rw [hdrop, h]
      simp
    · rintro ⟨h1, h2⟩
      rw [hdrop, take_of_length_le (by simp; omega)] at h2
      rw [← take_append_drop di.length (em.drop (s + 1)), h1, h2]
  have hsplit : em = 0x00 :: 0x01 :: replicate (s - 2) 0xff ++ 0x00 :: (di ++ hash) ↔
      em.take (s + 1) = 0x00 :: 0x01 :: replicate (s - 2) 0xff ++ [0x00] ∧
      em.drop (s + 1) = di ++ hash := by
    have hcons : (0x00 :: 0x01 :: replicate (s - 2) 0xff ++ 0x00 :: (di ++ hash) : List Byte) =
        (0x00 :: 0x01 :: replicate (s - 2) 0xff ++ [0x00]) ++ (di ++ hash) := by simp
    have hplen : (0x00 :: 0x01 :: replicate (s - 2) 0xff ++ [0x00] : List Byte).length = s + 1 := by
      simp
      omega
    rw [hcons]
    constructor
    · intro h
      rw [h, ← hplen]
      exact ⟨take_left, drop_left⟩
    · rintro ⟨h1, h2⟩
      rw [← h1, ← h2, take_append_drop]
  rw [hsplit, take_eq_padding (by omega) (by omega), htail]
  constructor
  · intro h
    split_ifs at h with h01 hj hl hdi
    obtain rfl : j = s := by omega
    simp only [not_or, not_not] at h01 hj hdi
    refine ⟨by omega, fun k hk => ?_, hdi, by simpa using h⟩
    unfold padByte
    split_ifs with h0 h1 h2
    · rw [h0, h01.1]
    · rw [h1, h01.2]
    · exact hff k (by omega) h2
    · rw [show k = j by omega, hj]
  · rintro ⟨-, hpad, hdi, hh⟩
    have hjs : j = s := by
      by_contra hne
      refine hstop (by omega) ?_
      rw [hpad j hhi, padByte, if_neg (by omega), if_neg (by omega), if_pos (by omega)]
    subst hjs
    have h0 := hpad 0 (by omega)
    have h1 := hpad 1 (by omega)
    have hj := hpad j le_rfl
    rw [padByte, if_pos rfl] at h0
    rw [padByte, if_neg (by omega), if_pos rfl] at h1
    rw [padByte, if_neg (by omega), if_neg (by omega), if_neg (by omega)] at hj
    rw [if_neg (not_or.mpr ⟨not_not.mpr h0, not_not.mpr h1⟩), if_neg (not_not.mpr hj),
      if_neg (by omega),
      if_neg (not_not.mpr hdi)]
    simpa using hh

/-! The whole. -/

theorem rsaPublic_eq (hn : n.length ≤ 4 * W) (hs : sig.length ≤ n.length)
    (hlt : beValue sig < beValue n) :
    rsaPublic n e sig = some (bnToBe (bnModexp (bnFromBe sig) e (bnFromBe n)) n.length) := by
  rw [rsaPublic, if_neg (by omega), if_neg]
  rw [not_not, bnCmp_lt, value_bnFromBe (by omega), value_bnFromBe hn]
  exact hlt

theorem rsaPkcs1v15Verify_iff (h : rsaPublic n e sig = some em) (hem : em.length = n.length)
    (hash : List Byte) (hashId : Int) :
    rsaPkcs1v15Verify n e sig hash hashId = true ↔ emsa hashId hash n.length = some em := by
  rw [rsaPkcs1v15Verify, h, emsa]
  cases digestInfo hashId with
  | none => simp
  | some di =>
    simp only
    rw [checkPadding_iff, hem]
    split_ifs with hl
    · simp only [iff_false]
      exact fun h => absurd h.1 (by omega)
    · rw [Option.some_inj]
      exact ⟨fun h => h.2.symm, fun h => ⟨by omega, h.symm⟩⟩

/-- What the modulus and the exponent must be like for all signatures to be raised correctly. -/
def Powers (n e : Nat) : Prop := (e = 0 → n ≠ 1) ∧ (e ≤ 1 ∨ n ≤ 2 ^ 4096 ∨ ∃ k, n = 2 ^ k)

theorem half_eq : half = 2 ^ 4096 := congrArg (2 ^ ·) (by decide : 16 * W = 4096)

theorem bnModexp_eq (hn : n.length ≤ 4 * W) (hs : sig.length ≤ n.length)
    (hlt : beValue sig < beValue n) (h : Powers (beValue n) (beValue e)) :
    (bnModexp (bnFromBe sig) e (bnFromBe n)).value = beValue sig ^ beValue e % beValue n := by
  have hnv := value_bnFromBe hn
  have hsv := value_bnFromBe (hs.trans hn)
  have hb : (bnFromBe sig).value < (bnFromBe n).value := by rwa [hnv, hsv]
  have hone : beValue e = 0 → 1 = beValue sig ^ beValue e % beValue n := by
    intro h0
    have h1 := h.1 h0
    rw [h0, pow_zero, mod_eq_of_lt (by omega)]
  rw [bnModexp]
  obtain h1 | h1 := h.2
  · rw [modexp_small hb (by rwa [bitsValue_expBits]), bitsValue_expBits]
    split_ifs with h0
    · exact hone h0
    · rw [show beValue e = 1 by omega, pow_one, mod_eq_of_lt hlt, hsv]
  · have hexact : Exact (bnFromBe n) := by
      obtain h2 | ⟨k, hk⟩ := h1
      · exact exact_of_le (by rw [hnv, half_eq]; exact h2)
      · exact exact_of_two_pow (hnv.trans hk)
    rw [modexp_exact hb hexact, hnv, hsv, bitsValue_expBits]
    split_ifs with h0
    · exact hone h0
    · rfl

def halfSig : List Byte := 1 :: replicate 512 0

theorem length_halfSig : halfSig.length = 513 := by
  rw [halfSig, length_cons, length_replicate]

theorem beValue_halfSig : beValue halfSig = half := by
  rw [beValue, halfSig, reverse_cons, reverse_replicate, value_append, BitVec.ofNat_eq_ofNat,
    value_replicate, length_replicate, show value [(1 : Byte)] = 1 from rfl, zero_add, mul_one]
  exact congrArg (2 ^ ·) (by decide : 8 * 512 = 16 * W)

theorem length_halfSig_le (hlt : half < beValue n) : halfSig.length ≤ n.length := by
  have h1 : beValue n < 2 ^ (8 * n.length) := by
    rw [← length_reverse]
    exact Limbs.value_lt n.reverse
  have h2 : 16 * W < 8 * n.length := (Nat.pow_lt_pow_iff_right (by omega)).mp (hlt.trans h1)
  rw [length_halfSig]
  simp only [W] at h2
  omega

theorem rsaPublic_half (hn : n.length ≤ 4 * W) (hlt : half < beValue n) (he : 2 ≤ beValue e)
    (h : rsaPublic n e halfSig = some em) : beValue em = 0 := by
  have hl : halfSig.length ≤ n.length := length_halfSig_le hlt
  rw [rsaPublic_eq hn hl (by rw [beValue_halfSig]; exact hlt), Option.some_inj] at h
  rw [← bitsValue_expBits] at he
  have hz := (modexp_half (m := bnFromBe n)
    (by rw [value_bnFromBe (hl.trans hn), beValue_halfSig])
    (by rw [value_bnFromBe hn]; exact hlt) he)
  rw [← h, (bnToBe_spec _ hn).2, bnModexp, hz, zero_mod]

/-- The signature is raised to the power of the exponent and its encoding is checked, exactly
when the number has room for the products: a modulus of more than 4096 bits loses them. -/
theorem rsa_correct_iff {n e : List Byte} (hn : n.length ≤ 1024) :
    (∀ sig : List Byte, sig.length ≤ n.length → beValue sig < beValue n →
      ∃ em, rsaPublic n e sig = some em ∧ em.length = n.length ∧
        beValue em = beValue sig ^ beValue e % beValue n ∧
        ∀ hash hashId, rsaPkcs1v15Verify n e sig hash hashId = true ↔
        emsa hashId hash n.length = some em) ↔
      Powers (beValue n) (beValue e) := by
  have hn' : n.length ≤ 4 * W := hn
  constructor
  · intro h
    refine ⟨fun h0 h1 => ?_, ?_⟩
    · -- the power 0 is 1, whatever the modulus
      have hlt : beValue ([] : List Byte) < beValue n := by rw [h1]; decide
      obtain ⟨em, hem, hlen, hbe, -⟩ := h [] (Nat.zero_le _) hlt
      rw [rsaPublic_eq hn' (Nat.zero_le _) hlt, Option.some_inj] at hem
      have hb : (bnFromBe []).value < (bnFromBe n).value := by
        rw [value_bnFromBe hn', value_bnFromBe (Nat.zero_le _)]
        exact hlt
      have hone := modexp_small hb (l := expBits e) (by rw [bitsValue_expBits, h0]; omega)
      rw [bitsValue_expBits, if_pos h0] at hone
      have hpos := beValue_lt n
      rw [← hem, (bnToBe_spec _ hn').2, bnModexp, hone, h1, Nat.mod_one,
        Nat.mod_eq_of_lt (by omega)] at hbe
      exact absurd hbe (by decide)
    · by_contra hno
      obtain ⟨he, hno⟩ := not_or.mp hno
      obtain ⟨hlt, hpow⟩ := not_or.mp hno
      rw [← half_eq, not_le] at hlt
      have hl : halfSig.length ≤ n.length := length_halfSig_le hlt
      obtain ⟨em, hem, -, hbe, -⟩ := h halfSig hl (by rw [beValue_halfSig]; exact hlt)
      rw [rsaPublic_half hn' hlt (by omega) hem, beValue_halfSig, half, ← Nat.pow_mul] at hbe
      obtain ⟨k, -, hk⟩ := (Nat.dvd_prime_pow Nat.prime_two).mp (Nat.dvd_of_mod_eq_zero hbe.symm)
      exact hpow ⟨k, hk⟩
  · intro h sig hs hlt
    have hval := bnModexp_eq hn' hs hlt h
    obtain ⟨hlen, hbe⟩ := bnToBe_spec (bnModexp (bnFromBe sig) e (bnFromBe n)) hn'
    refine ⟨_, rsaPublic_eq hn' hs hlt, hlen, ?_,
      rsaPkcs1v15Verify_iff (rsaPublic_eq hn' hs hlt) hlen⟩
    have hmod : beValue sig ^ beValue e % beValue n < beValue n := Nat.mod_lt _ (by omega)
    rw [hbe, hval, Nat.mod_eq_of_lt (hmod.trans (beValue_lt n))]

theorem fifteen_le_half : beValue [15#8] ≤ half := by
  have h : 2 ^ 4 ≤ 2 ^ (16 * W) := Nat.pow_le_pow_right (by decide) (by decide)
  exact le_trans (by decide) h

theorem rsa_correct_fifteen :
    ∃ em, rsaPublic [15#8] [3#8] [2#8] = some em ∧ em.length = 1 ∧ beValue em = 2 ^ 3 % 15 ∧
      ∀ hash hashId, rsaPkcs1v15Verify [15#8] [3#8] [2#8] hash hashId = true ↔
      emsa hashId hash 1 = some em :=
  (rsa_correct_iff (n := [15#8]) (e := [3#8]) (by decide)).mpr
    ⟨by decide, .inr (.inl (half_eq ▸ fifteen_le_half))⟩ [2#8] (by decide) (by decide)

def longModulus : List Byte := 1 :: (replicate 511 0 ++ [1])

theorem beValue_longModulus : beValue longModulus = half + 1 := by
  have hr : longModulus.reverse = (1 : Byte) :: (replicate 511 0#8 ++ [1]) := by
    rw [longModulus, reverse_cons, reverse_append, reverse_replicate]
    rfl
  rw [beValue, hr, value_cons, value_append, value_replicate, length_replicate,
    show value [(1 : Byte)] = 1 from rfl, show (1 : Byte).toNat = 1 from rfl, zero_add, mul_one,
    ← pow_add, add_comm, show 8 + 8 * 511 = 16 * W by decide, half]

/-- With the exponent 2 the signature `2 ^ 4096` gives 0, where its square has the remainder 1. -/
theorem square_lost :
    longModulus.length ≤ 1024 ∧ beValue halfSig < beValue longModulus ∧
      ∃ em, rsaPublic longModulus [2#8] halfSig = some em ∧ beValue em = 0 ∧
        beValue halfSig ^ beValue [2#8] % beValue longModulus = 1 := by
  have hlen : longModulus.length ≤ 1024 := by
    rw [longModulus, length_cons, length_append, length_replicate]
    decide
  have hlt : half < beValue longModulus := by
    rw [beValue_longModulus]
    omega
  have hpub := rsaPublic_eq (e := [2#8]) hlen (length_halfSig_le hlt) (beValue_halfSig.trans_lt hlt)
  refine ⟨hlen, beValue_halfSig.trans_lt hlt, _, hpub, rsaPublic_half hlen hlt (by decide) hpub, ?_⟩
  have h1 : 1 < half := lt_of_lt_of_le (by decide) fifteen_le_half
  rw [beValue_halfSig, beValue_longModulus, show beValue [2#8] = 2 from rfl,
    show half ^ 2 = 1 + (half + 1) * (half - 1) by zify [h1.le]; ring, Nat.add_mul_mod_self_left,
    Nat.mod_eq_of_lt (by omega)]

end Cervus.Rsa
