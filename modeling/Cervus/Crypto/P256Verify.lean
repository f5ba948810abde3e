import Mathlib.Tactic.NormNum.Prime
import Cervus.Lib.Lucas
import Cervus.Crypto.P256Field

/-! The curve P-256: the prime of its field, the prime order of its generator, and the points
that verification of a signature is about. -/

namespace Cervus.P256

def p : Nat := 0xffffffff00000001000000000000000000000000ffffffffffffffffffffffff

def n : Nat := 0xffffffff00000000ffffffffffffffffbce6faada7179e84f3b9cac2fc632551

def smallPrimes : List Nat :=
  [2, 3, 5, 7, 11, 17, 19, 23, 29, 31, 41, 43, 53, 71, 107, 127, 131, 173, 197, 229, 257, 263, 311,
    313, 337, 373,
    641, 661, 1201, 1297, 1531, 2411, 3023, 3407, 3677, 3769, 16879, 17449, 18169, 38189, 65537,
    78283]

def pRows : List Lucas.Row :=
  [⟨p, 6, [2, 3, 5, 5, 17, 257, 641, 1531, 65537, 490463, 6700417,
    835945042244614951780389953367877943453916927241]⟩,
    ⟨835945042244614951780389953367877943453916927241, 11, [2, 2, 2, 3, 3, 3, 5,
      774023187263532362759620327192479577272145303]⟩,
    ⟨774023187263532362759620327192479577272145303, 3, [2, 3, 3, 2411, 34282281433, 11290956913871,
      46076956964474543]⟩,
    ⟨46076956964474543, 5, [2, 23, 18169, 78283, 704251]⟩,
    ⟨11290956913871, 13, [2, 5, 17, 66417393611]⟩,
    ⟨66417393611, 6, [2, 5, 53, 173, 197, 3677]⟩,
    ⟨34282281433, 17, [2, 2, 2, 3, 7, 204061199]⟩,
    ⟨204061199, 11, [2, 11, 23, 107, 3769]⟩,
    ⟨6700417, 5, [2, 2, 2, 2, 2, 2, 2, 3, 17449]⟩,
    ⟨704251, 2, [2, 3, 3, 5, 5, 5, 313]⟩,
    ⟨490463, 14, [2, 7, 53, 661]⟩]

def nRows : List Lucas.Row :=
  [⟨n, 7, [2, 2, 2, 2, 3, 71, 131, 373, 3407, 17449, 38189, 187019741, 622491383, 1002328039319,
      2624747550333869278416773953]⟩,
    ⟨2624747550333869278416773953, 7, [2, 2, 2, 2, 2, 2, 3, 3, 1297, 16879, 208150935158385979]⟩,
    ⟨208150935158385979, 2, [2, 3, 11, 43, 127, 3023, 191039911]⟩,
    ⟨1002328039319, 19, [2, 126241, 3969899]⟩,
    ⟨622491383, 5, [2, 311245691]⟩,
    ⟨311245691, 2, [2, 5, 7, 17, 29, 29, 311]⟩,
    ⟨191039911, 3, [2, 3, 5, 41, 155317]⟩,
    ⟨187019741, 2, [2, 2, 5, 9350987]⟩,
    ⟨9350987, 2, [2, 17, 229, 1201]⟩,
    ⟨3969899, 2, [2, 19, 104471]⟩,
    ⟨155317, 5, [2, 2, 3, 7, 43, 43]⟩,
    ⟨126241, 7, [2, 2, 2, 2, 2, 3, 5, 263]⟩,
    ⟨104471, 11, [2, 5, 31, 337]⟩]

theorem prime_of_mem_smallPrimes : ∀ q ∈ smallPrimes, q.Prime := by
  norm_num [smallPrimes]

theorem prime_p : p.Prime :=
  Lucas.prime_of_certifies prime_of_mem_smallPrimes
    (show Lucas.certifies smallPrimes pRows = true by decide +kernel)
    _ List.mem_cons_self

theorem prime_n : n.Prime :=
  Lucas.prime_of_certifies prime_of_mem_smallPrimes
    (show Lucas.certifies smallPrimes nRows = true by decide +kernel)
    _ List.mem_cons_self

instance : Fact p.Prime := ⟨prime_p⟩

instance : Fact n.Prime := ⟨prime_n⟩

theorem limit_lt : 2 ^ 256 < 2 * n := by norm_num [n]

theorem p_lt : p < 2 ^ 256 := by norm_num [p]

theorem n_lt : n < 2 ^ 256 := by norm_num [n]

/-! The curve. -/

def curveB : Nat := 0x5ac635d8aa3a93e7b3ebbd55769886bc651d06b0cc53b0f63bce3c3e27d2604b

abbrev curve : WeierstrassCurve.Affine (ZMod p) := Jacobian.curve (curveB : ZMod p)

theorem equation_iff_modEq (x y : Nat) :
    curve.Equation (x : ZMod p) (y : ZMod p) ↔ y ^ 2 + 3 * x ≡ x ^ 3 + curveB [MOD p] := by
  rw [Jacobian.equation_iff_curve, ← ZMod.natCast_eq_natCast_iff]
  push_cast
  constructor <;> intro h <;> linear_combination h

instance : curve.IsElliptic := by
  constructor
  rw [isUnit_iff_ne_zero]
  have hΔ : curve.Δ = ((1728 : Nat) : ZMod p) - (432 * curveB ^ 2 : Nat) := by
    simp only [WeierstrassCurve.Δ, WeierstrassCurve.b₂, WeierstrassCurve.b₄, WeierstrassCurve.b₆,
      WeierstrassCurve.b₈,
      curve, Jacobian.curve]
    push_cast
    ring
  rw [hΔ, sub_ne_zero, Ne, ZMod.natCast_eq_natCast_iff]
  decide +kernel

def gx : Nat := 0x6b17d1f2e12c4247f8bce6e563a440f277037d812deb33a0f4a13945d898c296

def gy : Nat := 0x4fe342e2fe1a7f9b8ee7eb4a7c0f9e162bce33576b315ececbb6406837bf51f5

theorem gx_lt : gx < p := by norm_num [gx, p]

theorem gy_lt : gy < p := by norm_num [gy, p]

theorem equation_generator : curve.Equation (gx : ZMod p) (gy : ZMod p) := by
  rw [equation_iff_modEq]
  decide +kernel

def G : curve.Point := .mk equation_generator

/-! The check of a P-256 signature accepts exactly the signatures that are valid for the group of
the curve: its points stand for points of the curve, its loops for multiples of them. -/

open List
open Limbs (beValue)

/-! Points. -/

structure PointRep {q : Nat} (P : JPoint) (T : Jacobian.Triple (ZMod q)) : Prop where
  x : Rep P.x T.x
  y : Rep P.y T.y
  z : Rep P.z T.z

section

variable {q : Nat} [Fact q.Prime] {C : Mont} (hC : C.Ok q) {P P' : JPoint}
    {T T' : Jacobian.Triple (ZMod q)}

include hC

theorem PointRep.isInf (h : PointRep P T) : pIsInf P = true ↔ T.z = 0 := h.z.isZero hC

theorem pointRep_zero : PointRep JPoint.zero (Jacobian.infinity : Jacobian.Triple (ZMod q)) :=
  ⟨rep_zero hC, rep_zero hC, rep_zero hC⟩

theorem Rep.times {a : F256} {x : ZMod q} (ha : Rep a x) (k : Nat) [k.AtLeastTwo] :
    Rep (P256.smallMul C a k) (OfNat.ofNat k * x) :=
  ha.smallMul hC k

theorem PointRep.double (h : PointRep P T) : PointRep (pDouble C P) (Jacobian.double T) := by
  rw [pDouble, Jacobian.double]
  by_cases hz : T.z = 0
  · rw [if_pos ((h.isInf hC).mpr hz), if_pos hz]
    exact pointRep_zero hC
  rw [if_neg (mt (h.isInf hC).mp hz), if_neg hz]
  have hdelta := h.z.mul hC h.z
  have hgamma := h.y.mul hC h.y
  have hbeta := h.x.mul hC hgamma
  have halpha := ((h.x.sub hC hdelta).mul hC (h.x.add hC hdelta)).times hC 3
  have hx := (halpha.mul hC halpha).sub hC (hbeta.times hC 8)
  have hyz := h.y.add hC h.z
  have hy := (halpha.mul hC ((hbeta.times hC 4).sub hC hx)).sub hC
    ((hgamma.mul hC hgamma).times hC 8)
  -- the instances of the two fields are compared without unfolding the arithmetic
  constructor
  · with_reducible_and_instances exact hx
  · with_reducible_and_instances exact hy
  · with_reducible_and_instances exact ((hyz.mul hC hyz).sub hC hgamma).sub hC hdelta

/-- Adding limbs of points is adding points in Jacobian coordinates. -/
theorem PointRep.add (h : PointRep P T) (h' : PointRep P' T') :
    PointRep (pAdd C P P') (Jacobian.add T T') := by
  rw [pAdd, Jacobian.add]
  by_cases hz : T.z = 0
  · rw [if_pos ((h.isInf hC).mpr hz), if_pos hz]
    exact h'
  by_cases hz' : T'.z = 0
  · rw [if_neg (mt (h.isInf hC).mp hz), if_neg hz, if_pos ((h'.isInf hC).mpr hz'), if_pos hz']
    exact h
  rw [if_neg (mt (h.isInf hC).mp hz), if_neg hz, if_neg (mt (h'.isInf hC).mp hz'), if_neg hz']
  have hz1 := h.z.mul hC h.z
  have hz2 := h'.z.mul hC h'.z
  have hu := h.x.mul hC hz2
  have hs := (h.y.mul hC h'.z).mul hC hz2
  have hh := (h'.x.mul hC hz1).sub hC hu
  have hr := ((h'.y.mul hC h.z).mul hC hz1).sub hC hs
  by_cases h0 : T'.x * (T.z * T.z) - T.x * (T'.z * T'.z) = 0
  · rw [if_pos ((hh.isZero hC).mpr h0), if_pos h0]
    by_cases h1 : T'.y * T.z * (T.z * T.z) - T.y * T'.z * (T'.z * T'.z) = 0
    · rw [if_pos ((hr.isZero hC).mpr h1), if_pos h1]
      exact h.double hC
    · rw [if_neg (mt (hr.isZero hC).mp h1), if_neg h1]
      exact pointRep_zero hC
  · rw [if_neg (mt (hh.isZero hC).mp h0), if_neg h0]
    have hr2 := hr.times hC 2
    have hh2 := hh.times hC 2
    have hi := hh2.mul hC hh2
    have hj := hh.mul hC hi
    have hv := hu.mul hC hi
    have hx := ((hr2.mul hC hr2).sub hC hj).sub hC (hv.times hC 2)
    have hzz := h.z.add hC h'.z
    have hy := (hr2.mul hC (hv.sub hC hx)).sub hC ((hs.mul hC hj).times hC 2)
    constructor
    · with_reducible_and_instances exact hx
    · with_reducible_and_instances exact hy
    · with_reducible_and_instances exact (((hzz.mul hC hzz).sub hC hz1).sub hC hz2).mul hC hh

/-- The point stands for the point `A` of the curve. -/
def Stands {b : ZMod q} (P : JPoint) (A : (Jacobian.curve b).Point) : Prop :=
  ∃ T, PointRep P T ∧ Jacobian.Represents T A

variable {b : ZMod q} {A B : (Jacobian.curve b).Point}

theorem stands_zero : Stands JPoint.zero (0 : (Jacobian.curve b).Point) :=
  ⟨_, pointRep_zero hC, .zero rfl⟩

theorem Stands.double (h : Stands P A) : Stands (pDouble C P) (A + A) := by
  obtain ⟨T, hT, hA⟩ := h
  exact ⟨_, hT.double hC, hA.double⟩

theorem Stands.add (h : Stands P A) (h' : Stands P' B) : Stands (pAdd C P P') (A + B) := by
  obtain ⟨T, hT, hA⟩ := h
  obtain ⟨T', hT', hB⟩ := h'
  exact ⟨_, hT.add hC hT', hA.add hC.two_ne_zero hB⟩

theorem Stands.scalarmult (h : Stands P A) (k : F256) :
    Stands (scalarmult C k P) (k.value • A) := by
  have hrun : Stands (P256.scalarmult C k P) (Ladder.bitsValue (scalarBits k) • A) :=
    Ladder.run_spec (Q := fun v R => Stands R (v • A)) (by rwa [one_nsmul])
      (fun v R _ hR => by rw [two_mul, add_nsmul]; exact hR.double hC)
      (fun v R _ hR => by rw [succ_nsmul]; exact hR.add hC h)
        (by rw [zero_nsmul]; exact stands_zero hC) _
  rwa [bitsValue_scalarBits] at hrun

end

/-! The two moduli. -/

theorem beValue_pBe : beValue pBe = p := rfl

theorem beValue_nBe : beValue nBe = n := rfl

theorem beValue_gxBe : beValue gxBe = gx := rfl

theorem beValue_gyBe : beValue gyBe = gy := rfl

theorem mp_ok : mp.Ok p := by
  have h := montSetup_ok pBe rfl (by norm_num [beValue_pBe, p]) (by decide +kernel)
  rwa [beValue_pBe] at h

theorem mn_ok : mn.Ok n := by
  have h := montSetup_ok nBe rfl (by norm_num [beValue_nBe, n]) (by decide +kernel)
  rwa [beValue_nBe] at h

/-! The numbers of a signature. -/

/-- The signature `(r, s)` of the hash `z` is valid for the public key `Q`. -/
def Valid (Q : curve.Point) (z r s : Nat) : Prop :=
  (1 ≤ r ∧ r < n) ∧ (1 ≤ s ∧ s < n) ∧
    ∃ x y h, (z / s : ZMod n).val • G + (r / s : ZMod n).val • Q = .some x y h ∧ x.val ≡ r [MOD n]

theorem beValue_zeros (k : Nat) (b : List Byte) : beValue (replicate k 0 ++ b) = beValue b := by
  rw [beValue_append_list, beValue, reverse_replicate, BitVec.ofNat_eq_ofNat, Limbs.value_replicate,
    mul_zero,
    zero_add]

theorem value_hashBytes (hash : List Byte) :
    (beToLimbs (hashBytes hash)).value = beValue (hash.take 32) := by
  rw [hashBytes]
  split_ifs with h
  · exact value_beToLimbs (length_take_of_le h)
  · rw [value_beToLimbs (by simp; omega), beValue_zeros, take_of_length_le (by omega)]

theorem stands_affine {x y : F256} {a b : Nat} (hxa : x.value = a) (hyb : y.value = b) (hx : a < p)
    (hy : b < p) (h : curve.Equation (a : ZMod p) (b : ZMod p)) :
    Stands (affine x y) (.mk h : curve.Point) := by
  subst hxa hyb
  have hone : Rep (montTo mp one) (1 : ZMod p) := by
    have h := rep_montTo mp_ok (a := one) prime_p.one_lt
    rwa [show one.value = 1 from rfl, Nat.cast_one] at h
  refine ⟨⟨_, _, 1⟩, ⟨rep_montTo mp_ok hx, rep_montTo mp_ok hy, hone⟩, .some _ one_ne_zero ?_ ?_⟩
  · rw [one_pow, mul_one]
  · rw [one_pow, mul_one]

theorem value_scalar {z s : F256} (hz : z.value < n) (hs : s.value < n) :
    (montFrom mn (montMul mn (montTo mn z) (finv mn (montTo mn s)))).value =
    (z.value / s.value : ZMod n).val := by
  exact ((rep_montTo mn_ok hz).mul mn_ok ((rep_montTo mn_ok hs).inv mn_ok)).montFrom mn_ok

theorem value_xAffine {R : JPoint} {A : curve.Point} (h : Stands R A) :
    (pIsInf R = true ∧ A = 0) ∨ (pIsInf R = false ∧ ∃ x y hxy, A = .some x y hxy ∧
      (subIfOver mn.m false (montFrom mp (montMul mp R.x (finv mp (montMul mp R.z R.z))))).value =
      x.val % n) := by
  obtain ⟨T, hT, hA⟩ := h
  cases hA with
  | zero hz => exact .inl ⟨(hT.isInf mp_ok).mpr hz, rfl⟩
  | @some x y hxy hz hx hy =>
    refine .inr ⟨Bool.eq_false_iff.mpr (mt (hT.isInf mp_ok).mp hz), x, y, hxy, rfl, ?_⟩
    have hxa := (hT.x.mul mp_ok ((hT.z.mul mp_ok hT.z).inv mp_ok)).montFrom mp_ok
    rw [hx, ← pow_two, mul_assoc, mul_inv_cancel₀ (pow_ne_zero 2 hz), mul_one] at hxa
    have hlt := ZMod.val_lt x
    have h1 := limit_lt
    have h2 := p_lt
    rw [value_subIfOver_false (by rw [hxa, mn_ok.m]; omega), hxa, mn_ok.m]

def publicKey (xb yb : List Byte) : List Byte := 0x04 :: (xb ++ yb)

theorem beToLimbs_append {a : List Byte} (ha : a.length = 32) (b : List Byte) :
    beToLimbs (a ++ b) = beToLimbs a := by
  have hword : ∀ k, k + 8 ≤ 32 → beWord ((a ++ b).drop k) = beWord (a.drop k) := by
    intro k hk
    rw [beWord, beWord, drop_append_of_le_length (by omega),
      take_append_of_le_length (by simp; omega)]
  have h0 : beWord (a ++ b) = beWord a := hword 0 (by decide)
  rw [beToLimbs, beToLimbs]
  simp only [hword 24 (by decide), hword 16 (by decide), hword 8 (by decide), h0]

/-- The check on the numbers is that of the definition. -/
theorem verifyNumbers_iff {xb yb : List Byte} (hxl : xb.length = 32) (hyl : yb.length = 32)
    (hx : beValue xb < p) (hy : beValue yb < p)
    (hQ : curve.Equation (beValue xb : ZMod p) (beValue yb : ZMod p)) (r s : F256)
    (hash : List Byte) :
    verifyNumbers (publicKey xb yb) r s hash = 0 ↔
      Valid (.mk hQ) (beValue (hash.take 32)) r.value s.value := by
  have hxv := value_beToLimbs hxl
  have hyv := value_beToLimbs hyl
  have hcmp : ∀ a : F256, u256Cmp a mn.m = .lt ↔ a.value < n := fun a => by rw [u256Cmp_lt, mn_ok.m]
  rw [verifyNumbers, Valid]
  by_cases h0 : u256Iszero r = true ∨ u256Iszero s = true
  · rw [if_pos h0]
    rw [u256Iszero_iff, u256Iszero_iff] at h0
    refine iff_of_false (by decide) ?_
    rintro ⟨⟨h1, -⟩, ⟨h2, -⟩, -⟩
    omega
  rw [if_neg h0]
  by_cases hn : u256Cmp r mn.m ≠ .lt ∨ u256Cmp s mn.m ≠ .lt
  · rw [if_pos hn]
    rw [Ne, Ne, hcmp, hcmp] at hn
    refine iff_of_false (by decide) ?_
    rintro ⟨⟨-, h1⟩, ⟨-, h2⟩, -⟩
    omega
  rw [if_neg hn]
  rw [u256Iszero_iff, u256Iszero_iff] at h0
  rw [Ne, Ne, hcmp, hcmp] at hn
  have hrn : r.value < n := by omega
  have hsn : s.value < n := by omega
  have hz : (subIfOver mn.m false (beToLimbs (hashBytes hash))).value = beValue (hash.take 32) %
      n := by
    have hlt := (beToLimbs (hashBytes hash)).value_lt
    rw [value_subIfOver_false (by rw [mn_ok.m]; exact hlt.trans limit_lt), mn_ok.m, value_hashBytes]
  have hu1 := value_scalar (hz.trans_lt (Nat.mod_lt _ (by omega))) hsn
  rw [hz, ZMod.natCast_mod] at hu1
  have hu2 := value_scalar hrn hsn
  have hG : Stands (affine (beToLimbs gxBe) (beToLimbs gyBe)) G :=
    stands_affine ((value_beToLimbs rfl).trans beValue_gxBe)
      ((value_beToLimbs rfl).trans beValue_gyBe) gx_lt gy_lt
      equation_generator
  have hQ' :
    Stands (affine (beToLimbs ((publicKey xb yb).drop 1)) (beToLimbs ((publicKey xb yb).drop 33)))
      (.mk hQ : curve.Point) := by
    have h33 : (publicKey xb yb).drop 33 = yb := by
      rw [publicKey, drop_succ_cons, drop_left' hxl]
    rw [h33, publicKey, drop_one, tail_cons, beToLimbs_append hxl]
    exact stands_affine hxv hyv hx hy hQ
  dsimp only
  have hR :=
    (hG.scalarmult mp_ok (montFrom mn (montMul mn (montTo mn (subIfOver mn.m false (beToLimbs
      (hashBytes hash)))) (finv mn (montTo mn s))))).add mp_ok
    (hQ'.scalarmult mp_ok (montFrom mn (montMul mn (montTo mn r) (finv mn (montTo mn s)))))
  rw [hu1, hu2] at hR
  generalize pAdd mp _ _ = R at hR ⊢
  obtain ⟨hinf, h0⟩ | ⟨hinf, x, y, hxy, hA, hxa⟩ := value_xAffine hR
  · rw [hinf, if_pos rfl, h0]
    refine iff_of_false (by decide) ?_
    rintro ⟨-, -, x, y, h, hA, -⟩
    cases hA
  rw [hinf, if_neg (by decide), hA]
  generalize subIfOver mn.m false (montFrom mp _) = xa at hxa ⊢
  have heq : u256Cmp xa r = .eq ↔ x.val ≡ r.value [MOD n] := by
    rw [u256Cmp_eq, hxa, Nat.compare_eq_eq, Nat.ModEq, Nat.mod_eq_of_lt hrn]
  split_ifs with hc
  · exact iff_of_true rfl ⟨⟨by omega, hrn⟩, ⟨by omega, hsn⟩, x, y, hxy, rfl, heq.mp hc⟩
  · refine iff_of_false (by decide) ?_
    rintro ⟨-, -, x', y', h, hA', hmod⟩
    cases hA'
    exact hc (heq.mpr hmod)

/-! The encoding of a signature. -/

def derInteger (b : List Byte) : List Byte := 0x02 :: BitVec.ofNat 8 b.length :: b

def derSignature (rb sb : List Byte) : List Byte :=
  0x30 :: BitVec.ofNat 8 (rb.length + sb.length + 4) :: (derInteger rb ++ derInteger sb)

theorem beValue_dropWhile (b : List Byte) : beValue (b.dropWhile (· == 0)) = beValue b := by
  induction b with
  | nil => rfl
  | cons x b ih =>
    by_cases hx : x = 0
    · rw [dropWhile_cons_of_pos (by simpa using hx), ih, hx]
      exact (beValue_zeros 1 b).symm
    · rw [dropWhile_cons_of_neg (by simpa using hx)]

theorem le_beValue_dropWhile {b : List Byte} (h : b.dropWhile (· == 0) ≠ []) :
    2 ^ (8 * ((b.dropWhile (· == 0)).length - 1)) ≤ beValue (b.dropWhile (· == 0)) := by
  have hhead := head_dropWhile_not (· == 0) h
  generalize b.dropWhile (· == 0) = v at h hhead ⊢
  obtain _ | ⟨x, v⟩ := v
  · exact absurd rfl h
  · have hx : 1 ≤ x.toNat := by
      have h0 : x ≠ 0 := by simpa using hhead
      have : x.toNat ≠ 0 := fun h => h0 (BitVec.eq_of_toNat_eq h)
      omega
    have hsplit := beValue_append_list [x] v
    rw [singleton_append, show beValue [x] = x.toNat by simp [beValue]] at hsplit
    rw [length_cons, Nat.add_sub_cancel, hsplit]
    exact (Nat.le_mul_of_pos_right _ hx).trans (Nat.le_add_right _ _)

theorem short_form {k : Nat} (hk : k < 128) : BitVec.ofNat 8 k &&& 0x80 = 0 := by
  have h : ∀ k : Fin 128, BitVec.ofNat 8 k &&& 0x80 = 0 := by decide
  exact h ⟨k, hk⟩

theorem toNat_short {k : Nat} (hk : k < 128) : (BitVec.ofNat 8 k).toNat = k := by
  rw [BitVec.toNat_ofNat, Nat.mod_eq_of_lt (by omega)]

/-- An integer of the signature is read, or refused because it is too large. -/
theorem readInteger_eq (sig : List Byte) {b rest : List Byte} (pos : Nat)
    (hsig : sig.drop pos = derInteger b ++ rest) (hb : b.length ≤ 33)
    (go : List Byte → Nat → Option Int) :
    (2 ^ 256 ≤ beValue b ∧ readInteger sig pos go = some (-1)) ∨
      ∃ v : List Byte, v.length = 32 ∧ beValue v = beValue b ∧
        readInteger sig pos go = go v (pos + 2 + b.length) := by
  have hget : ∀ k, sig[pos + k]? = (derInteger b ++ rest)[k]? :=
    fun k => by rw [← hsig, List.getElem?_drop]
  have hlen : sig.length = pos + 2 + b.length + rest.length := by
    have h := congrArg length hsig
    simp [derInteger] at h
    omega
  have hbody : (sig.drop (pos + 2)).take b.length = b := by
    rw [← drop_drop, hsig, derInteger, cons_append, cons_append, drop_succ_cons,
      drop_succ_cons, drop_zero, take_left]
  have h0 : sig[pos]? = some 0x02 := hget 0
  have h1 : sig[pos + 1]? = some (BitVec.ofNat 8 b.length) := hget 1
  rw [readInteger, if_neg (not_not.mpr h0), h1]
  dsimp only
  rw [if_neg (not_not.mpr (short_form (by omega))), toNat_short (by omega), if_neg (by omega),
    hbody]
  have hval := beValue_dropWhile b
  have hle := le_beValue_dropWhile (b := b)
  generalize b.dropWhile (· == 0) = v at hval hle ⊢
  split_ifs with hv
  · refine .inl ⟨?_, rfl⟩
    have hpow : 2 ^ 256 ≤ 2 ^ (8 * (v.length - 1)) := Nat.pow_le_pow_right (by decide) (by omega)
    exact hval ▸ hpow.trans (hle (ne_nil_of_length_pos (by omega)))
  · exact .inr ⟨_, by simp; omega, by rw [beValue_zeros, hval], rfl⟩

/-- The check accepts exactly the valid signatures, whatever the public key on the curve, the
hash, and the numbers `r` and `s`. -/
theorem ecdsaP256Verify_iff {xb yb rb sb : List Byte} (hxl : xb.length = 32) (hyl : yb.length = 32)
    (hx : beValue xb < p) (hy : beValue yb < p)
    (hQ : curve.Equation (beValue xb : ZMod p) (beValue yb : ZMod p)) (hr : rb.length ≤ 33)
    (hs : sb.length ≤ 33) (hash : List Byte) :
    ecdsaP256Verify (publicKey xb yb) (derSignature rb sb) hash = some 0 ↔
      Valid (.mk hQ) (beValue (hash.take 32)) (beValue rb) (beValue sb) := by
  have hbig : ∀ {b : List Byte}, 2 ^ 256 ≤ beValue b → ¬beValue b < n := fun h => by
    have := n_lt
    omega
  have hlen : (derSignature rb sb).length = rb.length + sb.length + 6 := by
    simp [derSignature, derInteger]
    omega
  have hpub : ¬((publicKey xb yb).length ≠ 65 ∨ (publicKey xb yb)[0]? ≠ some 0x04) := by
    simp [publicKey, hxl, hyl]
  have hsecond : (derSignature rb sb).drop (4 + rb.length) = derInteger sb ++ [] := by
    rw [append_nil, add_comm]
    exact drop_left
  rw [ecdsaP256Verify, if_neg hpub, if_neg (by simp [derSignature])]
  simp only [show (derSignature rb sb)[1]? = some (BitVec.ofNat 8 (rb.length + sb.length + 4))
    from rfl]
  rw [if_neg (not_not.mpr (short_form (by omega))), toNat_short (by omega), if_neg (by omega)]
  obtain ⟨hr', h1⟩ | ⟨vr, hvl, hvr, h1⟩ := readInteger_eq
    (derSignature rb sb) 2 rfl hr fun rb' pos =>
    readInteger (derSignature rb sb) pos fun sb' _ =>
      some (verifyNumbers (publicKey xb yb) (beToLimbs rb') (beToLimbs sb') hash)
  · rw [h1]
    refine iff_of_false (by decide) ?_
    rintro ⟨⟨-, h⟩, -⟩
    exact hbig hr' h
  rw [h1]
  obtain ⟨hs', h2⟩ | ⟨vs, hsl, hvs, h2⟩ := readInteger_eq _ _ hsecond hs fun sb' _ =>
    some (verifyNumbers (publicKey xb yb) (beToLimbs vr) (beToLimbs sb') hash)
  · rw [h2]
    refine iff_of_false (by decide) ?_
    rintro ⟨-, ⟨-, h⟩, -⟩
    exact hbig hs' h
  rw [h2, Option.some_inj, verifyNumbers_iff hxl hyl hx hy hQ, value_beToLimbs hvl,
    value_beToLimbs hsl, hvr, hvs]

theorem valid_neg_double {r : Nat} (h1 : 1 ≤ r) (hn : r < n) (hx : gx ≡ r [MOD n]) :
    Valid (-G) (2 * r) r r := by
  have hr : (r : ZMod n) ≠ 0 := by
    rw [Ne, ZMod.natCast_eq_zero_iff]
    exact fun hdvd => absurd (Nat.le_of_dvd h1 hdvd) (by omega)
  have hdouble : ((2 * r : Nat) / r : ZMod n) = (2 : Nat) := by
    rw [Nat.cast_mul, mul_div_cancel_right₀ _ hr]
  have : Fact (1 < n) := ⟨prime_n.one_lt⟩
  refine ⟨⟨h1, hn⟩, ⟨h1, hn⟩, gx, gy,
    WeierstrassCurve.Affine.equation_iff_nonsingular.mp equation_generator, ?_,
    (ZMod.val_natCast_of_lt gx_lt).symm ▸ hx⟩
  rw [hdouble, div_self hr, ZMod.val_natCast_of_lt (by norm_num [n]), ZMod.val_one, one_nsmul,
    two_nsmul, add_neg_cancel_right]
  rfl

/-- The second coordinate of the opposite of the generator. -/
def negGyBe : List Byte :=
  [0xb0, 0x1c, 0xbd, 0x1c, 0x01, 0xe5, 0x80, 0x65, 0x71, 0x18, 0x14, 0xb5, 0x83, 0xf0, 0x61, 0xe9,
    0xd4, 0x31, 0xcc, 0xa9, 0x94, 0xce, 0xa1, 0x31, 0x34, 0x49, 0xbf, 0x97, 0xc8, 0x40, 0xae, 0x0a]

def doubleGxBe : List Byte :=
  [0xd6, 0x2f, 0xa3, 0xe5, 0xc2, 0x58, 0x84, 0x8f, 0xf1, 0x79, 0xcd, 0xca, 0xc7, 0x48, 0x81, 0xe4,
    0xee, 0x06, 0xfb, 0x02, 0x5b, 0xd6, 0x67, 0x41, 0xe9, 0x42, 0x72, 0x8b, 0xb1, 0x31, 0x85, 0x2c]

theorem beValue_negGyBe : beValue negGyBe = p - gy := by decide +kernel

theorem equation_opposite : curve.Equation (beValue gxBe : ZMod p) (beValue negGyBe : ZMod p) := by
  rw [equation_iff_modEq]
  decide +kernel

theorem mk_opposite : (.mk equation_opposite : curve.Point) = -G := by
  have hy : ((beValue negGyBe : Nat) : ZMod p) = curve.negY gx gy := by
    rw [beValue_negGyBe, Nat.cast_sub gy_lt.le, ZMod.natCast_self, zero_sub]
    exact (Jacobian.negY_curve _ _).symm
  rw [G, WeierstrassCurve.Affine.Point.mk, WeierstrassCurve.Affine.Point.mk,
    WeierstrassCurve.Affine.Point.neg_some]
  congr

/-- A signature by the private key `n - 1`. -/
theorem ecdsaP256Verify_opposite :
    ecdsaP256Verify (publicKey gxBe negGyBe) (derSignature gxBe gxBe) doubleGxBe = some 0 := by
  have hx : beValue gxBe < p := gx_lt
  refine (ecdsaP256Verify_iff rfl rfl hx (by decide +kernel) equation_opposite (by decide)
    (by decide) doubleGxBe).mpr ?_
  rw [mk_opposite, show beValue (doubleGxBe.take 32) = 2 * beValue gxBe by decide +kernel]
  exact valid_neg_double (by decide +kernel) (by decide +kernel) rfl

end Cervus.P256
