import Cervus.Lib.Ladder
import Mathlib.NumberTheory.LucasPrimality

/-! Primality of large numbers by Lucas's test, from tables that give for each prime a base and
the factors of its predecessor. -/

namespace Cervus.Lucas

open List

def powMod (m a e : Nat) : Nat :=
  Ladder.run (a % m) (fun r => r * r % m) (fun r => r * a % m) (1 % m) (Ladder.bits (e.log2 + 1) e)

theorem powMod_eq (m a e : Nat) : powMod m a e = a ^ e % m := by
  have h : powMod m a e = a ^ Ladder.bitsValue (Ladder.bits (e.log2 + 1) e) % m :=
    Ladder.run_spec (Q := fun v r => r = a ^ v % m) (by rw [pow_one])
      (fun v r _ hr => by rw [hr, ← Nat.mul_mod, ← pow_add, two_mul])
      (fun v r _ hr => by rw [hr, Nat.mod_mul_mod, pow_succ]) (by rw [pow_zero]) _
  rwa [Ladder.bitsValue_bits, Nat.mod_eq_of_lt Nat.lt_log2_self] at h

structure Row where
  p : Nat
  a : Nat
  factors : List Nat

def Row.passes (r : Row) : Bool :=
  decide (1 < r.p) && r.factors.prod == r.p - 1 && powMod r.p r.a (r.p - 1) == 1 &&
    r.factors.all fun q => powMod r.p r.a ((r.p - 1) / q) != 1

theorem cast_pow_eq_one {p : Nat} (hp : 1 < p) (a e : Nat) :
    (a : ZMod p) ^ e = 1 ↔ a ^ e % p = 1 := by
  rw [← Nat.cast_pow, ← Nat.cast_one, ZMod.natCast_eq_natCast_iff, Nat.ModEq, Nat.mod_eq_of_lt hp]

theorem Row.prime (r : Row) (h : r.passes = true) (hf : ∀ q ∈ r.factors, q.Prime) : r.p.Prime := by
  simp only [Row.passes, Bool.and_eq_true, decide_eq_true_eq, beq_iff_eq, all_eq_true, bne_iff_ne]
    at h
  obtain ⟨⟨⟨hp, hprod⟩, hone⟩, hne⟩ := h
  rw [powMod_eq] at hone
  refine lucas_primality r.p (r.a : ZMod r.p) ((cast_pow_eq_one hp _ _).mpr hone) fun q hq hdvd =>
    ?_
  rw [← hprod, hq.prime.dvd_prod_iff] at hdvd
  obtain ⟨f, hmem, hqf⟩ := hdvd
  obtain rfl := (Nat.prime_dvd_prime_iff_eq hq (hf f hmem)).mp hqf
  rw [Ne, cast_pow_eq_one hp, ← powMod_eq]
  exact hne q hmem

def certifies (known : List Nat) : List Row → Bool
  | [] => true
  | r :: rows => certifies known rows && r.passes && r.factors.all fun q =>
    (known ++ rows.map Row.p).contains q

theorem prime_of_certifies {known : List Nat} (hk : ∀ q ∈ known, q.Prime) {rows : List Row}
    (h : certifies known rows = true) : ∀ r ∈ rows, r.p.Prime := by
  induction rows with
  | nil => simp
  | cons r rows ih =>
    simp only [certifies, Bool.and_eq_true, all_eq_true, contains_iff_mem, mem_append, mem_map] at h
    obtain ⟨⟨hrows, hr⟩, hfactors⟩ := h
    have hr : r.p.Prime := r.prime hr fun q hq => by
      obtain hq | ⟨r', hr', rfl⟩ := hfactors q hq
      · exact hk q hq
      · exact ih hrows r' hr'
    rintro r' (_ | ⟨_, hmem⟩)
    · exact hr
    · exact ih hrows r' hmem

end Cervus.Lucas
