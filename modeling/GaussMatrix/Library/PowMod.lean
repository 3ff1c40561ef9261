import GaussMatrix.Library.Digits
import Mathlib.NumberTheory.LucasPrimality
import Mathlib.Data.List.Prime

/-!
# Powers modulo a number

Powers by squaring, in a form that evaluates, and the test of primality they give.
-/

namespace GaussMatrix.Library

/-- The power of `a` modulo `m`, over the bits of the exponent below a width. -/
def powMod (width m a n : Nat) : Nat :=
  ((List.range width).reverse.map n.testBit).foldl
    (fun r bit => if bit then r * r % m * a % m else r * r % m) (1 % m)

theorem powMod_eq {width n : Nat} (h : n < 2 ^ width) (m a : Nat) :
    powMod width m a n = a ^ n % m := by
  have hrun : powMod width m a n = a ^ ofBits ((List.range width).reverse.map n.testBit) % m := by
    refine foldl_bits (R := fun r k => r = a ^ k % m) ?_ (by rw [pow_zero]) _
    intro r k bit hr
    have hsquare : r * r % m = a ^ (2 * k) % m := by rw [hr, ← Nat.mul_mod, ← pow_add, two_mul]
    cases bit with
    | false => rw [if_neg Bool.false_ne_true, hsquare, Bool.toNat_false, Nat.add_zero]
    | true => rw [if_pos rfl, hsquare, Nat.mod_mul_mod, Bool.toNat_true, pow_succ]
  rw [hrun, ofBits_testBit, Nat.mod_eq_of_lt h]

theorem natCast_pow_eq {width p n : Nat} (h : n < 2 ^ width) (a : Nat) :
    (a : ZMod p) ^ n = (powMod width p a n : Nat) := by
  rw [powMod_eq h, ZMod.natCast_mod, Nat.cast_pow]

theorem pow_eq_one_iff_powMod {width p n : Nat} (hp : 1 < p) (h : n < 2 ^ width) (a : Nat) :
    (a : ZMod p) ^ n = 1 ↔ powMod width p a n = 1 := by
  have hlt : powMod width p a n < p := by
    rw [powMod_eq h]
    exact Nat.mod_lt _ (by omega)
  rw [natCast_pow_eq h, ← Nat.cast_one, ZMod.natCast_eq_natCast_iff', Nat.mod_eq_of_lt hlt,
    Nat.mod_eq_of_lt hp]

/-- A number is prime when an element has the order one below it, tested over the primes of that
order. -/
theorem prime_of_powMod (width a : Nat) (factors : List Nat) {p : Nat} (hp : 1 < p)
    (hwidth : p ≤ 2 ^ width) (hprime : ∀ q ∈ factors, q.Prime) (hprod : factors.prod = p - 1)
    (hone : powMod width p a (p - 1) = 1)
    (hne : ∀ q ∈ factors, powMod width p a ((p - 1) / q) ≠ 1) : p.Prime := by
  apply lucas_primality p (a : ZMod p)
  · exact (pow_eq_one_iff_powMod hp (by omega) a).mpr hone
  · intro q hq hdvd hpow
    rw [← hprod] at hdvd
    obtain ⟨q', hq', hqq'⟩ := (Prime.dvd_prod_iff hq.prime).mp hdvd
    have heq : q = q' := (Nat.prime_dvd_prime_iff_eq hq (hprime q' hq')).mp hqq'
    have hlt : (p - 1) / q < 2 ^ width := lt_of_le_of_lt (Nat.div_le_self _ _) (by omega)
    rw [pow_eq_one_iff_powMod hp hlt] at hpow
    exact hne q (heq ▸ hq') hpow

/-- A number, a base, and the primes of the number below it. -/
structure PrimeTest where
  number : Nat
  base : Nat
  factors : List Nat

/-- The base has the order one below the number. -/
def PrimeTest.Passes (width : Nat) (t : PrimeTest) : Prop :=
  1 < t.number ∧ t.number ≤ 2 ^ width ∧ t.factors.prod = t.number - 1 ∧
    powMod width t.number t.base (t.number - 1) = 1 ∧
    ∀ q ∈ t.factors, powMod width t.number t.base ((t.number - 1) / q) ≠ 1

instance decidablePasses (width : Nat) (t : PrimeTest) : Decidable (t.Passes width) :=
  inferInstanceAs (Decidable (_ ∧ _ ∧ _ ∧ _ ∧ _))

theorem PrimeTest.Passes.prime {width : Nat} {t : PrimeTest} (h : t.Passes width)
    (hfactors : ∀ q ∈ t.factors, q.Prime) : t.number.Prime := by
  obtain ⟨hp, hwidth, hprod, hone, hne⟩ := h
  exact prime_of_powMod width t.base t.factors hp hwidth hfactors hprod hone hne

/-- Tests in an order in which the factors of each are known or have been tested. -/
def Certified (width : Nat) : List Nat → List PrimeTest → Prop
  | _, [] => True
  | known, t :: tests =>
      t.Passes width ∧ (∀ q ∈ t.factors, q ∈ known) ∧ Certified width (t.number :: known) tests

instance decidableCertified (width : Nat) :
    (known : List Nat) → (tests : List PrimeTest) → Decidable (Certified width known tests)
  | _, [] => inferInstanceAs (Decidable True)
  | known, t :: tests =>
      have := decidableCertified width (t.number :: known) tests
      inferInstanceAs (Decidable (_ ∧ _ ∧ _))

theorem prime_of_certified {width : Nat} {known : List Nat} {tests : List PrimeTest}
    (h : Certified width known tests) (hknown : ∀ q ∈ known, q.Prime) :
    ∀ t ∈ tests, t.number.Prime := by
  induction tests generalizing known with
  | nil => exact fun t ht => absurd ht List.not_mem_nil
  | cons t tests ih =>
      obtain ⟨hpasses, hfactors, hrest⟩ := h
      have hprime : t.number.Prime := hpasses.prime fun q hq => hknown q (hfactors q hq)
      rw [List.forall_mem_cons]
      exact ⟨hprime, ih hrest (List.forall_mem_cons.mpr ⟨hprime, hknown⟩)⟩

end GaussMatrix.Library
