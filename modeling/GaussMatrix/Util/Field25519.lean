import GaussMatrix.Util.Limbs
import GaussMatrix.Library.PowMod
import Mathlib.FieldTheory.Finite.Basic
import Mathlib.Tactic.LinearCombination
import Mathlib.Tactic.NormNum.Prime

/-!
# The field of the curve

The field elements of the signature code, four limbs each, as residues modulo `2^255 - 19`.
-/

namespace GaussMatrix.Util.Curve25519

open Library

/-- The order of the field. -/
def p : Nat := 2 ^ 255 - 19

theorem p_eq : p = 2 ^ 255 - 19 := rfl

/-! ## The order is prime

Each prime is certified by an element of the order one below it, over the primes of that order.
-/

def fieldPrimes : List Nat :=
  [2, 3, 5, 7, 13, 19, 31, 47, 107, 127, 223, 353, 2437, 4153, 57467, 65147, 75707,
    132049, 430751, 569003, 1923133, 8574133]

def fieldTests : List PrimeTest :=
  [⟨2773320623, 5, [2, 2437, 569003]⟩,
    ⟨72106336199, 7, [2773320623, 2, 13]⟩,
    ⟨31757755568855353, 10, [2, 2, 2, 3, 31, 107, 223, 4153, 430751]⟩,
    ⟨1919519569386763, 2, [2, 3, 7, 19, 47, 47, 127, 8574133]⟩,
    ⟨75445702479781427272750846543864801, 7,
      [72106336199, 1919519569386763, 2, 2, 2, 2, 2, 3, 3, 5, 5, 75707]⟩,
    ⟨74058212732561358302231226437062788676166966415465897661863160754340907, 2,
      [31757755568855353, 75445702479781427272750846543864801, 2, 3, 353, 57467, 132049, 1923133]⟩,
    ⟨p, 2, [74058212732561358302231226437062788676166966415465897661863160754340907, 2, 2, 3,
      65147]⟩]

theorem prime_p : p.Prime := by
  have hsmall : ∀ q ∈ fieldPrimes, Nat.Prime q := by norm_num [fieldPrimes]
  have htests : Certified 256 fieldPrimes fieldTests := by decide +kernel
  exact prime_of_certified htests hsmall _ (List.getLast_mem (List.cons_ne_nil _ _))

abbrev Fp := ZMod p

instance : Fact p.Prime := ⟨prime_p⟩

/-! ## The code -/

/-- The limbs of the order. -/
def P : Limbs 4 :=
  Limbs.four 0xffffffffffffffed 0xffffffffffffffff 0xffffffffffffffff 0x7fffffffffffffff

theorem P_value : P.value = p := by decide

/-- Subtract the order unless the number is below it. -/
def condSubP (v : Limbs 4) : Limbs 4 := if lessThan v P then v else (subLimbs v P).1

/-- What is folded in again is less than it was. -/
theorem reduceLoop_decreases {hi lo : Limbs 4} (hover : ¬(mul38Add hi lo).2 = 0) :
    2 ^ 256 * (Limbs.four (mul38Add hi lo).2 0 0 0).value + (mul38Add hi lo).1.value <
      2 ^ 256 * hi.value + lo.value := by
  have hvalue := mul38Add_value hi lo
  have hlo := lo.value_lt_256
  have hne : (mul38Add hi lo).2.toNat ≠ 0 := fun h => hover (UInt64.toNat_inj.mp h)
  rw [Limbs.single_value]
  omega

/-- The loop of `reduce_512`: fold the high half in until nothing is beyond 256 bits. -/
def reduceLoop (hi lo : Limbs 4) : Limbs 4 :=
  let r := mul38Add hi lo
  if r.2 = 0 then r.1 else reduceLoop (Limbs.four r.2 0 0 0) r.1
termination_by 2 ^ 256 * hi.value + lo.value
decreasing_by exact reduceLoop_decreases ‹_›

def reduce512 (w : Limbs 8) : Limbs 4 :=
  let lo := Limbs.four (w.get 0) (w.get 1) (w.get 2) (w.get 3)
  let hi := Limbs.four (w.get 4) (w.get 5) (w.get 6) (w.get 7)
  condSubP (condSubP (reduceLoop hi lo))

/-- A field element: four little-endian limbs. -/
structure Fe where
  limbs : Limbs 4
deriving DecidableEq

namespace Fe

def zero : Fe := ⟨Limbs.four 0 0 0 0⟩

def one : Fe := ⟨Limbs.four 1 0 0 0⟩

def fromU64 (n : UInt64) : Fe := ⟨Limbs.four n 0 0 0⟩

/-- Subtract the order once, unless that borrows. -/
def canonical (a : Fe) : Fe :=
  let r := subLimbs a.limbs P
  if r.2 = 0 then ⟨r.1⟩ else a

def add (a b : Fe) : Fe :=
  let r := addLimbs a.limbs b.limbs
  -- A carry stands for 2^256, which is 38 modulo the order.
  canonical ⟨if r.2 ≠ 0 then addSmall r.1 38 else r.1⟩

def sub (a b : Fe) : Fe :=
  let r := subLimbs a.limbs b.limbs
  -- Add the order back where that borrowed.
  ⟨if r.2 ≠ 0 then (addLimbs r.1 P).1 else r.1⟩

def mul (a b : Fe) : Fe := canonical ⟨reduce512 (mulWide a.limbs b.limbs)⟩

def sq (a : Fe) : Fe := a.mul a

/-- Square and multiply over the bits of the exponent, from the top. -/
def pow (a : Fe) (exp : Limbs 4) : Fe :=
  (bitsDown 64 (exp.toList.map UInt64.toNat)).foldl
    (fun result bit => if bit then result.sq.mul a else result.sq) one

/-- The power `p - 2`. -/
def invert (a : Fe) : Fe :=
  a.pow (Limbs.four 0xffffffffffffffeb 0xffffffffffffffff 0xffffffffffffffff 0x7fffffffffffffff)

def isNegative (a : Fe) : Bool := a.canonical.limbs.get 0 &&& 1 == 1

def neg (a : Fe) : Fe := zero.sub a

def toBytes (a : Fe) : List.Vector UInt8 32 := limbsToLe a.canonical.limbs

/-- The sign bit is masked off. -/
def fromBytes (b : List.Vector UInt8 32) : Fe :=
  let l := leToLimbs b
  ⟨Limbs.four (l.get 0) (l.get 1) (l.get 2) (l.get 3 &&& 0x7fffffffffffffff)⟩

end Fe

/-! ## Reduction -/

/-- Beyond 256 bits a unit counts 38. -/
theorem two_pow_256 : (2 ^ 256 : Fp) = 38 := by
  have h : ((2 ^ 256 : Nat) : Fp) = ((38 : Nat) : Fp) :=
    (ZMod.natCast_eq_natCast_iff' _ _ _).mpr (by decide)
  rwa [Nat.cast_pow] at h

theorem condSubP_value (v : Limbs 4) :
    (condSubP v).value = if v.value < p then v.value else v.value - p := by
  have hiff := lessThan_iff v P
  rw [P_value] at hiff
  rw [condSubP]
  by_cases hlt : v.value < p
  · rw [if_pos hlt, if_pos (hiff.mpr hlt)]
  · rw [if_neg hlt, if_neg (mt hiff.mp hlt)]
    have hsub := subLimbs_value v P
    have hv := v.value_lt_256
    have hr := (subLimbs v P).1.value_lt_256
    rw [P_value] at hsub
    omega

theorem condSubP_cast (v : Limbs 4) : ((condSubP v).value : Fp) = v.value := by
  rw [condSubP_value]
  split
  · rfl
  next hge => rw [Nat.cast_sub (Nat.le_of_not_lt hge), ZMod.natCast_self, sub_zero]

/-- One round keeps the residue. -/
theorem mul38Add_cast (hi lo : Limbs 4) :
    (2 ^ 256 * (mul38Add hi lo).2.toNat + (mul38Add hi lo).1.value : Fp) =
      2 ^ 256 * hi.value + lo.value := by
  have h := congrArg (Nat.cast : Nat → Fp) (mul38Add_value hi lo)
  rw [Nat.cast_add, Nat.cast_mul, Nat.cast_pow, Nat.cast_add, Nat.cast_mul] at h
  linear_combination h - hi.value * two_pow_256

theorem reduceLoop_cast (hi lo : Limbs 4) :
    ((reduceLoop hi lo).value : Fp) = 2 ^ 256 * hi.value + lo.value := by
  induction hi, lo using reduceLoop.induct with
  | case1 hi lo r hzero =>
      have hround := mul38Add_cast hi lo
      rw [hzero, UInt64.toNat_zero, Nat.cast_zero, mul_zero, zero_add] at hround
      rw [reduceLoop, if_pos hzero, hround]
  | case2 hi lo r hover ih =>
      rw [Limbs.single_value] at ih
      rw [reduceLoop, if_neg hover, ih, mul38Add_cast]

theorem reduce512_cast (w : Limbs 8) : ((reduce512 w).value : Fp) = w.value := by
  rw [reduce512, condSubP_cast, condSubP_cast, reduceLoop_cast, w.value_eight, Nat.cast_add,
    Nat.cast_mul, Nat.cast_pow, add_comm]
  rfl

/-- Two subtractions are enough. -/
theorem reduce512_lt (w : Limbs 8) : (reduce512 w).value < p := by
  rw [reduce512]
  generalize reduceLoop _ _ = v
  have hv := v.value_lt_256
  have hfirst := condSubP_value v
  have hsecond := condSubP_value (condSubP v)
  have hp := p_eq
  split at hfirst <;> split at hsecond <;> omega

/-- The reduction is the residue. -/
theorem reduce512_value (w : Limbs 8) : (reduce512 w).value = w.value % p := by
  have hres := (ZMod.natCast_eq_natCast_iff' _ _ _).mp (reduce512_cast w)
  rwa [Nat.mod_eq_of_lt (reduce512_lt w)] at hres

/-! ## Elements as residues -/

namespace Fe

variable {a b : Fe} {x y : Fp}

abbrev value (a : Fe) : Nat := a.limbs.value

/-- The limbs are those of the least residue. -/
def Denotes (a : Fe) (x : Fp) : Prop := a.value = x.val

theorem value_inj (h : a.value = b.value) : a = b := by
  cases a
  cases b
  exact congrArg Fe.mk (Limbs.value_inj h)

theorem Denotes.unique (ha : a.Denotes x) (hb : b.Denotes x) : a = b :=
  value_inj (ha.trans hb.symm)

theorem Denotes.lt (ha : a.Denotes x) : a.value < p := ha ▸ x.val_lt

theorem denotes_of_lt (hlt : a.value < p) (h : (a.value : Fp) = x) : a.Denotes x := by
  rw [Denotes, ← h, ZMod.val_natCast_of_lt hlt]

theorem Denotes.cast (ha : a.Denotes x) : (a.value : Fp) = x := by
  rw [ha, ZMod.natCast_zmod_val]

theorem denotes_iff (ha : a.Denotes x) (hb : b.Denotes y) : a = b ↔ x = y := by
  constructor
  · rintro rfl
    rw [← ha.cast, hb.cast]
  · rintro rfl
    exact ha.unique hb

theorem canonical_value (a : Fe) :
    a.canonical.value = if a.value < p then a.value else a.value - p := by
  have hsub := subLimbs_value a.limbs P
  have ha := a.limbs.value_lt_256
  have hr := (subLimbs a.limbs P).1.value_lt_256
  rw [P_value] at hsub
  simp only [canonical, value]
  split
  next hzero =>
    rw [hzero, UInt64.toNat_zero] at hsub
    rw [if_neg (by omega)]
    show (subLimbs a.limbs P).1.value = a.limbs.value - p
    omega
  next hborrow =>
    have hne : (subLimbs a.limbs P).2.toNat ≠ 0 := fun h => hborrow (UInt64.toNat_inj.mp h)
    rw [if_pos (by omega)]

theorem canonical_of_lt (h : a.value < p) : a.canonical = a :=
  value_inj (by rw [canonical_value, if_pos h])

theorem zero_denotes : zero.Denotes 0 := by
  rw [Denotes, ZMod.val_zero]
  decide

theorem one_denotes : one.Denotes 1 := by
  rw [Denotes, ZMod.val_one]
  decide

theorem canonical_eq_zero_iff (ha : a.Denotes x) : a.canonical = zero ↔ x = 0 := by
  rw [canonical_of_lt ha.lt]
  exact denotes_iff ha zero_denotes

theorem fromU64_denotes (n : UInt64) : (fromU64 n).Denotes (n.toNat : Fp) := by
  have hvalue : (fromU64 n).value = n.toNat := Limbs.single_value n
  have hn := n.toNat_lt
  exact denotes_of_lt (by rw [hvalue, p_eq]; omega) (by rw [hvalue])

theorem add_denotes (ha : a.Denotes x) (hb : b.Denotes y) : (a.add b).Denotes (x + y) := by
  have hsum := addLimbs_value a.limbs b.limbs
  have hlta := ha.lt
  have hltb := hb.lt
  rw [p_eq] at hlta hltb
  have hcarry : (addLimbs a.limbs b.limbs).2 = 0 := UInt64.toNat_inj.mp (by
    simp only [value] at hlta hltb
    rw [UInt64.toNat_zero]
    omega)
  rw [hcarry, UInt64.toNat_zero] at hsum
  have hadd : a.add b = canonical ⟨(addLimbs a.limbs b.limbs).1⟩ := by
    simp only [add, hcarry, ne_eq, not_true_eq_false, if_false]
  have hvalue : value ⟨(addLimbs a.limbs b.limbs).1⟩ = a.value + b.value := hsum
  rw [Denotes, ZMod.val_add, ← ha, ← hb, hadd, canonical_value, hvalue]
  split
  next hlt => rw [Nat.mod_eq_of_lt hlt]
  next hge => rw [Nat.mod_eq_sub_mod (by omega), Nat.mod_eq_of_lt (by rw [p_eq]; omega)]

theorem sub_denotes (ha : a.Denotes x) (hb : b.Denotes y) : (a.sub b).Denotes (x - y) := by
  have hdiff := subLimbs_value a.limbs b.limbs
  have hlta := ha.lt
  have hltb := hb.lt
  have hr := (subLimbs a.limbs b.limbs).1.value_lt_256
  have hback := addLimbs_value (subLimbs a.limbs b.limbs).1 P
  have hlt := (addLimbs (subLimbs a.limbs b.limbs).1 P).1.value_lt_256
  rw [P_value] at hback
  -- Either nothing was borrowed, or the order is added back and its carry dropped.
  have hvalue : (a.sub b).value = if b.value ≤ a.value then a.value - b.value
      else a.value + p - b.value := by
    have hp := p_eq
    simp only [value, sub] at *
    split
    next hborrow =>
      have hne : (subLimbs a.limbs b.limbs).2.toNat ≠ 0 := fun h => hborrow (UInt64.toNat_inj.mp h)
      rw [if_neg (by omega)]
      omega
    next hzero =>
      rw [not_not.mp hzero, UInt64.toNat_zero] at hdiff
      rw [if_pos (by omega)]
      omega
  apply denotes_of_lt
  · rw [hvalue]
    split <;> omega
  · rw [hvalue]
    split
    next hle => rw [Nat.cast_sub hle, ha.cast, hb.cast]
    next hgt =>
      rw [Nat.cast_sub (by omega), Nat.cast_add, ZMod.natCast_self, add_zero, ha.cast, hb.cast]

/-- Multiplication reduces, whatever limbs it is given. -/
theorem mul_denotes_cast (a b : Fe) : (a.mul b).Denotes (a.value * b.value : Fp) := by
  have hlt := reduce512_lt (mulWide a.limbs b.limbs)
  have hcast := reduce512_cast (mulWide a.limbs b.limbs)
  rw [mulWide_value, Nat.cast_mul] at hcast
  have hmul : a.mul b = ⟨reduce512 (mulWide a.limbs b.limbs)⟩ := canonical_of_lt hlt
  rw [hmul]
  exact denotes_of_lt hlt hcast

theorem mul_denotes (ha : a.Denotes x) (hb : b.Denotes y) : (a.mul b).Denotes (x * y) := by
  rw [← ha.cast, ← hb.cast]
  exact mul_denotes_cast a b

theorem sq_denotes (ha : a.Denotes x) : a.sq.Denotes (x * x) := mul_denotes ha ha

theorem neg_denotes (ha : a.Denotes x) : a.neg.Denotes (-x) := by
  rw [← zero_sub]
  exact sub_denotes zero_denotes ha

theorem pow_denotes (ha : a.Denotes x) (exp : Limbs 4) : (a.pow exp).Denotes (x ^ exp.value) := by
  have hbits : exp.value = ofBits (bitsDown 64 (exp.toList.map UInt64.toNat)) :=
    (ofBits_bitsDown (by decide) toNat_mem_lt).symm
  rw [hbits]
  refine foldl_bits (R := fun (r : Fe) n => r.Denotes (x ^ n)) ?_ ?_ _
  · intro r n bit hr
    have hsq := sq_denotes hr
    rw [← pow_add, ← two_mul] at hsq
    cases bit with
    | false => exact hsq
    | true => exact pow_succ x (2 * n) ▸ mul_denotes hsq ha
  · rw [pow_zero]
    exact one_denotes

theorem invert_denotes (ha : a.Denotes x) : a.invert.Denotes x⁻¹ := by
  have hpow := pow_denotes ha
    (Limbs.four 0xffffffffffffffeb 0xffffffffffffffff 0xffffffffffffffff 0x7fffffffffffffff)
  have hexp : (Limbs.four 0xffffffffffffffeb 0xffffffffffffffff 0xffffffffffffffff
      0x7fffffffffffffff).value = p - 2 := by decide
  rw [hexp] at hpow
  have hinv : x ^ (p - 2) = x⁻¹ := by
    by_cases hx : x = 0
    · rw [hx, inv_zero, zero_pow (by decide)]
    · apply eq_inv_of_mul_eq_one_left
      rw [← pow_succ]
      exact ZMod.pow_card_sub_one_eq_one hx
  exact hinv ▸ hpow

/-! ### Signs and bytes -/

theorem isNegative_iff (ha : a.Denotes x) : a.isNegative = true ↔ x.val % 2 = 1 := by
  have hvalue : a.value = (a.limbs.get 0).toNat + 2 ^ 64 * _ :=
    (congrArg Limbs.value a.limbs.four_get).symm.trans (Limbs.four_value _ _ _ _)
  have hbit : (a.limbs.get 0 &&& 1).toNat = (a.limbs.get 0).toNat % 2 := by
    rw [UInt64.toNat_and]
    exact Nat.and_one_is_mod _
  rw [isNegative, canonical_of_lt ha.lt, beq_iff_eq, ← UInt64.toNat_inj, hbit, ← ha]
  show _ = 1 ↔ _
  omega

theorem toBytes_value (ha : a.Denotes x) : bytesValue a.toBytes.toList = x.val := by
  rw [toBytes, limbsToLe_value, canonical_of_lt ha.lt]
  exact ha

theorem fromBytes_value (b : List.Vector UInt8 32) :
    (fromBytes b).value = bytesValue b.toList % 2 ^ 255 := by
  have hbytes := leToLimbs_value b
  rw [← (leToLimbs b).four_get, Limbs.four_value] at hbytes
  have hmask : ((leToLimbs b).get 3 &&& 0x7fffffffffffffff).toNat =
      ((leToLimbs b).get 3).toNat % 2 ^ 63 := by
    rw [UInt64.toNat_and]
    exact Nat.and_two_pow_sub_one_eq_mod _ 63
  have h₀ := ((leToLimbs b).get 0).toNat_lt
  have h₁ := ((leToLimbs b).get 1).toNat_lt
  have h₂ := ((leToLimbs b).get 2).toNat_lt
  rw [value, fromBytes, Limbs.four_value, hmask, ← hbytes]
  omega

end Fe

end GaussMatrix.Util.Curve25519
