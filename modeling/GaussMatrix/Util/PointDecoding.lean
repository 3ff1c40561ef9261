import GaussMatrix.Util.ValidPoints
import Mathlib.NumberTheory.LegendreSymbol.Basic

/-!
# Bytes that decode to points

`decode` takes `y` from the low 255 bits as they are, so the nineteen numbers from the order of the
field on are read as limbs that are not reduced. Whether one of them decodes depends on its residue
being the `y` of a point of the curve.
-/

namespace GaussMatrix.Util.Curve25519

open Library

/-! ## Square roots -/

theorem quotient_of_neg {F : Type*} [Field F] (E : EdwardsCurve F) {w y c : F}
    (h : y * (c * c) + w = 0) : w = y * (c * E.i * (c * E.i)) := by
  linear_combination h - y * (c * c) * E.i_sq

/-- What the checks let through of a candidate is a root. -/
theorem root_of_candidate {u v x r : Fe} {w y c : Fp} (hu : u.Denotes w) (hv : v.Denotes y)
    (hx : x.Denotes c)
    (h : (if ((v.mul x.sq).sub u).canonical = Fe.zero then some x
      else if ((v.mul x.sq).add u).canonical = Fe.zero then some (x.mul sqrtM1) else none) =
        some r) : ∃ s, r.Denotes s ∧ w = y * (s * s) := by
  have hvx := Fe.mul_denotes hv (Fe.sq_denotes hx)
  have hsub := Fe.canonical_eq_zero_iff (Fe.sub_denotes hvx hu)
  have hadd := Fe.canonical_eq_zero_iff (Fe.add_denotes hvx hu)
  by_cases hzero : y * (c * c) - w = 0
  · rw [if_pos (hsub.mpr hzero)] at h
    obtain rfl := Option.some.inj h
    exact ⟨c, hx, (sub_eq_zero.mp hzero).symm⟩
  · rw [if_neg (mt hsub.mp hzero)] at h
    by_cases hsum : y * (c * c) + w = 0
    · rw [if_pos (hadd.mpr hsum)] at h
      obtain rfl := Option.some.inj h
      exact ⟨_, Fe.mul_denotes hx sqrtM1_denotes, quotient_of_neg edwards25519 hsum⟩
    · rw [if_neg (mt hadd.mp hsum)] at h
      cases h

/-- A root that is returned is one. -/
theorem sqrtRatio_sound {u v x : Fe} {w y : Fp} (hu : u.Denotes w) (hv : v.Denotes y)
    (h : sqrtRatio u v = some x) : ∃ s, x.Denotes s ∧ w = y * (s * s) := by
  rw [sqrtRatio] at h
  exact root_of_candidate hu hv (Fe.mul_denotes_cast _ _) h

/-! ## What decodes -/

variable {b : List.Vector UInt8 32} {Q : Point}

/-- The number the bytes give for `y`, and its sign. -/
def yNumber (b : List.Vector UInt8 32) : Nat := bytesValue b.toList % 2 ^ 255

def signBit (b : List.Vector UInt8 32) : Bool := decide (2 ^ 255 ≤ bytesValue b.toList)

/-- Numerator and denominator are reduced though `y` may not be. -/
theorem numerator_denotes (b : List.Vector UInt8 32) :
    ((Fe.fromBytes b).sq.sub Fe.one).Denotes ((yNumber b : Fp) * yNumber b - 1) := by
  have hy := Fe.mul_denotes_cast (Fe.fromBytes b) (Fe.fromBytes b)
  rw [Fe.fromBytes_value] at hy
  exact Fe.sub_denotes hy Fe.one_denotes

theorem denominator_denotes (b : List.Vector UInt8 32) :
    ((dConst.mul (Fe.fromBytes b).sq).add Fe.one).Denotes
      (edwards25519.d * ((yNumber b : Fp) * yNumber b) + 1) := by
  have hy := Fe.mul_denotes_cast (Fe.fromBytes b) (Fe.fromBytes b)
  rw [Fe.fromBytes_value] at hy
  exact Fe.add_denotes (Fe.mul_denotes dConst_denotes hy) Fe.one_denotes

/-- The root with the sign asked for: a root of the same square, of that sign unless it is zero. -/
theorem signed_of_root {x : Fe} {s : Fp} (hx : x.Denotes s) (sign : Bool) :
    ∃ v, (if x.isNegative ≠ sign then x.neg else x).Denotes v ∧ v * v = s * s ∧
      (v ≠ 0 → decide (v.val % 2 = 1) = sign) := by
  have hneg : x.isNegative = decide (s.val % 2 = 1) := by
    rw [Bool.eq_iff_iff, Fe.isNegative_iff hx, decide_eq_true_iff]
  by_cases hsign : x.isNegative = sign
  · rw [if_neg (not_not.mpr hsign)]
    exact ⟨s, hx, rfl, fun _ => hneg.symm.trans hsign⟩
  · rw [if_pos hsign]
    refine ⟨-s, Fe.neg_denotes hx, neg_mul_neg s s, fun hne => ?_⟩
    have hodd := neg_odd_iff (neg_ne_zero.mp hne)
    rw [hneg] at hsign
    cases sign <;> simp_all

theorem decode_of_signed {x xv : Fe}
    (hroot : sqrtRatio ((Fe.fromBytes b).sq.sub Fe.one)
      ((dConst.mul (Fe.fromBytes b).sq).add Fe.one) = some x)
    (hxv : (if x.isNegative ≠ signBit b then x.neg else x) = xv) :
    decode b = if xv = Fe.zero ∧ signBit b then none
      else some ⟨xv, Fe.fromBytes b, Fe.one, xv.mul (Fe.fromBytes b)⟩ := by
  subst hxv
  exact decode_of_root (sign_iff b) hroot

/-- A point that is decoded lies on the curve, at the residue of the number read. -/
theorem decode_sound (h : decode b = some Q) :
    ∃ A : edwards25519.Point, A.y = yNumber b ∧ (A.x = 0 → signBit b = false) ∧
      decide (A.x.val % 2 = 1) = signBit b ∧ Q.x.Denotes A.x ∧
      Q = ⟨Q.x, Fe.fromBytes b, Fe.one, Q.x.mul (Fe.fromBytes b)⟩ := by
  cases hroot : sqrtRatio ((Fe.fromBytes b).sq.sub Fe.one)
      ((dConst.mul (Fe.fromBytes b).sq).add Fe.one) with
  | none =>
      rw [decode, hroot] at h
      cases h
  | some x =>
      obtain ⟨s, hx, hs⟩ := sqrtRatio_sound (numerator_denotes b) (denominator_denotes b) hroot
      obtain ⟨v, hv, hvs, hodd⟩ := signed_of_root hx (signBit b)
      generalize hxv : (if x.isNegative ≠ signBit b then x.neg else x) = xv at hv
      rw [decode_of_signed hroot hxv] at h
      split at h
      · cases h
      next hnot =>
        obtain rfl := Option.some.inj h
        have hzero : v = 0 → signBit b = false := by
          intro hv0
          by_contra hsign
          exact hnot ⟨(Fe.denotes_iff hv Fe.zero_denotes).mpr hv0, Bool.eq_true_of_not_eq_false hsign⟩
        refine ⟨⟨v, yNumber b, ?_⟩, rfl, hzero, ?_, hv, rfl⟩
        · linear_combination hs - (edwards25519.d * ((yNumber b : Fp) * yNumber b) + 1) * hvs
        · show decide (v.val % 2 = 1) = signBit b
          by_cases hv0 : v = 0
          · rw [hv0, hzero hv0, ZMod.val_zero]
            rfl
          · exact hodd hv0

/-- What is at the residue of a point of the curve decodes, but for zero with the sign set. -/
theorem decode_complete {A : edwards25519.Point} (hA : A.y = yNumber b)
    (hsign : A.x = 0 → signBit b = false) : ∃ Q, decode b = some Q := by
  have hnum := numerator_denotes b
  have hden := denominator_denotes b
  rw [← hA] at hnum hden
  obtain ⟨x, s, hroot, hx, hs⟩ :=
    sqrtRatio_denotes hnum hden (edwards25519.recover_ne A.y) A.recover
  obtain ⟨v, hv, hvs, -⟩ := signed_of_root hx (signBit b)
  rw [decode_of_signed hroot rfl, if_neg]
  · exact ⟨_, rfl⟩
  · rintro ⟨hzero, hset⟩
    have hv0 : v = 0 := (Fe.denotes_iff hv Fe.zero_denotes).mp hzero
    rw [hv0, hs, mul_zero, zero_eq_mul_self] at hvs
    rw [hsign hvs] at hset
    cases hset

/-- With a reduced `y` the decoded point is valid and its bytes are those it was decoded from. -/
theorem decode_reduced (h : decode b = some Q) (hy : yNumber b < p) : Q.Valid ∧ Q.encode = b := by
  obtain ⟨A, hAy, -, hodd, hx, hQ⟩ := decode_sound h
  have hyDenotes : (Fe.fromBytes b).Denotes A.y :=
    Fe.denotes_of_lt (by rw [Fe.fromBytes_value]; exact hy)
      (by rw [Fe.fromBytes_value, hAy, yNumber])
  have hrep : Q.Represents A := by
    rw [hQ]
    exact ⟨⟨A.x, A.y, 1, A.x * A.y⟩, ⟨hx, hyDenotes, Fe.one_denotes, Fe.mul_denotes hx hyDenotes⟩,
      one_ne_zero, (mul_one _).symm, (mul_one _).symm, (mul_one _).symm⟩
  refine ⟨hrep.valid.1, Subtype.ext (bytesValue_inj ?_ ?_)⟩
  · exact Q.encode.2.trans b.2.symm
  · have hval : A.y.val = yNumber b := by rw [hAy, ZMod.val_natCast_of_lt hy]
    have hbytes := bytesValue_lt b.toList
    rw [b.toList_length] at hbytes
    rw [Point.encode_eq hrep, hodd]
    refine (encodeY_value (Point.toAffine_denotes hrep).2 _).trans ?_
    rw [hval, yNumber]
    show _ = bytesValue b.toList
    simp only [signBit, decide_eq_true_eq]
    split <;> omega

/-! ## The numbers that are not reduced -/

theorem natCast_order_pred : ((p - 1 : Nat) : Fp) = -1 := by
  rw [Nat.cast_sub (by decide), ZMod.natCast_self, Nat.cast_one, zero_sub]

/-- The numerator times the denominator at a residue. -/
def recoverProduct (k : Nat) : Nat := (k * k + (p - 1)) * (dNat * (k * k) + 1)

theorem recoverProduct_cast (k : Nat) :
    (recoverProduct k : Fp) = ((k : Fp) * k - 1) * (edwards25519.d * ((k : Fp) * k) + 1) := by
  rw [recoverProduct, edwards25519_d]
  push_cast
  rw [natCast_order_pred]
  ring

/-- A residue is the `y` of a point if its product is a square. -/
theorem exists_y_iff_isSquare (k : Nat) :
    (∃ A : edwards25519.Point, A.y = k) ↔ IsSquare (recoverProduct k : Fp) := by
  have hden := edwards25519.recover_ne (k : Fp)
  rw [recoverProduct_cast]
  constructor
  · rintro ⟨A, hA⟩
    have hrecover := A.recover
    rw [hA] at hrecover
    refine ⟨(edwards25519.d * ((k : Fp) * k) + 1) * A.x, ?_⟩
    rw [hrecover]
    ring
  · rintro ⟨r, hr⟩
    generalize hm : edwards25519.d * ((k : Fp) * k) + 1 = m at hden hr
    have hroot : (k : Fp) * k - 1 = r / m * (r / m) * m := by
      apply mul_right_cancel₀ hden
      rw [hr]
      field_simp
    refine ⟨⟨r / m, k, ?_⟩, rfl⟩
    linear_combination hroot - (r / m) ^ 2 * hm

/-- Squares are told by their power to half the units. -/
theorem isSquare_iff_powMod (n : Nat) :
    IsSquare (n : Fp) ↔ powMod 256 p n (p / 2) ≠ p - 1 := by
  have hpow := natCast_pow_eq (p := p) (show p / 2 < 2 ^ 256 by decide) n
  have hone : ¬((1 : Nat) : Fp) = ((p - 1 : Nat) : Fp) := by
    rw [ZMod.natCast_eq_natCast_iff']
    decide
  have hzero : ¬((0 : Nat) : Fp) = ((p - 1 : Nat) : Fp) := by
    rw [ZMod.natCast_eq_natCast_iff']
    decide
  constructor
  · rintro hsquare hval
    rw [hval] at hpow
    by_cases hn : (n : Fp) = 0
    · rw [hn, zero_pow (by decide), ← Nat.cast_zero] at hpow
      exact hzero hpow
    · rw [(ZMod.euler_criterion p hn).mp hsquare, ← Nat.cast_one] at hpow
      exact hone hpow
  · intro hval
    by_cases hn : (n : Fp) = 0
    · exact ⟨0, by rw [hn, mul_zero]⟩
    · refine (ZMod.euler_criterion p hn).mpr ((ZMod.pow_div_two_eq_neg_one_or_one p hn).resolve_right ?_)
      intro hneg
      have hlt : powMod 256 p n (p / 2) < p := by
        rw [powMod_eq (show p / 2 < 2 ^ 256 by decide)]
        exact Nat.mod_lt _ (by decide)
      rw [hneg, ← natCast_order_pred, ZMod.natCast_eq_natCast_iff', Nat.mod_eq_of_lt (by decide),
        Nat.mod_eq_of_lt hlt] at hpow
      exact hval hpow.symm

/-- The residues below nineteen that are no point's `y`. -/
def noPoint : List Nat := [2, 7, 8, 11, 12, 13, 17]

theorem exists_y_iff {k : Nat} (hk : k < 19) :
    (∃ A : edwards25519.Point, A.y = k) ↔ k ∉ noPoint := by
  have hall : ∀ k < 19, powMod 256 p (recoverProduct k) (p / 2) ≠ p - 1 ↔ k ∉ noPoint := by
    decide +kernel
  rw [exists_y_iff_isSquare, isSquare_iff_powMod]
  exact hall k hk

/-- Below nineteen, only one is the `y` of the points with `x = 0`. -/
theorem x_eq_zero_iff {A : edwards25519.Point} {k : Nat} (hA : A.y = k) (hk : k < 19) :
    A.x = 0 ↔ k = 1 := by
  have hrecover := A.recover
  rw [hA] at hrecover
  constructor
  · intro hx
    rw [hx, mul_zero, mul_zero, sub_eq_zero, ← Nat.cast_mul, ← Nat.cast_one,
      ZMod.natCast_eq_natCast_iff'] at hrecover
    have hp := p_eq
    have hsq : k * k ≤ 18 * 18 := Nat.mul_le_mul (by omega) (by omega)
    rw [Nat.mod_eq_of_lt (by omega), Nat.mod_eq_of_lt (by omega)] at hrecover
    exact Nat.eq_one_of_mul_eq_one_left hrecover
  · rintro rfl
    have hne := edwards25519.recover_ne ((1 : Nat) : Fp)
    rw [Nat.cast_one, mul_one, sub_self, zero_eq_mul, ← Nat.cast_one] at hrecover
    exact mul_self_eq_zero.mp (hrecover.resolve_left (by simpa using hne))

/-- Which of the numbers from the order on decode. -/
theorem decode_beyond_iff {k : Nat} (hk : k < 19) (hy : yNumber b = p + k) :
    (∃ Q, decode b = some Q) ↔ k ∉ noPoint ∧ (k = 1 → signBit b = false) := by
  have hcast : (yNumber b : Fp) = k := by rw [hy, Nat.cast_add, ZMod.natCast_self, zero_add]
  constructor
  · rintro ⟨Q, hQ⟩
    obtain ⟨A, hA, hsign, -⟩ := decode_sound hQ
    rw [hcast] at hA
    exact ⟨(exists_y_iff hk).mp ⟨A, hA⟩, fun hone => hsign ((x_eq_zero_iff hA hk).mpr hone)⟩
  · rintro ⟨hpoint, hsign⟩
    obtain ⟨A, hA⟩ := (exists_y_iff hk).mpr hpoint
    exact decode_complete (hA.trans hcast.symm) fun hx => hsign ((x_eq_zero_iff hA hk).mp hx)

/-- The bytes have a reduced `y`, or one that is beyond the order by a residue of no point, or by one
with the sign set. -/
def Canonical (b : List.Vector UInt8 32) : Prop :=
  yNumber b < p ∨ yNumber b - p ∈ noPoint ∨ yNumber b = p + 1 ∧ signBit b = true

/-- What is decoded, if anything, is a valid point with these bytes exactly when the bytes are
canonical: the other numbers from the order on decode to a `y` that is not reduced. -/
theorem decode_canonical_iff (b : List.Vector UInt8 32) :
    (∀ Q, decode b = some Q → Q.Valid ∧ Q.encode = b) ↔ Canonical b := by
  by_cases hy : yNumber b < p
  · exact iff_of_true (fun Q hQ => decode_reduced hQ hy) (.inl hy)
  · have hp := p_eq
    have hlt : yNumber b < 2 ^ 255 := Nat.mod_lt _ (by decide)
    obtain ⟨k, hk⟩ : ∃ k, yNumber b = p + k := ⟨yNumber b - p, by omega⟩
    have hdecodes := decode_beyond_iff (by omega) hk
    -- a point that is decoded has the number itself as its `y`
    have hnone : (∀ Q, decode b = some Q → Q.Valid ∧ Q.encode = b) ↔ ¬∃ Q, decode b = some Q := by
      refine ⟨fun h ⟨Q, hQ⟩ => ?_, fun h Q hQ => absurd ⟨Q, hQ⟩ h⟩
      obtain ⟨A, -, -, -, -, hform⟩ := decode_sound hQ
      have hreduced := (h Q hQ).1.y_lt
      rw [hform, Fe.fromBytes_value] at hreduced
      exact hy hreduced
    rw [hnone, hdecodes, Canonical, hk, Nat.add_sub_cancel_left, not_and_or, not_not,
      Classical.not_imp, Bool.not_eq_false, or_iff_right (show ¬p + k < p by omega),
      Nat.add_left_cancel_iff]

/-- The order plus one decodes: its point is the neutral element with a `y` that is not reduced. -/
theorem decode_order_succ : ¬∀ (b : List.Vector UInt8 32) (Q : Point), decode b = some Q →
    Q.Valid ∧ Q.encode = b := by
  intro h
  let bytes : List.Vector UInt8 32 := ((List.Vector.replicate 32 255).set 0 238).set 31 127
  have hy : yNumber bytes = p + 1 := by decide
  obtain ⟨Q, hQ⟩ := (decode_beyond_iff (b := bytes) (by decide) hy).mpr ⟨by decide, fun _ => by decide⟩
  obtain ⟨A, -, -, -, -, hform⟩ := decode_sound hQ
  have hreduced := (h bytes Q hQ).1.y_lt
  rw [hform, Fe.fromBytes_value] at hreduced
  exact absurd hreduced (by decide)

end GaussMatrix.Util.Curve25519
