import GaussMatrix.Util.Field25519
import GaussMatrix.Library.Edwards

/-!
# The group of the curve

The points of the signature code, in extended coordinates over the limbs of a field element, as
points of a complete Edwards curve: addition, multiples, and the 32 bytes of a point.
-/

namespace GaussMatrix.Util.Curve25519

open Library

/-! ## The code -/

/-- `-121665 / 121666`. -/
def dConst : Fe := (Fe.fromU64 121665).neg.mul (Fe.fromU64 121666).invert

/-- The power `(p - 1) / 4` of two. -/
def sqrtM1 : Fe :=
  (Fe.fromU64 2).pow
    (Limbs.four 0xfffffffffffffffb 0xffffffffffffffff 0xffffffffffffffff 0x1fffffffffffffff)

/-- A square root of `u / v`, from a candidate that is right up to a square root of `-1`. -/
def sqrtRatio (u v : Fe) : Option Fe :=
  let v3 := v.sq.mul v
  let v7 := v3.sq.mul v
  let exp := Limbs.four 0xfffffffffffffffd 0xffffffffffffffff 0xffffffffffffffff 0x0fffffffffffffff
  let x := (((u.mul v7).pow exp).mul u).mul v3
  let vx2 := v.mul x.sq
  if (vx2.sub u).canonical = Fe.zero then some x
  else if (vx2.add u).canonical = Fe.zero then some (x.mul sqrtM1)
  else none

structure Point where
  x : Fe
  y : Fe
  z : Fe
  t : Fe

/-- The bytes of `y`, with the sign of `x` in the top bit. -/
def encodeY (y : Fe) (xNegative : Bool) : List.Vector UInt8 32 :=
  let out := y.toBytes
  if xNegative then out.set 31 (out.get 31 ||| 0x80) else out

/-- The point of 32 bytes, unless they are of none. -/
def decode (b : List.Vector UInt8 32) : Option Point :=
  let sign := (b.get 31 >>> 7) &&& 1 == 1
  let y := Fe.fromBytes b
  -- x² = (y² - 1) / (d y² + 1)
  let y2 := y.sq
  let num := y2.sub Fe.one
  let den := (dConst.mul y2).add Fe.one
  (sqrtRatio num den).bind fun x =>
    let x := if x.isNegative ≠ sign then x.neg else x
    -- Zero with the sign set is rejected.
    if x = Fe.zero ∧ sign then none else some ⟨x, y, Fe.one, x.mul y⟩

namespace Point

def identity : Point := ⟨Fe.zero, Fe.one, Fe.one, Fe.zero⟩

def add (P Q : Point) : Point :=
  let a := (P.x.sub P.y).mul (Q.x.sub Q.y)
  let b := (P.x.add P.y).mul (Q.x.add Q.y)
  let c := ((P.t.mul Q.t).mul dConst).mul (Fe.fromU64 2)
  let dd := (P.z.mul Q.z).mul (Fe.fromU64 2)
  let e := b.sub a
  let f := dd.sub c
  let g := dd.add c
  let h := b.add a
  ⟨e.mul f, g.mul h, f.mul g, e.mul h⟩

def double (P : Point) : Point := P.add P

/-- Double and add over the 256 bits of the scalar, from the top. -/
def scalarMul (P : Point) (scalar : List.Vector UInt8 32) : Point :=
  (bitsDown 8 (scalar.toList.map UInt8.toNat)).foldl
    (fun r bit => if bit then r.double.add P else r.double) identity

def toAffine (P : Point) : Fe × Fe :=
  let zinv := P.z.invert
  (P.x.mul zinv, P.y.mul zinv)

def encode (P : Point) : List.Vector UInt8 32 :=
  let a := P.toAffine
  encodeY a.2 a.1.isNegative

end Point

/-! ## The curve -/

/-- The parameter of the curve, as a number. -/
def dNat : Nat := 37095705934669439343138083508754565189542113879843219016388785533085940283555

theorem natCast_eq_of_mod {m n : Nat} (h : m % p = n % p) : (m : Fp) = n :=
  (ZMod.natCast_eq_natCast_iff' _ _ _).mpr h

theorem two_pow_half : (2 : Fp) ^ ((p - 1) / 2) = -1 := by
  have hpow := natCast_pow_eq (p := p) (show (p - 1) / 2 < 2 ^ 256 by decide) 2
  have hval : powMod 256 p 2 ((p - 1) / 2) + 1 = p := by decide +kernel
  have hcast := congrArg (Nat.cast : Nat → Fp) hval
  rw [Nat.cast_add, Nat.cast_one, ZMod.natCast_self] at hcast
  rw [Nat.cast_two] at hpow
  rw [hpow]
  linear_combination hcast

/-- The parameter is no square, by its power to half the number of units. -/
theorem dNat_not_square (r : Fp) : r * r ≠ (dNat : Fp) := by
  intro h
  have hpow := natCast_pow_eq (p := p) (show (p - 1) / 2 < 2 ^ 256 by decide) dNat
  rw [← h, ← sq, ← pow_mul, Nat.mul_div_cancel' (by decide)] at hpow
  have hval : powMod 256 p dNat ((p - 1) / 2) = p - 1 := by decide +kernel
  rw [hval] at hpow
  by_cases hr : r = 0
  · rw [hr, mul_zero, ← Nat.cast_zero] at h
    exact absurd ((ZMod.natCast_eq_natCast_iff' _ _ _).mp h) (by decide)
  · rw [ZMod.pow_card_sub_one_eq_one hr, ← Nat.cast_one] at hpow
    exact absurd ((ZMod.natCast_eq_natCast_iff' _ _ _).mp hpow) (by decide)

-- Named, so that the numeral of the curve is one term whatever else is imported.
instance atLeastTwo_two : Nat.AtLeastTwo 2 := ⟨le_rfl⟩

theorem root_of_neg_one : (2 : Fp) ^ ((p - 1) / 4) * 2 ^ ((p - 1) / 4) = -1 := by
  rw [← pow_add, ← two_pow_half]
  congr 1

theorem fp_two_ne_zero : (2 : Fp) ≠ 0 := by
  intro h
  have hcast : ((2 : Nat) : Fp) = ((0 : Nat) : Fp) := by rw [Nat.cast_two, h, Nat.cast_zero]
  exact absurd ((ZMod.natCast_eq_natCast_iff' _ _ _).mp hcast) (by decide)

@[irreducible] def edwards25519 : EdwardsCurve Fp where
  d := (dNat : Fp)
  i := 2 ^ ((p - 1) / 4)
  i_sq := root_of_neg_one
  not_square := dNat_not_square
  two_ne_zero := fp_two_ne_zero

theorem edwards25519_d : edwards25519.d = (dNat : Fp) := by rw [edwards25519]

theorem edwards25519_i : edwards25519.i = 2 ^ ((p - 1) / 4) := by rw [edwards25519]

/-! ## Square roots -/

theorem dConst_denotes : dConst.Denotes edwards25519.d := by
  have h := Fe.mul_denotes (Fe.neg_denotes (Fe.fromU64_denotes 121665))
    (Fe.invert_denotes (Fe.fromU64_denotes 121666))
  have hne : (((121666 : UInt64).toNat : Nat) : Fp) ≠ 0 := by
    rw [← Nat.cast_zero, Ne, ZMod.natCast_eq_natCast_iff']
    decide
  have hmul : ((dNat * (121666 : UInt64).toNat + (121665 : UInt64).toNat : Nat) : Fp) =
      ((0 : Nat) : Fp) := natCast_eq_of_mod (by decide)
  rw [Nat.cast_add, Nat.cast_mul, Nat.cast_zero] at hmul
  have hd : edwards25519.d =
      -((121665 : UInt64).toNat : Fp) * ((121666 : UInt64).toNat : Fp)⁻¹ := by
    rw [eq_mul_inv_iff_mul_eq₀ hne, edwards25519_d]
    exact eq_neg_of_add_eq_zero_left hmul
  rw [hd]
  exact h

theorem sqrtM1_denotes : sqrtM1.Denotes edwards25519.i := by
  have h := Fe.pow_denotes (Fe.fromU64_denotes 2)
    (Limbs.four 0xfffffffffffffffb 0xffffffffffffffff 0xffffffffffffffff 0x1fffffffffffffff)
  have hexp : (Limbs.four 0xfffffffffffffffb 0xffffffffffffffff 0xffffffffffffffff
      0x1fffffffffffffff).value = (p - 1) / 4 := by decide
  rw [hexp] at h
  rw [edwards25519_i]
  exact h

theorem unit_pow {r : Fp} (hr : r ≠ 0) : r ^ (8 * ((p - 5) / 8) + 4) = 1 := by
  rw [show 8 * ((p - 5) / 8) + 4 = p - 1 by decide]
  exact ZMod.pow_card_sub_one_eq_one hr

/-- A quotient that has a square root gets one. -/
theorem sqrtRatio_denotes {u v : Fe} {w y r : Fp} (hu : u.Denotes w) (hv : v.Denotes y) (hy : y ≠ 0)
    (hw : w = y * (r * r)) : ∃ x s, sqrtRatio u v = some x ∧ x.Denotes s ∧ s * s = r * r := by
  have hv3 := Fe.mul_denotes (Fe.sq_denotes hv) hv
  have hv7 := Fe.mul_denotes (Fe.sq_denotes hv3) hv
  have hpow := Fe.pow_denotes (Fe.mul_denotes hu hv7)
    (Limbs.four 0xfffffffffffffffd 0xffffffffffffffff 0xffffffffffffffff 0x0fffffffffffffff)
  have hexp : (Limbs.four 0xfffffffffffffffd 0xffffffffffffffff 0xffffffffffffffff
      0x0fffffffffffffff).value = (p - 5) / 8 := by decide
  rw [hexp] at hpow
  have hx := Fe.mul_denotes (Fe.mul_denotes hpow hu) hv3
  have hroot := EdwardsCurve.root_candidate (fun r hr => unit_pow hr) hy hw
  rw [show y * y * y * (y * y * y) * y = y ^ 7 by ring, show y * y * y = y ^ 3 by ring] at hx
  generalize (w * y ^ 7) ^ ((p - 5) / 8) * w * y ^ 3 = c at hx hroot
  simp only [sqrtRatio]
  generalize Fe.mul (Fe.mul (Fe.pow _ _) u) (v.sq.mul v) = x at hx ⊢
  have hvx2 := Fe.mul_denotes hv (Fe.sq_denotes hx)
  have hsub := Fe.canonical_eq_zero_iff (Fe.sub_denotes hvx2 hu)
  have hadd := Fe.canonical_eq_zero_iff (Fe.add_denotes hvx2 hu)
  by_cases hzero : y * (c * c) - w = 0
  · rw [if_pos (hsub.mpr hzero)]
    rw [hw] at hzero
    exact ⟨x, c, rfl, hx, mul_left_cancel₀ hy (sub_eq_zero.mp hzero)⟩
  · rw [if_neg (mt hsub.mp hzero)]
    rcases hroot with h | h
    · exact absurd (by rw [h, hw, sub_self]) hzero
    · have hsum : y * (c * c) + w = 0 := by
        rw [h, hw]
        ring
      rw [if_pos (hadd.mpr hsum)]
      exact ⟨_, _, rfl, Fe.mul_denotes hx sqrtM1_denotes, edwards25519.root_of_neg h⟩

/-! ## Bytes of a point -/

theorem toNat_or_top {top : UInt8} (h : top.toNat < 128) :
    (top ||| 0x80).toNat = top.toNat + 128 := by
  rw [UInt8.toNat_or, Nat.or_comm, Nat.add_comm]
  exact (Nat.two_pow_add_eq_or_of_lt (i := 7) h 1).symm

theorem top_bit_iff (top : UInt8) : ((top >>> 7) &&& 1 == 1) = decide (128 ≤ top.toNat) := by
  have hlt := top.toNat_lt
  have hbit : ((top >>> 7) &&& 1).toNat = top.toNat / 2 ^ 7 % 2 := by
    rw [UInt8.toNat_and, UInt8.toNat_shiftRight]
    exact (Nat.and_one_is_mod _).trans (congrArg (· % 2) (Nat.shiftRight_eq_div_pow _ 7))
  rw [Bool.eq_iff_iff, beq_iff_eq, decide_eq_true_iff, ← UInt8.toNat_inj, hbit]
  show _ = 1 ↔ _
  omega

/-- The sign is the top bit of the number. -/
theorem sign_iff (b : List.Vector UInt8 32) :
    ((b.get 31 >>> 7) &&& 1 == 1) = decide (2 ^ 255 ≤ bytesValue b.toList) := by
  have hlow : bytesValue (b.toList.take 31) < 256 ^ 31 :=
    lt_of_lt_of_le (bytesValue_lt _) (Nat.pow_le_pow_right (by decide) (List.length_take_le _ _))
  rw [top_bit_iff, bytesValue_top]
  exact decide_eq_decide.mpr (by omega)

theorem encodeY_value {y : Fe} {v : Fp} (hy : y.Denotes v) (xNegative : Bool) :
    bytesValue (encodeY y xNegative).toList = v.val + if xNegative then 2 ^ 255 else 0 := by
  have hvalue := Fe.toBytes_value hy
  have hlt := v.val_lt
  have hp := p_eq
  cases xNegative with
  | false => exact hvalue
  | true =>
      rw [bytesValue_top] at hvalue
      show bytesValue (y.toBytes.set 31 _).toList = v.val + 2 ^ 255
      rw [bytesValue_set_top, toNat_or_top (by omega)]
      omega

theorem fromBytes_encodeY {y : Fe} {v : Fp} (hy : y.Denotes v) (xNegative : Bool) :
    (Fe.fromBytes (encodeY y xNegative)).Denotes v := by
  have hlt := v.val_lt
  have hp := p_eq
  rw [Fe.Denotes, Fe.fromBytes_value, encodeY_value hy]
  split <;> omega

theorem sign_encodeY {y : Fe} {v : Fp} (hy : y.Denotes v) (xNegative : Bool) :
    (((encodeY y xNegative).get 31 >>> 7) &&& 1 == 1) = xNegative := by
  have hlt := v.val_lt
  have hp := p_eq
  rw [sign_iff, encodeY_value hy]
  cases xNegative with
  | false => exact decide_eq_false (by simp only [Bool.false_eq_true, if_false]; omega)
  | true => exact decide_eq_true (by simp only [if_true]; omega)

/-- The order is odd, so a sign tells a root from its negative. -/
theorem neg_odd_iff {s : Fp} (hs : s ≠ 0) : (-s).val % 2 = 1 ↔ ¬s.val % 2 = 1 := by
  have hlt := s.val_lt
  have hp := p_eq
  rw [ZMod.neg_val, if_neg hs]
  omega

/-- The coordinates of a point as those of the curve's. -/
structure Point.Denotes (Q : Point) (C : Extended Fp) : Prop where
  x : Q.x.Denotes C.x
  y : Q.y.Denotes C.y
  z : Q.z.Denotes C.z
  t : Q.t.Denotes C.t

def Point.Represents (Q : Point) (P : edwards25519.Point) : Prop :=
  ∃ C : Extended Fp, Q.Denotes C ∧ C.Represents P

/-- The root taken for the sign is the coordinate the sign is of. -/
theorem signed_root {x : Fe} {s v : Fp} (hx : x.Denotes s) (hsq : s * s = v * v) :
    (if x.isNegative ≠ decide (v.val % 2 = 1) then x.neg else x).Denotes v := by
  have hneg : x.isNegative = decide (s.val % 2 = 1) := by
    rw [Bool.eq_iff_iff, Fe.isNegative_iff hx, decide_eq_true_iff]
  rcases mul_self_eq_mul_self_iff.mp hsq with rfl | rfl
  · rw [if_neg (not_not.mpr hneg)]
    exact hx
  · by_cases hv : v = 0
    · rw [hv, neg_zero] at hx hneg
      rw [hv, if_neg (not_not.mpr hneg)]
      exact hx
    · rw [if_pos]
      · have hback := Fe.neg_denotes hx
        rwa [neg_neg] at hback
      · rw [hneg, ne_eq, decide_eq_decide, neg_odd_iff hv]
        tauto

/-- What is left to do once there is a root. -/
theorem decode_of_root {b : List.Vector UInt8 32} {x : Fe} {sign : Bool}
    (hsign : ((b.get 31 >>> 7) &&& 1 == 1) = sign)
    (hroot : sqrtRatio ((Fe.fromBytes b).sq.sub Fe.one)
      ((dConst.mul (Fe.fromBytes b).sq).add Fe.one) = some x) :
    decode b =
      let x := if x.isNegative ≠ sign then x.neg else x
      if x = Fe.zero ∧ sign then none
      else some ⟨x, Fe.fromBytes b, Fe.one, x.mul (Fe.fromBytes b)⟩ := by
  subst hsign
  rw [decode, hroot, Option.bind_some]

/-- The bytes of a point decode to it. -/
theorem decode_encodeY {y : Fe} {P : edwards25519.Point} (hy : y.Denotes P.y) :
    ∃ Q, decode (encodeY y (decide (P.x.val % 2 = 1))) = some Q ∧ Q.Represents P := by
  have hy' := fromBytes_encodeY hy (decide (P.x.val % 2 = 1))
  have hsign := sign_encodeY hy (decide (P.x.val % 2 = 1))
  have hy2 := Fe.sq_denotes hy'
  have hnum := Fe.sub_denotes hy2 Fe.one_denotes
  have hden := Fe.add_denotes (Fe.mul_denotes dConst_denotes hy2) Fe.one_denotes
  obtain ⟨x, s, hroot, hx, hsq⟩ :=
    sqrtRatio_denotes hnum hden (edwards25519.recover_ne P.y) P.recover
  have hxv := signed_root hx hsq
  rw [decode_of_root hsign hroot]
  generalize (if x.isNegative ≠ decide (P.x.val % 2 = 1) then x.neg else x) = xv at hxv ⊢
  refine ⟨⟨xv, _, Fe.one, xv.mul _⟩, if_neg ?_, ⟨P.x, P.y, 1, P.x * P.y⟩,
    ⟨hxv, hy', Fe.one_denotes, Fe.mul_denotes hxv hy'⟩, ?_⟩
  · rintro ⟨hzero, hodd⟩
    rw [(Fe.denotes_iff hxv Fe.zero_denotes).mp hzero, ZMod.val_zero] at hodd
    exact absurd hodd (by decide)
  · exact ⟨one_ne_zero, (mul_one _).symm, (mul_one _).symm, (mul_one _).symm⟩

/-! ## The group -/

namespace Point

variable {Q R : Point} {A B : edwards25519.Point}

theorem identity_represents : identity.Represents 0 :=
  ⟨Extended.identity Fp, ⟨Fe.zero_denotes, Fe.one_denotes, Fe.one_denotes, Fe.zero_denotes⟩,
    Extended.identity_represents⟩

theorem add_denotes {C D : Extended Fp} (hQ : Q.Denotes C) (hR : R.Denotes D) :
    (Q.add R).Denotes (C.add edwards25519.d D) := by
  have htwo : (Fe.fromU64 2).Denotes (2 : Fp) := Fe.fromU64_denotes 2
  have ha := Fe.mul_denotes (Fe.sub_denotes hQ.x hQ.y) (Fe.sub_denotes hR.x hR.y)
  have hb := Fe.mul_denotes (Fe.add_denotes hQ.x hQ.y) (Fe.add_denotes hR.x hR.y)
  have hc := Fe.mul_denotes (Fe.mul_denotes (Fe.mul_denotes hQ.t hR.t) dConst_denotes) htwo
  have hdd := Fe.mul_denotes (Fe.mul_denotes hQ.z hR.z) htwo
  have he := Fe.sub_denotes hb ha
  have hf := Fe.sub_denotes hdd hc
  have hg := Fe.add_denotes hdd hc
  have hh := Fe.add_denotes hb ha
  exact ⟨Fe.mul_denotes he hf, Fe.mul_denotes hg hh, Fe.mul_denotes hf hg, Fe.mul_denotes he hh⟩

theorem add_represents (hQ : Q.Represents A) (hR : R.Represents B) :
    (Q.add R).Represents (A + B) := by
  obtain ⟨C, hC, hA⟩ := hQ
  obtain ⟨D, hD, hB⟩ := hR
  exact ⟨_, add_denotes hC hD, hA.add hB⟩

/-- Double and add computes multiples. -/
theorem scalarMul_represents (hQ : Q.Represents A) (scalar : List.Vector UInt8 32) :
    (Q.scalarMul scalar).Represents (bytesValue scalar.toList • A) := by
  have hbits : bytesValue scalar.toList = ofBits (bitsDown 8 (scalar.toList.map UInt8.toNat)) :=
    (ofBits_bitsDown (w := 8) (by decide) byte_toNat_mem_lt).symm
  rw [hbits]
  refine foldl_bits (R := fun (r : Point) n => r.Represents (n • A)) ?_ ?_ _
  · intro r n bit hr
    have hdouble := add_represents hr hr
    rw [← add_nsmul, ← two_mul] at hdouble
    cases bit with
    | false => exact hdouble
    | true => exact succ_nsmul A (2 * n) ▸ add_represents hdouble hQ
  · rw [zero_nsmul]
    exact identity_represents

theorem toAffine_denotes (hQ : Q.Represents A) :
    Q.toAffine.1.Denotes A.x ∧ Q.toAffine.2.Denotes A.y := by
  obtain ⟨C, hC, hA⟩ := hQ
  have hinv := Fe.invert_denotes hC.z
  have hx := Fe.mul_denotes hC.x hinv
  have hy := Fe.mul_denotes hC.y hinv
  rw [hA.x_eq, mul_assoc, mul_inv_cancel₀ hA.z_ne, mul_one] at hx
  rw [hA.y_eq, mul_assoc, mul_inv_cancel₀ hA.z_ne, mul_one] at hy
  exact ⟨hx, hy⟩

theorem encode_eq (hQ : Q.Represents A) :
    Q.encode = encodeY Q.toAffine.2 (decide (A.x.val % 2 = 1)) := by
  have hneg : Q.toAffine.1.isNegative = decide (A.x.val % 2 = 1) := by
    rw [Bool.eq_iff_iff, Fe.isNegative_iff (toAffine_denotes hQ).1, decide_eq_true_iff]
  rw [encode, hneg]

/-- The bytes depend on the point alone. -/
theorem encode_congr (hQ : Q.Represents A) (hR : R.Represents A) : Q.encode = R.encode := by
  rw [encode_eq hQ, encode_eq hR, (toAffine_denotes hQ).2.unique (toAffine_denotes hR).2]

theorem decode_encode (hQ : Q.Represents A) : ∃ R, decode Q.encode = some R ∧ R.Represents A := by
  rw [encode_eq hQ]
  exact decode_encodeY (toAffine_denotes hQ).2

end Point

/-! ## The base point -/

def baseX : Nat := 15112221349535400772501151409588531511454012693041857206046113283949847762202

def baseY : Nat := 46316835694926478169428394003475163141307993866256225615783033603165251855960

def basePoint : edwards25519.Point where
  x := (baseX : Fp)
  y := (baseY : Fp)
  on_curve := by
    have h : ((baseY ^ 2 : Nat) : Fp) =
        ((baseX ^ 2 + 1 + dNat * baseX ^ 2 * baseY ^ 2 : Nat) : Fp) :=
      natCast_eq_of_mod (by decide)
    simp only [Nat.cast_pow, Nat.cast_add, Nat.cast_mul, Nat.cast_one] at h
    rw [edwards25519_d, sub_eq_iff_eq_add]
    exact h.trans (by ring)

/-- `4 / 5`, the coordinate the base point is decoded from. -/
def baseFe : Fe := (Fe.fromU64 4).mul (Fe.fromU64 5).invert

theorem baseFe_denotes : baseFe.Denotes basePoint.y := by
  have h := Fe.mul_denotes (Fe.fromU64_denotes 4) (Fe.invert_denotes (Fe.fromU64_denotes 5))
  have hne : (((5 : UInt64).toNat : Nat) : Fp) ≠ 0 := by
    rw [← Nat.cast_zero, Ne, ZMod.natCast_eq_natCast_iff']
    decide
  have hmul : ((baseY * (5 : UInt64).toNat : Nat) : Fp) = (((4 : UInt64).toNat : Nat) : Fp) :=
    natCast_eq_of_mod (by decide)
  rw [Nat.cast_mul] at hmul
  rw [← (eq_mul_inv_iff_mul_eq₀ hne).mpr hmul] at h
  exact h

theorem base_decodes : ∃ Q, decode (encodeY baseFe false) = some Q ∧ Q.Represents basePoint := by
  have hsign : decide (basePoint.x.val % 2 = 1) = false := by
    have hval : basePoint.x.val = baseX := ZMod.val_natCast_of_lt (by decide)
    rw [hval]
    decide
  rw [← hsign]
  exact decode_encodeY baseFe_denotes

theorem base_isSome : (decode (encodeY baseFe false)).isSome := by
  obtain ⟨Q, hQ, -⟩ := base_decodes
  rw [hQ]
  rfl

namespace Point

/-- The base point, which decodes. -/
def base : Point := (decode (encodeY baseFe false)).get base_isSome

theorem base_represents : base.Represents basePoint := by
  obtain ⟨Q, hQ, hrep⟩ := base_decodes
  have hbase : base = Q := Option.get_of_eq_some base_isSome hQ
  rw [hbase]
  exact hrep

end Point

end GaussMatrix.Util.Curve25519
