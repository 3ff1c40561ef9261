import GaussMatrix.Util.Point25519

/-!
# Scalars

Numbers modulo the order of the base point: reducing 64 bytes and multiplying with 32, and that the
multiple of the base point by the order is the neutral element.
-/

namespace GaussMatrix.Util.Curve25519

open Library

/-- The order of the base point. -/
def order : Nat := 2 ^ 252 + 27742317777372353535851937790883648493

theorem order_eq : order = 2 ^ 252 + 27742317777372353535851937790883648493 := rfl

/-- The limbs of the order. -/
def L : Limbs 4 :=
  Limbs.four 0x5812631a5cf5d3ed 0x14def9dea2f79cd6 0x0000000000000000 0x1000000000000000

theorem L_value : L.value = order := by decide

/-! ## The code -/

/-- The loop that shifts the limbs up by a bit. -/
def shiftLimbs : List UInt64 → UInt64 → List UInt64 × UInt64
  | limb :: limbs, carry =>
      let rest := shiftLimbs limbs (limb >>> 63)
      (((limb <<< 1) ||| carry) :: rest.1, rest.2)
  | [], carry => ([], carry)

theorem shiftLimbs_length (limbs : List UInt64) (carry : UInt64) :
    (shiftLimbs limbs carry).1.length = limbs.length := by
  induction limbs generalizing carry with
  | nil => rfl
  | cons limb limbs ih => simp [shiftLimbs, ih]

/-- Set the low bit from the source's. -/
def setLow (v : Limbs 4) (bit : Bool) : Limbs 4 :=
  Limbs.four (v.get 0 ||| if bit then 1 else 0) (v.get 1) (v.get 2) (v.get 3)

/-- Shift a bit in below and subtract the order where it is reached. -/
def shiftIn (r : Limbs 4) (bit : Bool) : Limbs 4 :=
  let s := shiftLimbs r.toList 0
  let shifted : Limbs 4 := ⟨s.1, (shiftLimbs_length _ _).trans r.2⟩
  let r := setLow shifted bit
  if s.2 ≠ 0 ∨ lessThan r L = false then (subLimbs r L).1 else r

/-- Bit by bit from the top. -/
def reduceScalarWide (bytes : List.Vector UInt8 64) : List.Vector UInt8 32 :=
  limbsToLe ((bitsDown 8 (bytes.toList.map UInt8.toNat)).foldl shiftIn (Limbs.four 0 0 0 0))

/-- `a * b + c`. -/
def scalarMuladd (a b c : List.Vector UInt8 32) : List.Vector UInt8 32 :=
  let prod := mulWide (leToLimbs a) (leToLimbs b)
  let wide : List.Vector UInt8 64 :=
    ⟨prod.toList.flatMap toLeBytes, by rw [length_flatMap_toLeBytes, prod.toList_length]⟩
  let ab := reduceScalarWide wide
  let r := addLimbs (leToLimbs ab) (leToLimbs c)
  limbsToLe (if r.2 ≠ 0 ∨ lessThan r.1 L = false then (subLimbs r.1 L).1 else r.1)

def scalarIsCanonical (s : List.Vector UInt8 32) : Bool := lessThan (leToLimbs s) L

/-! ## Reduction -/

theorem toNat_shift_or (limb : UInt64) {carry : UInt64} (h : carry.toNat ≤ 1) :
    ((limb <<< 1) ||| carry).toNat + 2 ^ 64 * (limb >>> 63).toNat =
      2 * limb.toNat + carry.toNat := by
  have hlimb := limb.toNat_lt
  have hshift : (limb <<< 1).toNat = 2 ^ 1 * (limb.toNat % 2 ^ 63) := by
    rw [UInt64.toNat_shiftLeft]
    show limb.toNat <<< 1 % 2 ^ 64 = _
    rw [Nat.shiftLeft_eq]
    omega
  have hcarry : (limb >>> 63).toNat = limb.toNat / 2 ^ 63 := by
    rw [UInt64.toNat_shiftRight]
    exact Nat.shiftRight_eq_div_pow _ 63
  rw [UInt64.toNat_or, hshift, ← Nat.two_pow_add_eq_or_of_lt (by omega), hcarry]
  omega

theorem shiftLimbs_value (limbs : List UInt64) (carry : UInt64) (h : carry.toNat ≤ 1) :
    limbsValue (shiftLimbs limbs carry).1 +
        (2 ^ 64) ^ limbs.length * (shiftLimbs limbs carry).2.toNat =
      2 * limbsValue limbs + carry.toNat := by
  induction limbs generalizing carry with
  | nil => simp [shiftLimbs]
  | cons limb limbs ih =>
      have hlimb := limb.toNat_lt
      have hstep := toNat_shift_or limb h
      have hcarry : (limb >>> 63).toNat ≤ 1 := by omega
      have hrest := ih _ hcarry
      simp only [shiftLimbs, limbsValue_cons, List.length_cons, limbs_pow_succ, Nat.mul_assoc]
      generalize (2 ^ 64) ^ limbs.length * _ = weighted at hrest ⊢
      omega

/-- One subtraction reduces what is below twice the order. -/
theorem subtract_order_value {r : Limbs 4} {carry : UInt64} (hcarry : carry = 0)
    (h : r.value < 2 * order) :
    (if carry ≠ 0 ∨ lessThan r L = false then (subLimbs r L).1 else r).value = r.value % order := by
  have hiff := lessThan_iff r L
  have hsub := subLimbs_value r L
  have hlt := (subLimbs r L).1.value_lt_256
  have hr := r.value_lt_256
  rw [L_value] at hiff hsub
  by_cases hless : r.value < order
  · rw [if_neg (by simp [hcarry, hiff.mpr hless]), Nat.mod_eq_of_lt hless]
  · rw [if_pos (Or.inr (Bool.eq_false_iff.mpr (mt hiff.mp hless))), Nat.mod_eq_sub_mod (by omega),
      Nat.mod_eq_of_lt (by omega)]
    omega

/-- An even number's low bit is free. -/
theorem setLow_value {v : Limbs 4} (heven : v.value % 2 = 0) (bit : Bool) :
    (setLow v bit).value = v.value + bit.toNat := by
  have hvalue : v.value = (v.get 0).toNat + 2 ^ 64 * _ :=
    (congrArg Limbs.value v.four_get).symm.trans (Limbs.four_value _ _ _ _)
  rw [setLow, Limbs.four_value]
  cases bit with
  | false =>
      rw [hvalue]
      simp
  | true =>
      have hdouble : (v.get 0).toNat = 2 ^ 1 * ((v.get 0).toNat / 2) := by omega
      have hlow : (v.get 0 ||| 1).toNat = (v.get 0).toNat + 1 := by
        rw [UInt64.toNat_or, hdouble]
        exact (Nat.two_pow_add_eq_or_of_lt (i := 1) (by decide) _).symm
      simp only [if_true, hlow, Bool.toNat_true]
      omega

theorem shiftIn_value {r : Limbs 4} {n : Nat} (h : r.value = n % order) (bit : Bool) :
    (shiftIn r bit).value = (2 * n + bit.toNat) % order := by
  have hr : r.value < order := h ▸ Nat.mod_lt _ (by decide)
  have hbit := bit.toNat_le
  have horder := order_eq
  let shifted : Limbs 4 := ⟨(shiftLimbs r.toList 0).1, (shiftLimbs_length _ _).trans r.2⟩
  have hshift : shifted.value + 2 ^ 256 * (shiftLimbs r.toList 0).2.toNat = 2 * r.value := by
    have hvalue := shiftLimbs_value r.toList 0 (by decide)
    rwa [r.toList_length] at hvalue
  -- The order has 253 bits, so nothing is shifted out.
  have hcarry : (shiftLimbs r.toList 0).2 = 0 := UInt64.toNat_inj.mp (by
    rw [UInt64.toNat_zero]
    omega)
  rw [hcarry, UInt64.toNat_zero] at hshift
  have hlow := setLow_value (v := shifted) (by omega) bit
  have hred := subtract_order_value hcarry (r := setLow shifted bit) (by omega)
  calc (shiftIn r bit).value = (2 * r.value + bit.toNat) % order := by
        rw [← hshift, Nat.mul_zero, Nat.add_zero, ← hlow]
        exact hred
    _ = (2 * n + bit.toNat) % order := by
        rw [h, Nat.add_mod, Nat.mul_mod_mod, ← Nat.add_mod]

/-- The scalar is the number modulo the order. -/
theorem reduceScalarWide_value (bytes : List.Vector UInt8 64) :
    bytesValue (reduceScalarWide bytes).toList = bytesValue bytes.toList % order := by
  have hbits : bytesValue bytes.toList = ofBits (bitsDown 8 (bytes.toList.map UInt8.toNat)) :=
    (ofBits_bitsDown (w := 8) (by decide) byte_toNat_mem_lt).symm
  rw [reduceScalarWide, limbsToLe_value, hbits]
  refine foldl_bits (R := fun (r : Limbs 4) n => r.value = n % order) ?_ (by decide) _
  exact fun r n bit h => shiftIn_value h bit

theorem scalarMuladd_value (a b : List.Vector UInt8 32) {c : List.Vector UInt8 32}
    (hc : bytesValue c.toList < order) :
    bytesValue (scalarMuladd a b c).toList =
      (bytesValue a.toList * bytesValue b.toList + bytesValue c.toList) % order := by
  have horder := order_eq
  let wide : List.Vector UInt8 64 :=
    ⟨(mulWide (leToLimbs a) (leToLimbs b)).toList.flatMap toLeBytes,
      by rw [length_flatMap_toLeBytes, List.Vector.toList_length]⟩
  have hwide : bytesValue wide.toList = bytesValue a.toList * bytesValue b.toList := by
    rw [← leToLimbs_value a, ← leToLimbs_value b, ← mulWide_value]
    exact bytesValue_flatMap_toLeBytes _
  have hab : (leToLimbs (reduceScalarWide wide)).value =
      bytesValue a.toList * bytesValue b.toList % order := by
    rw [leToLimbs_value, reduceScalarWide_value, hwide]
  have hlt := Nat.mod_lt (bytesValue a.toList * bytesValue b.toList) (show order > 0 by decide)
  have hsum := addLimbs_value (leToLimbs (reduceScalarWide wide)) (leToLimbs c)
  rw [hab, leToLimbs_value] at hsum
  have hcarry : (addLimbs (leToLimbs (reduceScalarWide wide)) (leToLimbs c)).2 = 0 :=
    UInt64.toNat_inj.mp (by
      rw [UInt64.toNat_zero]
      omega)
  rw [hcarry, UInt64.toNat_zero, Nat.mul_zero, Nat.add_zero] at hsum
  have hred := subtract_order_value hcarry
    (r := (addLimbs (leToLimbs (reduceScalarWide wide)) (leToLimbs c)).1) (by omega)
  rw [hsum, Nat.mod_add_mod] at hred
  rw [scalarMuladd, limbsToLe_value]
  exact hred

theorem scalarIsCanonical_iff (s : List.Vector UInt8 32) :
    scalarIsCanonical s = true ↔ bytesValue s.toList < order := by
  rw [scalarIsCanonical, lessThan_iff, leToLimbs_value, L_value]

/-- Scalar arithmetic is exact: a wide number comes out as its residue, and so does a product plus a
reduced scalar, which is canonical then. -/
theorem scalars_exact (wide : List.Vector UInt8 64) (a b : List.Vector UInt8 32)
    {c : List.Vector UInt8 32} (hc : bytesValue c.toList < order) :
    bytesValue (reduceScalarWide wide).toList = bytesValue wide.toList % order ∧
      bytesValue (scalarMuladd a b c).toList =
        (bytesValue a.toList * bytesValue b.toList + bytesValue c.toList) % order ∧
      scalarIsCanonical (scalarMuladd a b c) = true := by
  have hmuladd := scalarMuladd_value a b hc
  refine ⟨reduceScalarWide_value wide, hmuladd, ?_⟩
  rw [scalarIsCanonical_iff, hmuladd]
  exact Nat.mod_lt _ (by decide)

/-- The largest factors, both beyond the order, and the scalar one. -/
theorem scalars_exact_largest :
    bytesValue (scalarMuladd (List.Vector.replicate 32 255) (List.Vector.replicate 32 255)
        ((List.Vector.replicate 32 0).set 0 1)).toList =
      ((2 ^ 256 - 1) * (2 ^ 256 - 1) + 1) % order := by
  have hones : bytesValue (List.Vector.replicate 32 (255 : UInt8)).toList = 2 ^ 256 - 1 := by decide
  have hone : bytesValue ((List.Vector.replicate 32 (0 : UInt8)).set 0 1).toList = 1 := by decide
  have h := (scalars_exact (List.Vector.replicate 64 255) (List.Vector.replicate 32 255)
    (List.Vector.replicate 32 255) (c := (List.Vector.replicate 32 0).set 0 1)
    (by rw [hone]; decide)).2.1
  rwa [hones, hone] at h

/-! ## The order of the base point -/

/-- Coordinates in least residues. -/
def reduced (C : Extended ℤ) : Extended ℤ := C.map (· % (p : ℤ))

def toFp (C : Extended ℤ) : Extended Fp := C.map fun n : ℤ => (n : Fp)

/-- Double and add in least residues, over the bits of a number below 256. -/
def residueMul (C : Extended ℤ) (n : Nat) : Extended ℤ :=
  ((List.range 256).reverse.map n.testBit).foldl
    (fun r bit =>
      let r := reduced (r.add dNat r)
      if bit then reduced (r.add dNat C) else r)
    (Extended.identity ℤ)

theorem toFp_reduced (C : Extended ℤ) : toFp (reduced C) = toFp C := by
  simp [toFp, reduced, Extended.map]

theorem toFp_add (C D : Extended ℤ) :
    toFp (C.add dNat D) = (toFp C).add edwards25519.d (toFp D) := by
  have h := Extended.map_add (Int.castRingHom Fp) dNat C D
  rw [edwards25519_d]
  simpa [toFp] using h

theorem residueMul_represents {C : Extended ℤ} {P : edwards25519.Point} (h : (toFp C).Represents P)
    {n : Nat} (hn : n < 2 ^ 256) : (toFp (residueMul C n)).Represents (n • P) := by
  have hbits : n = ofBits ((List.range 256).reverse.map n.testBit) := by
    rw [ofBits_testBit, Nat.mod_eq_of_lt hn]
  conv_rhs => rw [hbits]
  refine foldl_bits (R := fun (r : Extended ℤ) k => (toFp r).Represents (k • P)) ?_ ?_ _
  · intro r k bit hr
    have hdouble : (toFp (reduced (r.add dNat r))).Represents ((2 * k) • P) := by
      rw [toFp_reduced, toFp_add, two_mul, add_nsmul]
      exact hr.add hr
    cases bit with
    | false => exact hdouble
    | true =>
        show (toFp (reduced ((reduced (r.add dNat r)).add dNat C))).Represents ((2 * k + 1) • P)
        rw [toFp_reduced, toFp_add, succ_nsmul]
        exact hdouble.add h
  · rw [zero_nsmul]
    have hzero : toFp (Extended.identity ℤ) = Extended.identity Fp := by
      simp [toFp, Extended.map, Extended.identity]
    rw [hzero]
    exact Extended.identity_represents

def baseResidues : Extended ℤ := ⟨baseX, baseY, 1, baseX * baseY⟩

theorem baseResidues_represent : (toFp baseResidues).Represents basePoint where
  z_ne := by simp [toFp, baseResidues, Extended.map]
  x_eq := by simp [toFp, baseResidues, Extended.map, basePoint]
  y_eq := by simp [toFp, baseResidues, Extended.map, basePoint]
  t_eq := by simp [toFp, baseResidues, Extended.map, basePoint]

theorem order_nsmul_basePoint : order • basePoint = 0 := by
  have hrep := residueMul_represents baseResidues_represent (show order < 2 ^ 256 by decide)
  have hval : (residueMul baseResidues order).x = 0 ∧
      (residueMul baseResidues order).y = (residueMul baseResidues order).z := by decide +kernel
  apply hrep.eq_zero
  · show (((residueMul baseResidues order).x : ℤ) : Fp) = 0
    rw [hval.1, Int.cast_zero]
  · show (((residueMul baseResidues order).y : ℤ) : Fp) = ((residueMul baseResidues order).z : ℤ)
    rw [hval.2]

theorem mod_order_nsmul (n : Nat) : (n % order) • basePoint = n • basePoint :=
  (nsmul_eq_mod_nsmul n order_nsmul_basePoint).symm

end GaussMatrix.Util.Curve25519
