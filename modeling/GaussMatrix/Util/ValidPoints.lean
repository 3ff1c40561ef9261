import GaussMatrix.Util.Point25519

/-!
# Valid points

What makes the limbs of an extended point the coordinates of a point of the curve, and that addition
and multiples keep it, with no exception.
-/

namespace GaussMatrix.Util.Curve25519

open Library

namespace Point

/-- Reduced coordinates with `z ≠ 0` and `x y = z t`, and quotients on the curve. -/
structure Valid (Q : Point) : Prop where
  x_lt : Q.x.value < p
  y_lt : Q.y.value < p
  z_lt : Q.z.value < p
  t_lt : Q.t.value < p
  z_ne : (Q.z.value : Fp) ≠ 0
  product : (Q.x.value : Fp) * Q.y.value = Q.z.value * Q.t.value
  on_curve : -(Q.x.value / Q.z.value : Fp) ^ 2 + (Q.y.value / Q.z.value : Fp) ^ 2 =
    1 + edwards25519.d * (Q.x.value / Q.z.value : Fp) ^ 2 * (Q.y.value / Q.z.value : Fp) ^ 2

variable {Q R : Point} {A : edwards25519.Point}

/-- The affine point. -/
noncomputable def Valid.affine (h : Q.Valid) : edwards25519.Point where
  x := Q.x.value / Q.z.value
  y := Q.y.value / Q.z.value
  on_curve := by linear_combination h.on_curve

theorem Valid.represents (h : Q.Valid) : Q.Represents h.affine := by
  refine ⟨⟨Q.x.value, Q.y.value, Q.z.value, Q.t.value⟩, ⟨Fe.denotes_of_lt h.x_lt rfl,
    Fe.denotes_of_lt h.y_lt rfl, Fe.denotes_of_lt h.z_lt rfl, Fe.denotes_of_lt h.t_lt rfl⟩,
    h.z_ne, (div_mul_cancel₀ _ h.z_ne).symm, (div_mul_cancel₀ _ h.z_ne).symm, ?_⟩
  have hz := h.z_ne
  have hproduct := h.product
  simp only [Valid.affine]
  field_simp
  linear_combination -hproduct

/-- What represents a point of the curve is valid, and its affine point is that point. -/
theorem Represents.valid (h : Q.Represents A) : ∃ hQ : Q.Valid, hQ.affine = A := by
  obtain ⟨C, hC, hA⟩ := h
  have hx : (Q.x.value / Q.z.value : Fp) = A.x := by
    rw [hC.x.cast, hC.z.cast, hA.x_eq, mul_div_cancel_right₀ _ hA.z_ne]
  have hy : (Q.y.value / Q.z.value : Fp) = A.y := by
    rw [hC.y.cast, hC.z.cast, hA.y_eq, mul_div_cancel_right₀ _ hA.z_ne]
  have hvalid : Q.Valid :=
    { x_lt := hC.x.lt
      y_lt := hC.y.lt
      z_lt := hC.z.lt
      t_lt := hC.t.lt
      z_ne := by
        rw [hC.z.cast]
        exact hA.z_ne
      product := by
        rw [hC.x.cast, hC.y.cast, hC.z.cast, hC.t.cast, hA.x_eq, hA.y_eq, hA.t_eq]
        ring
      on_curve := by
        rw [hx, hy]
        linear_combination A.on_curve }
  exact ⟨hvalid, EdwardsCurve.Point.ext hx hy⟩

/-- Addition and multiples are those of the curve for all valid points, equal and opposite ones
included: no denominator of the sum is zero, the coordinates that come out are valid, and they are
those of the sum and of the multiple. -/
theorem arithmetic_complete (hQ : Q.Valid) (hR : R.Valid) (scalar : List.Vector UInt8 32) :
    (1 + edwards25519.d * hQ.affine.x * hR.affine.x * hQ.affine.y * hR.affine.y ≠ 0 ∧
      1 - edwards25519.d * hQ.affine.x * hR.affine.x * hQ.affine.y * hR.affine.y ≠ 0) ∧
    (∃ hsum : (Q.add R).Valid,
      hsum.affine.x = (hQ.affine.x * hR.affine.y + hQ.affine.y * hR.affine.x) /
        (1 + edwards25519.d * hQ.affine.x * hR.affine.x * hQ.affine.y * hR.affine.y) ∧
      hsum.affine.y = (hQ.affine.y * hR.affine.y + hQ.affine.x * hR.affine.x) /
        (1 - edwards25519.d * hQ.affine.x * hR.affine.x * hQ.affine.y * hR.affine.y) ∧
      (Q.add R).toAffine.1.Denotes hsum.affine.x ∧ (Q.add R).toAffine.2.Denotes hsum.affine.y) ∧
    ∃ hmul : (Q.scalarMul scalar).Valid,
      hmul.affine = bytesValue scalar.toList • hQ.affine := by
  refine ⟨⟨edwards25519.one_add_ne _ _, edwards25519.one_sub_ne _ _⟩, ?_, ?_⟩
  · have hsum := add_represents hQ.represents hR.represents
    obtain ⟨hvalid, haffine⟩ := hsum.valid
    have hcoordinates := toAffine_denotes hsum
    rw [← haffine] at hcoordinates
    refine ⟨hvalid, ?_, ?_, hcoordinates⟩
    · rw [haffine, EdwardsCurve.Point.add_x]
    · rw [haffine, EdwardsCurve.Point.add_y]
  · exact (scalarMul_represents hQ.represents scalar).valid

/-- The base point doubled, and multiplied by the scalar of all ones. -/
theorem base_double_valid : ∃ hbase : base.Valid, (∃ hsum : (base.add base).Valid,
    hsum.affine.x = (hbase.affine.x * hbase.affine.y + hbase.affine.y * hbase.affine.x) /
      (1 + edwards25519.d * hbase.affine.x * hbase.affine.x * hbase.affine.y * hbase.affine.y)) ∧
    ∃ hmul : (base.scalarMul (List.Vector.replicate 32 255)).Valid,
      hmul.affine = (2 ^ 256 - 1) • hbase.affine := by
  obtain ⟨hbase, -⟩ := base_represents.valid
  obtain ⟨-, ⟨hsum, hx, -⟩, hmul⟩ :=
    arithmetic_complete hbase hbase (List.Vector.replicate 32 255)
  have hones : bytesValue (List.Vector.replicate 32 (255 : UInt8)).toList = 2 ^ 256 - 1 := by decide
  rw [hones] at hmul
  exact ⟨hbase, ⟨hsum, hx⟩, hmul⟩

end Point

end GaussMatrix.Util.Curve25519
