import Mathlib.Algebra.Field.Basic
import Mathlib.Data.Nat.Cast.Basic
import Mathlib.Tactic.FieldSimp
import Mathlib.Tactic.LinearCombination
import Mathlib.Tactic.NormNum
import Mathlib.Tactic.Ring

/-!
# Twisted Edwards curves

The curve `y² - x² = 1 + d x² y²` over a field where `-1` is a square and `d` is none. Its affine
points are a group under one addition law without exceptions, and the extended coordinates compute
that law without a division.
-/

namespace GaussMatrix.Library

/-- The parameter of a curve on which addition is complete. -/
structure EdwardsCurve (F : Type*) [Field F] where
  d : F
  i : F
  i_sq : i * i = -1
  not_square : ∀ r : F, r * r ≠ d
  two_ne_zero : (2 : F) ≠ 0

/-- An affine point. -/
@[ext]
structure EdwardsCurve.Point {F : Type*} [Field F] (E : EdwardsCurve F) where
  x : F
  y : F
  on_curve : y ^ 2 - x ^ 2 = 1 + E.d * x ^ 2 * y ^ 2

namespace EdwardsCurve

variable {F : Type*} [Field F]

/-! ## Completeness -/

section Complete

variable (E : EdwardsCurve F)

/-- The square behind completeness: a denominator that vanishes would make `d` a square. -/
theorem denominator_ne {x₁ y₁ x₂ y₂ : F} (ε : F) (h₁ : y₁ ^ 2 - x₁ ^ 2 = 1 + E.d * x₁ ^ 2 * y₁ ^ 2)
    (h₂ : y₂ ^ 2 - x₂ ^ 2 = 1 + E.d * x₂ ^ 2 * y₂ ^ 2) (hε : ε ^ 2 = 1) :
    E.d * x₁ * x₂ * y₁ * y₂ ≠ ε := by
  intro h
  have hε0 : ε ≠ 0 := by
    rintro rfl
    norm_num at hε
  have hx₁ : x₁ ≠ 0 := by
    rintro rfl
    exact hε0 (by rw [← h]; ring)
  have hy₁ : y₁ ≠ 0 := by
    rintro rfl
    exact hε0 (by rw [← h]; ring)
  have hx₂ : x₂ ≠ 0 := by
    rintro rfl
    exact hε0 (by rw [← h]; ring)
  -- For both signs `s` of `i`, the square of `s x₁ + ε y₁` is `d` times that of a product.
  have hsquare : ∀ s : F, s * s = -1 →
      (s * x₁ + ε * y₁) * (s * x₁ + ε * y₁) =
        E.d * ((x₁ * y₁ * (s * x₂ + y₂)) * (x₁ * y₁ * (s * x₂ + y₂))) := by
    intro s hs
    have hεy : ε * x₁ * y₁ = E.d * x₁ ^ 2 * y₁ ^ 2 * x₂ * y₂ := by
      rw [← h]
      ring
    have hεd : E.d * x₁ ^ 2 * y₁ ^ 2 * (1 + E.d * x₂ ^ 2 * y₂ ^ 2) =
        E.d * x₁ ^ 2 * y₁ ^ 2 + ε ^ 2 := by
      rw [← h]
      ring
    linear_combination (x₁ ^ 2 - E.d * x₁ ^ 2 * y₁ ^ 2 * x₂ ^ 2) * hs + h₁ + 2 * s * hεy -
      E.d * x₁ ^ 2 * y₁ ^ 2 * h₂ - hεd + (y₁ ^ 2 - 1) * hε
  -- One of the two products is not zero, and `d` is the square of a quotient.
  have hzero : ∀ s : F, s * s = -1 → s * x₂ + y₂ = 0 := by
    intro s hs
    by_contra hne
    have hprod : x₁ * y₁ * (s * x₂ + y₂) ≠ 0 := mul_ne_zero (mul_ne_zero hx₁ hy₁) hne
    apply E.not_square ((s * x₁ + ε * y₁) / (x₁ * y₁ * (s * x₂ + y₂)))
    rw [div_mul_div_comm, hsquare s hs, mul_div_assoc, div_self (mul_ne_zero hprod hprod), mul_one]
  have hplus := hzero E.i E.i_sq
  have hminus := hzero (-E.i) (by rw [neg_mul_neg, E.i_sq])
  have hi : E.i ≠ 0 := by
    intro hi
    have hi_sq := E.i_sq
    rw [hi, mul_zero, eq_comm, neg_eq_zero] at hi_sq
    exact one_ne_zero hi_sq
  have hzero₂ : 2 * (E.i * x₂) = 0 := by linear_combination hplus - hminus
  exact mul_ne_zero E.two_ne_zero (mul_ne_zero hi hx₂) hzero₂

theorem one_add_ne (P Q : E.Point) : 1 + E.d * P.x * Q.x * P.y * Q.y ≠ 0 := by
  intro h
  apply E.denominator_ne (-1) P.on_curve Q.on_curve (by ring)
  linear_combination h

theorem one_sub_ne (P Q : E.Point) : 1 - E.d * P.x * Q.x * P.y * Q.y ≠ 0 := by
  intro h
  apply E.denominator_ne 1 P.on_curve Q.on_curve (by ring)
  linear_combination -h

end Complete

/-! ## The group -/

/-- What the sum's numerators and denominators owe to the curve. -/
theorem sum_on_curve {d x₁ y₁ x₂ y₂ : F} (h₁ : y₁ ^ 2 - x₁ ^ 2 = 1 + d * x₁ ^ 2 * y₁ ^ 2)
    (h₂ : y₂ ^ 2 - x₂ ^ 2 = 1 + d * x₂ ^ 2 * y₂ ^ 2) (u : F) (hu : u = d * x₁ * x₂ * y₁ * y₂) :
    (y₁ * y₂ + x₁ * x₂) ^ 2 * (1 + u) ^ 2 - (x₁ * y₂ + y₁ * x₂) ^ 2 * (1 - u) ^ 2 =
      (1 - u ^ 2) ^ 2 + d * (x₁ * y₂ + y₁ * x₂) ^ 2 * (y₁ * y₂ + x₁ * x₂) ^ 2 := by
  have hdiff : (y₁ * y₂ + x₁ * x₂) ^ 2 - (x₁ * y₂ + y₁ * x₂) ^ 2 =
      (1 + d * x₁ ^ 2 * y₁ ^ 2) * (1 + d * x₂ ^ 2 * y₂ ^ 2) := by
    rw [← h₁, ← h₂]
    ring
  have hsum₁ : (x₁ ^ 2 + y₁ ^ 2) ^ 2 = (1 + d * x₁ ^ 2 * y₁ ^ 2) ^ 2 + 4 * x₁ ^ 2 * y₁ ^ 2 := by
    rw [← h₁]
    ring
  have hsum₂ : (x₂ ^ 2 + y₂ ^ 2) ^ 2 = (1 + d * x₂ ^ 2 * y₂ ^ 2) ^ 2 + 4 * x₂ ^ 2 * y₂ ^ 2 := by
    rw [← h₂]
    ring
  subst hu
  linear_combination (1 + (d * x₁ * x₂ * y₁ * y₂) ^ 2) * hdiff - d * x₁ ^ 2 * y₁ ^ 2 * hsum₂ -
    d * x₂ ^ 2 * y₂ ^ 2 * hsum₁

/-- Quotients on the curve, from the equation without the denominators. -/
theorem quotients_on_curve {d a b m n : F} (hm : m ≠ 0) (hn : n ≠ 0)
    (h : b ^ 2 * m ^ 2 - a ^ 2 * n ^ 2 = m ^ 2 * n ^ 2 + d * a ^ 2 * b ^ 2) :
    (b / n) ^ 2 - (a / m) ^ 2 = 1 + d * (a / m) ^ 2 * (b / n) ^ 2 := by
  field_simp
  linear_combination h

namespace Point

variable {E : EdwardsCurve F}

instance : Zero E.Point where
  zero := { x := 0, y := 1, on_curve := by ring }

instance : Neg E.Point where
  neg P := { x := -P.x, y := P.y, on_curve := by linear_combination P.on_curve }

instance : Add E.Point where
  add P Q :=
    { x := (P.x * Q.y + P.y * Q.x) / (1 + E.d * P.x * Q.x * P.y * Q.y)
      y := (P.y * Q.y + P.x * Q.x) / (1 - E.d * P.x * Q.x * P.y * Q.y)
      on_curve := by
        have hplus := E.one_add_ne P Q
        have hminus := E.one_sub_ne P Q
        have hsum := sum_on_curve P.on_curve Q.on_curve _ rfl
        exact quotients_on_curve hplus hminus (by linear_combination hsum) }

@[simp] theorem zero_x : (0 : E.Point).x = 0 := rfl
@[simp] theorem zero_y : (0 : E.Point).y = 1 := rfl
@[simp] theorem neg_x (P : E.Point) : (-P).x = -P.x := rfl
@[simp] theorem neg_y (P : E.Point) : (-P).y = P.y := rfl

theorem add_x (P Q : E.Point) :
    (P + Q).x = (P.x * Q.y + P.y * Q.x) / (1 + E.d * P.x * Q.x * P.y * Q.y) := rfl

theorem add_y (P Q : E.Point) :
    (P + Q).y = (P.y * Q.y + P.x * Q.x) / (1 - E.d * P.x * Q.x * P.y * Q.y) := rfl

protected theorem add_comm (P Q : E.Point) : P + Q = Q + P := by
  ext
  · rw [add_x, add_x, show Q.x * P.y + Q.y * P.x = P.x * Q.y + P.y * Q.x by ring,
      show E.d * Q.x * P.x * Q.y * P.y = E.d * P.x * Q.x * P.y * Q.y by ring]
  · rw [add_y, add_y, mul_comm Q.y, mul_comm Q.x,
      show E.d * Q.x * P.x * Q.y * P.y = E.d * P.x * Q.x * P.y * Q.y by ring]

protected theorem zero_add (P : E.Point) : 0 + P = P := by
  ext
  · rw [add_x]
    simp
  · rw [add_y]
    simp

protected theorem neg_add_cancel (P : E.Point) : -P + P = 0 := by
  ext
  · rw [add_x, neg_x, neg_y, zero_x, show -P.x * P.y + P.y * P.x = 0 by ring, zero_div]
  · have hne := E.one_sub_ne (-P) P
    rw [add_y, zero_y, div_eq_one_iff_eq hne, neg_x, neg_y]
    linear_combination P.on_curve

end Point

/-! ### Associativity

Adding a third point to a sum gives fractions whose cross products agree, on the curve, with those
of the sum taken in the next cyclic order.
-/

/-- A sum of quotients, over one denominator. -/
theorem third_x {d a b m n x y : F} (hm : m ≠ 0) (hn : n ≠ 0) :
    (a / m * y + b / n * x) / (1 + d * (a / m) * x * (b / n) * y) =
      (a * n * y + b * m * x) / (m * n + d * a * b * x * y) := by
  rw [← mul_div_mul_left _ _ (mul_ne_zero hm hn)]
  congr 1 <;> field_simp

theorem third_y {d a b m n x y : F} (hm : m ≠ 0) (hn : n ≠ 0) :
    (b / n * y + a / m * x) / (1 - d * (a / m) * x * (b / n) * y) =
      (b * m * y + a * n * x) / (m * n - d * a * b * x * y) := by
  rw [← mul_div_mul_left _ _ (mul_ne_zero hm hn)]
  congr 1 <;> field_simp

section Cyclic

variable {d x₁ y₁ x₂ y₂ x₃ y₃ : F} (h₁ : y₁ ^ 2 - x₁ ^ 2 = 1 + d * x₁ ^ 2 * y₁ ^ 2)
  (h₂ : y₂ ^ 2 - x₂ ^ 2 = 1 + d * x₂ ^ 2 * y₂ ^ 2) (h₃ : y₃ ^ 2 - x₃ ^ 2 = 1 + d * x₃ ^ 2 * y₃ ^ 2)
include h₁ h₂ h₃

-- The three factors were found by dividing the difference by the three equations.
theorem cyclic_x :
    ((x₁ * y₂ + y₁ * x₂) * (1 - d * x₁ * x₂ * y₁ * y₂) * y₃ +
        (y₁ * y₂ + x₁ * x₂) * (1 + d * x₁ * x₂ * y₁ * y₂) * x₃) *
      ((1 + d * x₂ * x₃ * y₂ * y₃) * (1 - d * x₂ * x₃ * y₂ * y₃) +
        d * (x₂ * y₃ + y₂ * x₃) * (y₂ * y₃ + x₂ * x₃) * x₁ * y₁) =
    ((x₂ * y₃ + y₂ * x₃) * (1 - d * x₂ * x₃ * y₂ * y₃) * y₁ +
        (y₂ * y₃ + x₂ * x₃) * (1 + d * x₂ * x₃ * y₂ * y₃) * x₁) *
      ((1 + d * x₁ * x₂ * y₁ * y₂) * (1 - d * x₁ * x₂ * y₁ * y₂) +
        d * (x₁ * y₂ + y₁ * x₂) * (y₁ * y₂ + x₁ * x₂) * x₃ * y₃) := by
  linear_combination
    d * x₂ * y₂ * (x₁ * (y₂ * y₃ + x₂ * x₃) * ((x₂ * y₃ + y₂ * x₃) * (y₂ * y₃ - x₂ * x₃) -
          x₂ * y₂ * (1 + d * x₂ * x₃ * y₂ * y₃)) +
        y₁ * (x₂ * y₃ + y₂ * x₃) * ((y₂ * y₃ + x₂ * x₃) * (x₂ * y₃ - y₂ * x₃) -
          x₂ * y₂ * (1 - d * x₂ * x₃ * y₂ * y₃))) * h₁ +
    d * x₂ * y₂ * (x₃ * y₃ * ((y₂ * y₃ + x₂ * x₃) * x₁ * (x₁ ^ 2 + 1) +
          (x₂ * y₃ + y₂ * x₃) * y₁ * (y₁ ^ 2 - 1)) -
        x₁ * y₁ * ((y₁ * y₂ + x₁ * x₂) * x₃ * (x₃ ^ 2 + 1) +
          (x₁ * y₂ + y₁ * x₂) * y₃ * (y₃ ^ 2 - 1))) * h₂ -
    d * x₂ * y₂ * (x₃ * (y₂ * y₁ + x₂ * x₁) * ((x₂ * y₁ + y₂ * x₁) * (y₂ * y₁ - x₂ * x₁) -
          x₂ * y₂ * (1 + d * x₂ * x₁ * y₂ * y₁)) +
        y₃ * (x₂ * y₁ + y₂ * x₁) * ((y₂ * y₁ + x₂ * x₁) * (x₂ * y₁ - y₂ * x₁) -
          x₂ * y₂ * (1 - d * x₂ * x₁ * y₂ * y₁))) * h₃

theorem cyclic_y :
    ((y₁ * y₂ + x₁ * x₂) * (1 + d * x₁ * x₂ * y₁ * y₂) * y₃ +
        (x₁ * y₂ + y₁ * x₂) * (1 - d * x₁ * x₂ * y₁ * y₂) * x₃) *
      ((1 + d * x₂ * x₃ * y₂ * y₃) * (1 - d * x₂ * x₃ * y₂ * y₃) -
        d * (x₂ * y₃ + y₂ * x₃) * (y₂ * y₃ + x₂ * x₃) * x₁ * y₁) =
    ((y₂ * y₃ + x₂ * x₃) * (1 + d * x₂ * x₃ * y₂ * y₃) * y₁ +
        (x₂ * y₃ + y₂ * x₃) * (1 - d * x₂ * x₃ * y₂ * y₃) * x₁) *
      ((1 + d * x₁ * x₂ * y₁ * y₂) * (1 - d * x₁ * x₂ * y₁ * y₂) -
        d * (x₁ * y₂ + y₁ * x₂) * (y₁ * y₂ + x₁ * x₂) * x₃ * y₃) := by
  linear_combination
    d * x₂ * y₂ * (x₁ * (x₂ * y₃ + y₂ * x₃) * ((y₂ * y₃ + x₂ * x₃) * (x₂ * y₃ - y₂ * x₃) -
          x₂ * y₂ * (1 - d * x₂ * x₃ * y₂ * y₃)) +
        y₁ * (y₂ * y₃ + x₂ * x₃) * ((x₂ * y₃ + y₂ * x₃) * (y₂ * y₃ - x₂ * x₃) -
          x₂ * y₂ * (1 + d * x₂ * x₃ * y₂ * y₃))) * h₁ +
    d * x₂ * y₂ * (x₁ * y₁ * ((y₁ * y₂ + x₁ * x₂) * y₃ * (y₃ ^ 2 - 1) +
          (x₁ * y₂ + y₁ * x₂) * x₃ * (x₃ ^ 2 + 1)) -
        x₃ * y₃ * ((x₂ * y₃ + y₂ * x₃) * x₁ * (x₁ ^ 2 + 1) +
          (y₂ * y₃ + x₂ * x₃) * y₁ * (y₁ ^ 2 - 1))) * h₂ -
    d * x₂ * y₂ * (x₃ * (x₂ * y₁ + y₂ * x₁) * ((y₂ * y₁ + x₂ * x₁) * (x₂ * y₁ - y₂ * x₁) -
          x₂ * y₂ * (1 - d * x₂ * x₁ * y₂ * y₁)) +
        y₃ * (y₂ * y₁ + x₂ * x₁) * ((x₂ * y₁ + y₂ * x₁) * (y₂ * y₁ - x₂ * x₁) -
          x₂ * y₂ * (1 + d * x₂ * x₁ * y₂ * y₁))) * h₃

end Cyclic

namespace Point

variable {E : EdwardsCurve F}

/-- The denominators of a sum of three points, cleared. -/
theorem third_ne (P Q R : E.Point) :
    (1 + E.d * P.x * Q.x * P.y * Q.y) * (1 - E.d * P.x * Q.x * P.y * Q.y) +
        E.d * (P.x * Q.y + P.y * Q.x) * (P.y * Q.y + P.x * Q.x) * R.x * R.y ≠ 0 ∧
      (1 + E.d * P.x * Q.x * P.y * Q.y) * (1 - E.d * P.x * Q.x * P.y * Q.y) -
        E.d * (P.x * Q.y + P.y * Q.x) * (P.y * Q.y + P.x * Q.x) * R.x * R.y ≠ 0 := by
  have hm := E.one_add_ne P Q
  have hn := E.one_sub_ne P Q
  have hplus := mul_ne_zero (mul_ne_zero hm hn) (E.one_add_ne (P + Q) R)
  have hminus := mul_ne_zero (mul_ne_zero hm hn) (E.one_sub_ne (P + Q) R)
  rw [add_x, add_y] at hplus hminus
  constructor
  · intro h
    apply hplus
    rw [← h]
    field_simp
  · intro h
    apply hminus
    rw [← h]
    field_simp

theorem add_cyclic (P Q R : E.Point) : P + Q + R = Q + R + P := by
  have hm := E.one_add_ne P Q
  have hn := E.one_sub_ne P Q
  have hm' := E.one_add_ne Q R
  have hn' := E.one_sub_ne Q R
  ext
  · rw [add_x (P + Q), add_x (Q + R), add_x P, add_y P, add_x Q, add_y Q, third_x hm hn,
      third_x hm' hn', div_eq_div_iff (third_ne P Q R).1 (third_ne Q R P).1]
    exact cyclic_x P.on_curve Q.on_curve R.on_curve
  · rw [add_y (P + Q), add_y (Q + R), add_x P, add_y P, add_x Q, add_y Q, third_y hm hn,
      third_y hm' hn', div_eq_div_iff (third_ne P Q R).2 (third_ne Q R P).2]
    exact cyclic_y P.on_curve Q.on_curve R.on_curve

protected theorem add_assoc (P Q R : E.Point) : P + Q + R = P + (Q + R) := by
  rw [add_cyclic, Point.add_comm]

instance : AddCommGroup E.Point where
  add_assoc := Point.add_assoc
  zero_add := Point.zero_add
  add_zero P := by rw [Point.add_comm, Point.zero_add]
  neg_add_cancel := Point.neg_add_cancel
  add_comm := Point.add_comm
  nsmul := nsmulRec
  zsmul := zsmulRec

end Point

/-! ## Recovering a coordinate -/

theorem recover_ne (E : EdwardsCurve F) (y : F) : E.d * (y * y) + 1 ≠ 0 := by
  intro h
  have hy : y ≠ 0 := by
    rintro rfl
    simp at h
  apply E.not_square (E.i / y)
  rw [div_mul_div_comm, div_eq_iff (mul_ne_zero hy hy), E.i_sq]
  linear_combination -h

theorem Point.recover {E : EdwardsCurve F} (P : E.Point) :
    P.y * P.y - 1 = (E.d * (P.y * P.y) + 1) * (P.x * P.x) := by linear_combination P.on_curve

/-- Where units have order dividing `8 k + 4`, the candidate for a square root of a quotient is
right up to a square root of `-1`. -/
theorem root_candidate {k : Nat} (hunits : ∀ r : F, r ≠ 0 → r ^ (8 * k + 4) = 1) {u v r : F}
    (hv : v ≠ 0) (hu : u = v * (r * r)) :
    let c := (u * v ^ 7) ^ k * u * v ^ 3
    c * c = r * r ∨ c * c = -(r * r) := by
  intro c
  have hc : c = r ^ (2 * k + 2) :=
    calc c = v ^ (8 * k + 4) * r ^ (2 * k + 2) := by
          simp only [c, hu]
          ring
      _ = r ^ (2 * k + 2) := by rw [hunits v hv, one_mul]
  have hcc : c * c = r ^ (4 * k + 2) * (r * r) := by
    rw [hc]
    ring
  by_cases hr : r = 0
  · left
    rw [hcc, hr, mul_zero, mul_zero]
  · have hone : (r ^ (4 * k + 2) - 1) * (r ^ (4 * k + 2) + 1) = 0 := by
      have hunit := hunits r hr
      linear_combination hunit
    rcases mul_eq_zero.mp hone with h | h
    · left
      linear_combination hcc + r * r * h
    · right
      linear_combination hcc + r * r * h

theorem root_of_neg (E : EdwardsCurve F) {c r : F} (h : c * c = -(r * r)) :
    c * E.i * (c * E.i) = r * r := by linear_combination c * c * E.i_sq - h

end EdwardsCurve

/-! ## Extended coordinates -/

/-- Coordinates with a common denominator `z` and the product of the two quotients. -/
structure Extended (R : Type*) where
  x : R
  y : R
  z : R
  t : R

namespace Extended

/-- The neutral element. -/
def identity (R : Type*) [Zero R] [One R] : Extended R := ⟨0, 1, 1, 0⟩

/-- Addition without a division. -/
def add {R : Type*} [CommRing R] (d : R) (P Q : Extended R) : Extended R :=
  let a := (P.x - P.y) * (Q.x - Q.y)
  let b := (P.x + P.y) * (Q.x + Q.y)
  let c := P.t * Q.t * d * 2
  let dd := P.z * Q.z * 2
  ⟨(b - a) * (dd - c), (dd + c) * (b + a), (dd - c) * (dd + c), (b - a) * (b + a)⟩

def map {R S : Type*} (f : R → S) (C : Extended R) : Extended S := ⟨f C.x, f C.y, f C.z, f C.t⟩

theorem map_add {R S : Type*} [CommRing R] [CommRing S] (f : R →+* S) (d : R) (C D : Extended R) :
    (C.add d D).map f = (C.map f).add (f d) (D.map f) := by
  simp [add, map, map_ofNat]

/-- The coordinates of an affine point. -/
structure Represents {F : Type*} [Field F] {E : EdwardsCurve F} (C : Extended F) (P : E.Point) :
    Prop where
  z_ne : C.z ≠ 0
  x_eq : C.x = P.x * C.z
  y_eq : C.y = P.y * C.z
  t_eq : C.t = P.x * P.y * C.z

theorem identity_represents {F : Type*} [Field F] {E : EdwardsCurve F} :
    (identity F).Represents (0 : E.Point) where
  z_ne := one_ne_zero
  x_eq := by simp [identity]
  y_eq := by simp [identity]
  t_eq := by simp [identity]

/-- The coordinates of a sum. -/
theorem Represents.add {F : Type*} [Field F] {E : EdwardsCurve F} {C D : Extended F} {P Q : E.Point}
    (hC : C.Represents P) (hD : D.Represents Q) : (C.add E.d D).Represents (P + Q) := by
  have hm := E.one_add_ne P Q
  have hn := E.one_sub_ne P Q
  have hx : (P + Q).x * (1 + E.d * P.x * Q.x * P.y * Q.y) = P.x * Q.y + P.y * Q.x :=
    div_mul_cancel₀ _ hm
  have hy : (P + Q).y * (1 - E.d * P.x * Q.x * P.y * Q.y) = P.y * Q.y + P.x * Q.x :=
    div_mul_cancel₀ _ hn
  have hz : (C.add E.d D).z = (2 * C.z * D.z) ^ 2 *
      ((1 - E.d * P.x * Q.x * P.y * Q.y) * (1 + E.d * P.x * Q.x * P.y * Q.y)) := by
    simp only [Extended.add, hC.t_eq, hD.t_eq]
    ring
  constructor
  · rw [hz]
    have hscale := mul_ne_zero (mul_ne_zero E.two_ne_zero hC.z_ne) hD.z_ne
    exact mul_ne_zero (pow_ne_zero 2 hscale) (mul_ne_zero hn hm)
  · rw [hz]
    simp only [Extended.add, hC.x_eq, hC.y_eq, hC.t_eq, hD.x_eq, hD.y_eq, hD.t_eq]
    linear_combination -(2 * C.z * D.z) ^ 2 * (1 - E.d * P.x * Q.x * P.y * Q.y) * hx
  · rw [hz]
    simp only [Extended.add, hC.x_eq, hC.y_eq, hC.t_eq, hD.x_eq, hD.y_eq, hD.t_eq]
    linear_combination -(2 * C.z * D.z) ^ 2 * (1 + E.d * P.x * Q.x * P.y * Q.y) * hy
  · rw [hz]
    simp only [Extended.add, hC.x_eq, hC.y_eq, hD.x_eq, hD.y_eq]
    linear_combination -(2 * C.z * D.z) ^ 2 *
      ((P + Q).y * (1 - E.d * P.x * Q.x * P.y * Q.y) * hx + (P.x * Q.y + P.y * Q.x) * hy)

/-- The coordinates of the neutral element. -/
theorem Represents.eq_zero {F : Type*} [Field F] {E : EdwardsCurve F} {C : Extended F} {P : E.Point}
    (h : C.Represents P) (hx : C.x = 0) (hy : C.y = C.z) : P = 0 := by
  ext
  · exact (mul_eq_zero.mp (h.x_eq.symm.trans hx)).resolve_right h.z_ne
  · exact mul_right_cancel₀ h.z_ne (by rw [← h.y_eq, hy, EdwardsCurve.Point.zero_y, one_mul])

end Extended

end GaussMatrix.Library
