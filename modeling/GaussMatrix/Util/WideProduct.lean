import GaussMatrix.Util.Field25519

/-!
# The product of limbs on the array

`mulWide` walks the limbs as lists and takes its sums in `Nat`. Here the loops of `mul_wide` store
into one array by index, and an index or a 128-bit sum out of range ends them with `none`. They end
with the product.
-/

namespace GaussMatrix.Util.Curve25519

open Library

/-! ## The code, with its checks -/

/-- A number of 128 bits. -/
def u128 (n : Nat) : Option Nat := if n < 2 ^ 128 then some n else none

/-- Add `term` and the carry to the limb at `k`, and carry on what is beyond 64 bits. -/
def accumulate (out : List UInt64) (k term carry : Nat) : Option (List UInt64 × Nat) := do
  let limb ← out[k]?
  let sum ← u128 (limb.toNat + term)
  let cur ← u128 (sum + carry)
  return (out.set k (UInt64.ofNat cur), cur / 2 ^ 64)

/-- The loop over `j`; `k` is `i + j`. -/
def mulInner (a : UInt64) : List UInt64 → Nat → List UInt64 → Nat → Option (List UInt64 × Nat)
  | [], _, out, carry => some (out, carry)
  | b :: bs, k, out, carry => do
      let term ← u128 (a.toNat * b.toNat)
      let r ← accumulate out k term carry
      mulInner a bs (k + 1) r.1 r.2

theorem accumulate_length {out : List UInt64} {k term carry : Nat} {r : List UInt64 × Nat}
    (h : accumulate out k term carry = some r) : k < out.length ∧ r.1.length = out.length := by
  obtain ⟨limb, hlimb, h⟩ := Option.bind_eq_some_iff.mp h
  obtain ⟨sum, -, h⟩ := Option.bind_eq_some_iff.mp h
  obtain ⟨cur, -, h⟩ := Option.bind_eq_some_iff.mp h
  obtain rfl := Option.some.inj h
  exact ⟨(List.getElem?_eq_some_iff.mp hlimb).1, List.length_set⟩

/-- The `while` loop from the limb at `k`. -/
def carryOn (out : List UInt64) (k carry : Nat) : Option (List UInt64) :=
  if carry = 0 then some out
  else
    match h : accumulate out k 0 carry with
    | some r => carryOn r.1 (k + 1) r.2
    | none => none
termination_by out.length - k
decreasing_by
  have := accumulate_length h
  omega

/-- The loop over `i`. -/
def mulOuter (b : List UInt64) : List UInt64 → Nat → List UInt64 → Option (List UInt64)
  | [], _, out => some out
  | a :: as, i, out => do
      let r ← mulInner a b i out 0
      let out ← carryOn r.1 (i + b.length) r.2
      mulOuter b as (i + 1) out

/-- `mul_wide`; none where it would panic. -/
def mulWideChecked (a b : Limbs 4) : Option (List UInt64) :=
  mulOuter b.toList a.toList 0 (List.replicate 8 0)

/-- The loop of `reduce_512` for at most so many rounds. -/
def reduceRounds : Nat → Limbs 4 → Limbs 4 → Option (Limbs 4)
  | 0, _, _ => none
  | rounds + 1, hi, lo =>
      let r := mul38Add hi lo
      if r.2 = 0 then some r.1 else reduceRounds rounds (Limbs.four r.2 0 0 0) r.1

/-! ## No step fails -/

theorem accumulate_append (pre : List UInt64) (o : UInt64) (tail : List UInt64) (term carry : Nat)
    (h : o.toNat + term + carry < 2 ^ 128) :
    accumulate (pre ++ o :: tail) pre.length term carry =
      some (pre ++ UInt64.ofNat (o.toNat + term + carry) :: tail,
        (o.toNat + term + carry) / 2 ^ 64) := by
  have hget : (pre ++ o :: tail)[pre.length]? = some o := by simp
  rw [accumulate, hget, Option.bind_eq_bind, Option.bind_some, u128, if_pos (by omega),
    Option.bind_eq_bind, Option.bind_some, u128, if_pos h]
  simp

/-- A row stores its low limbs and leaves a carry of one limb. -/
theorem mulInner_append (a : UInt64) (bs pre tail : List UInt64) (carry : Nat)
    (hlen : bs.length ≤ tail.length) (hcarry : carry < 2 ^ 64) :
    ∃ low carry', mulInner a bs pre.length (pre ++ tail) carry =
        some (pre ++ low ++ tail.drop bs.length, carry') ∧
      low.length = bs.length ∧ carry' < 2 ^ 64 ∧
      limbsValue low + (2 ^ 64) ^ bs.length * (limbsValue (tail.drop bs.length) + carry') =
        limbsValue tail + a.toNat * limbsValue bs + carry := by
  -- `pre` holds the limbs already stored, so the index is its length
  induction bs generalizing pre tail carry with
  | nil => exact ⟨[], carry, by simp [mulInner], rfl, hcarry, by simp⟩
  | cons b bs ih =>
      obtain _ | ⟨o, tail⟩ := tail
      · simp at hlen
      obtain ⟨hfits, hnext⟩ := mulRow_accumulator o a b hcarry
      obtain ⟨low, carry', hrun, hlow, hlt, hvalue⟩ :=
        ih (pre ++ [UInt64.ofNat (o.toNat + a.toNat * b.toNat + carry)]) tail
          ((o.toNat + a.toNat * b.toNat + carry) / 2 ^ 64) (Nat.le_of_succ_le_succ hlen) hnext
      refine ⟨UInt64.ofNat (o.toNat + a.toNat * b.toNat + carry) :: low, carry', ?_, by simp [hlow],
        hlt, ?_⟩
      · rw [mulInner, u128, if_pos (by omega), Option.bind_eq_bind, Option.bind_some,
          accumulate_append pre o tail _ _ hfits, Option.bind_eq_bind, Option.bind_some]
        rw [List.length_append, List.length_singleton, List.append_assoc, List.singleton_append]
          at hrun
        rw [hrun]
        simp
      · have hprod : a.toNat * (b.toNat + 2 ^ 64 * limbsValue bs) =
            a.toNat * b.toNat + 2 ^ 64 * (a.toNat * limbsValue bs) := by ring
        simp only [limbsValue_cons, toNat_ofNat64, List.length_cons, limbs_pow_succ, Nat.mul_assoc,
          List.drop_succ_cons, hprod]
        generalize (2 ^ 64) ^ bs.length * _ = weighted at hvalue ⊢
        omega

/-- The carry ends inside the array when the sum fits it. -/
theorem carryOn_append (pre tail : List UInt64) (carry : Nat) (hcarry : carry < 2 ^ 64)
    (h : limbsValue tail + carry < (2 ^ 64) ^ tail.length) :
    carryOn (pre ++ tail) pre.length carry = some (pre ++ propagate tail carry) := by
  induction tail generalizing pre carry with
  | nil =>
      have hzero : carry = 0 := by simpa using h
      rw [carryOn, if_pos hzero, propagate]
  | cons o tail ih =>
      have ho := o.toNat_lt
      rw [carryOn, propagate]
      split
      · rfl
      · have hstep := accumulate_append pre o tail 0 carry (by omega)
        simp only [limbsValue_cons, List.length_cons, limbs_pow_succ] at h
        have hrest := ih (pre ++ [UInt64.ofNat (o.toNat + carry)])
          ((o.toNat + carry) / 2 ^ 64) (by omega) (by
            generalize (2 ^ 64) ^ tail.length = bound at h ⊢
            omega)
        rw [List.length_append, List.length_singleton, List.append_assoc, List.singleton_append,
          List.append_assoc, List.singleton_append] at hrest
        split
        next r heq =>
          rw [hstep] at heq
          obtain rfl := Option.some.inj heq
          exact hrest
        next heq =>
          rw [hstep] at heq
          cases heq

theorem limbsValue_append (a b : List UInt64) :
    limbsValue (a ++ b) = limbsValue a + (2 ^ 64) ^ a.length * limbsValue b := by
  rw [limbsValue, List.map_append, Nat.ofDigits_append, List.length_map, limbsValue, limbsValue]

/-- A whole row: the array above `pre` grows by a limb's multiple of `b`. -/
theorem row_append (a : UInt64) (b pre tail : List UInt64) (hlen : b.length ≤ tail.length)
    (h : limbsValue tail + a.toNat * limbsValue b < (2 ^ 64) ^ tail.length) :
    ∃ low carry row, mulInner a b pre.length (pre ++ tail) 0 = some (low, carry) ∧
      carryOn low (pre.length + b.length) carry = some (pre ++ row) ∧
      row.length = tail.length ∧ limbsValue row = limbsValue tail + a.toNat * limbsValue b := by
  obtain ⟨low, carry, hinner, hlow, hcarry, hvalue⟩ :=
    mulInner_append a b pre tail 0 hlen (by decide)
  have hsplit : b.length + (tail.drop b.length).length = tail.length := by
    rw [List.length_drop]
    omega
  -- what is left above the low limbs and the carry fit the limbs that are left
  have hfits : limbsValue (tail.drop b.length) + carry < (2 ^ 64) ^ (tail.drop b.length).length := by
    rw [← hsplit, Nat.pow_add] at h
    exact Nat.lt_of_mul_lt_mul_left (a := (2 ^ 64) ^ b.length) (by omega)
  have hcarryOn := carryOn_append (pre ++ low) (tail.drop b.length) carry hcarry hfits
  rw [List.length_append, hlow, List.append_assoc pre low (propagate _ _)] at hcarryOn
  refine ⟨_, carry, low ++ propagate (tail.drop b.length) carry, hinner, hcarryOn, ?_, ?_⟩
  · rw [List.length_append, hlow, propagate_length, hsplit]
  · rw [limbsValue_append, hlow, propagate_value _ _ hfits, hvalue, Nat.add_zero]

/-- All rows: the array above `pre` grows by the product. -/
theorem mulOuter_append (b as pre tail : List UInt64) (hlen : as.length + b.length ≤ tail.length)
    (h : limbsValue tail + limbsValue as * limbsValue b < (2 ^ 64) ^ tail.length) :
    ∃ out, mulOuter b as pre.length (pre ++ tail) = some (pre ++ out) ∧
      out.length = tail.length ∧ limbsValue out = limbsValue tail + limbsValue as * limbsValue b := by
  induction as generalizing pre tail with
  | nil => exact ⟨tail, rfl, rfl, by simp⟩
  | cons a as ih =>
      have hprod : (a.toNat + 2 ^ 64 * limbsValue as) * limbsValue b =
          a.toNat * limbsValue b + 2 ^ 64 * (limbsValue as * limbsValue b) := by ring
      simp only [limbsValue_cons, hprod, List.length_cons] at h hlen
      obtain ⟨low, carry, row, hinner, hcarryOn, hrow, hvalue⟩ :=
        row_append a b pre tail (by omega) (by omega)
      obtain _ | ⟨o, row⟩ := row
      · rw [List.length_nil] at hrow
        omega
      -- the next row starts one limb higher
      simp only [limbsValue_cons, List.length_cons] at hrow hvalue
      rw [← hrow, limbs_pow_succ] at h
      obtain ⟨out, hrest, hout, houtValue⟩ := ih (pre ++ [o]) row (by omega) (by
        generalize (2 ^ 64) ^ row.length = bound at h ⊢
        omega)
      rw [List.length_append, List.length_singleton, List.append_assoc, List.singleton_append,
        List.append_assoc, List.singleton_append] at hrest
      refine ⟨o :: out, ?_, by rw [List.length_cons, hout, hrow], ?_⟩
      · rw [mulOuter, hinner, Option.bind_eq_bind, Option.bind_some, hcarryOn, Option.bind_eq_bind,
          Option.bind_some]
        exact hrest
      · rw [limbsValue_cons, houtValue, limbsValue_cons, hprod]
        omega

/-- The array ends as the limbs of the product: the list loops compute what the checked ones do. -/
theorem mulWideChecked_eq (a b : Limbs 4) : mulWideChecked a b = some (mulWide a b).toList := by
  have hlt : a.value * b.value < (2 ^ 64) ^ 8 :=
    calc a.value * b.value < 2 ^ 256 * 2 ^ 256 := Nat.mul_lt_mul'' a.value_lt_256 b.value_lt_256
      _ = (2 ^ 64) ^ 8 := by norm_num
  have hzero : limbsValue (List.replicate 8 0) = 0 := by decide
  obtain ⟨out, hrun, hlen, hvalue⟩ := mulOuter_append b.toList a.toList [] (List.replicate 8 0)
    (by rw [a.toList_length, b.toList_length, List.length_replicate])
    (by rw [hzero, Nat.zero_add, List.length_replicate]; exact hlt)
  rw [hzero, Nat.zero_add] at hvalue
  have hout : out = (mulWide a b).toList := by
    apply limbsValue_inj
    · rw [hlen, List.length_replicate, List.Vector.toList_length]
    · rw [hvalue]
      exact (mulWide_value a b).symm
  rw [← hout]
  exact hrun

/-! ## The reduction ends -/

theorem reduceRounds_succ {rounds : Nat} {hi lo : Limbs 4}
    (h : (mul38Add hi lo).2.toNat ≠ 0 →
      reduceRounds rounds (Limbs.four (mul38Add hi lo).2 0 0 0) (mul38Add hi lo).1 =
        some (reduceLoop (Limbs.four (mul38Add hi lo).2 0 0 0) (mul38Add hi lo).1)) :
    reduceRounds (rounds + 1) hi lo = some (reduceLoop hi lo) := by
  rw [reduceRounds, reduceLoop]
  split
  · rfl
  next hover => exact h fun hzero => hover (UInt64.toNat_inj.mp hzero)

/-- Whatever the limbs, nothing is beyond 256 bits after three rounds. -/
theorem reduceRounds_three (hi lo : Limbs 4) : reduceRounds 3 hi lo = some (reduceLoop hi lo) := by
  -- the first round leaves an overflow of at most 38
  have hfirst := mul38Add_value hi lo
  have hhi := hi.value_lt_256
  have hlo := lo.value_lt_256
  refine reduceRounds_succ fun _ => ?_
  generalize hr : mul38Add hi lo = r at hfirst ⊢
  have hr := r.1.value_lt_256
  -- the second at most one, and then less than 38 * 39 below it
  have hsecond := mul38Add_value (Limbs.four r.2 0 0 0) r.1
  rw [Limbs.single_value] at hsecond
  refine reduceRounds_succ fun hover => ?_
  generalize hs : mul38Add (Limbs.four r.2 0 0 0) r.1 = s at hsecond hover ⊢
  have hs := s.1.value_lt_256
  -- so the third leaves none
  have hthird := mul38Add_value (Limbs.four s.2 0 0 0) s.1
  rw [Limbs.single_value] at hthird
  refine reduceRounds_succ fun hover' => ?_
  omega

/-! ## Multiplication -/

/-- Multiplication in the field is exact for all limbs, reduced or not. The product's loops store no
limb past the last and overflow no 128-bit sum, and the reduction ends, in three rounds at most, with
the least residue. -/
theorem multiplication_exact (a b : Limbs 4) (w : Limbs 8) (x y : Fe) :
    mulWideChecked a b = some (mulWide a b).toList ∧
      (mulWide a b).value = a.value * b.value ∧
      reduceRounds 3 (Limbs.four (w.get 4) (w.get 5) (w.get 6) (w.get 7))
          (Limbs.four (w.get 0) (w.get 1) (w.get 2) (w.get 3)) =
        some (reduceLoop (Limbs.four (w.get 4) (w.get 5) (w.get 6) (w.get 7))
          (Limbs.four (w.get 0) (w.get 1) (w.get 2) (w.get 3))) ∧
      (reduce512 w).value = w.value % p ∧
      (x.mul y).value = x.value * y.value % p := by
  refine ⟨mulWideChecked_eq a b, mulWide_value a b, reduceRounds_three _ _, reduce512_value w, ?_⟩
  have hproduct := Fe.mul_denotes_cast x y
  rwa [Fe.Denotes, ← Nat.cast_mul, ZMod.val_natCast] at hproduct

end GaussMatrix.Util.Curve25519
