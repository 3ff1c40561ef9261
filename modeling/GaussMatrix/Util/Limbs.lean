import GaussMatrix.Library.Digits
import Mathlib.Data.Vector.Basic
import Mathlib.Tactic.Linarith
import Mathlib.Tactic.Ring

/-!
# Arithmetic on limbs

Numbers of 256 and 512 bits as little-endian 64-bit limbs, with the carry loops of the signature
code. The 128-bit accumulators are naturals here: no loop makes one overflow.
-/

namespace GaussMatrix.Util.Curve25519

open Library

/-- `n` little-endian limbs. -/
abbrev Limbs (n : Nat) := List.Vector UInt64 n

-- Named, so that an index is one term whatever else is imported.
instance neZeroFour : NeZero 4 := ⟨by decide⟩

instance neZeroEight : NeZero 8 := ⟨by decide⟩

instance neZeroThirtyTwo : NeZero 32 := ⟨by decide⟩

/-! ## Values -/

/-- The value of little-endian limbs. -/
def limbsValue (a : List UInt64) : Nat := Nat.ofDigits (2 ^ 64) (a.map UInt64.toNat)

@[simp] theorem limbsValue_nil : limbsValue [] = 0 := rfl

@[simp]
theorem limbsValue_cons (a : UInt64) (as : List UInt64) :
    limbsValue (a :: as) = a.toNat + 2 ^ 64 * limbsValue as := Nat.ofDigits_cons

theorem limbs_pow_succ (n : Nat) : (2 ^ 64) ^ (n + 1) = 2 ^ 64 * (2 ^ 64) ^ n := Nat.pow_succ'

theorem toNat_mem_lt {a : List UInt64} : ∀ n ∈ a.map UInt64.toNat, n < 2 ^ 64 := by
  intro n hn
  obtain ⟨limb, -, rfl⟩ := List.mem_map.mp hn
  exact limb.toNat_lt

theorem limbsValue_lt (a : List UInt64) : limbsValue a < (2 ^ 64) ^ a.length := by
  have h := Nat.ofDigits_lt_base_pow_length (by decide) (toNat_mem_lt (a := a))
  rwa [List.length_map] at h

theorem limbsValue_inj {a b : List UInt64} (hlen : a.length = b.length)
    (h : limbsValue a = limbsValue b) : a = b := by
  have hmap := Nat.ofDigits_inj_of_len_eq (by decide) (by rwa [List.length_map, List.length_map])
    toNat_mem_lt toNat_mem_lt h
  exact (List.map_injective_iff.mpr fun _ _ => UInt64.toNat_inj.mp) hmap

namespace Limbs

variable {n : Nat}

def value (a : Limbs n) : Nat := limbsValue a.toList

theorem value_lt (a : Limbs n) : a.value < (2 ^ 64) ^ n := by
  have h := limbsValue_lt a.toList
  rwa [a.toList_length] at h

theorem value_lt_256 (a : Limbs 4) : a.value < 2 ^ 256 := a.value_lt

theorem value_inj {a b : Limbs n} (h : a.value = b.value) : a = b :=
  Subtype.ext (limbsValue_inj (a.2.trans b.2.symm) h)

/-- Four limbs, the lowest first. -/
def four (a b c d : UInt64) : Limbs 4 := ⟨[a, b, c, d], rfl⟩

theorem four_value (a b c d : UInt64) :
    (four a b c d).value =
      a.toNat + 2 ^ 64 * (b.toNat + 2 ^ 64 * (c.toNat + 2 ^ 64 * d.toNat)) := by
  simp [four, value]

theorem single_value (n : UInt64) : (four n 0 0 0).value = n.toNat := by
  rw [four_value, UInt64.toNat_zero]
  rfl

theorem four_get (v : Limbs 4) : four (v.get 0) (v.get 1) (v.get 2) (v.get 3) = v := by
  obtain ⟨_ | ⟨a, _ | ⟨b, _ | ⟨c, _ | ⟨d, _ | ⟨e, l⟩⟩⟩⟩⟩, h⟩ := v <;> simp at h
  rfl

theorem value_eight (w : Limbs 8) :
    w.value = (four (w.get 0) (w.get 1) (w.get 2) (w.get 3)).value +
      2 ^ 256 * (four (w.get 4) (w.get 5) (w.get 6) (w.get 7)).value := by
  obtain
    ⟨_ | ⟨a, _ | ⟨b, _ | ⟨c, _ | ⟨d, _ | ⟨e, _ | ⟨f, _ | ⟨g, _ | ⟨i, _ | ⟨j, l⟩⟩⟩⟩⟩⟩⟩⟩⟩, h⟩ := w <;>
      simp at h
  simp [four, value, List.Vector.get]
  omega

end Limbs

theorem toNat_ofNat64 (n : Nat) : (UInt64.ofNat n).toNat = n % 2 ^ 64 := UInt64.toNat_ofNat'

/-! ## Carry loops -/

/-- The loop of `add_limbs` and of `mul38_add`: the carries of a multiple of `a` and `b`. -/
def carryLoop (scale : Nat) : List UInt64 → List UInt64 → Nat → List UInt64 × Nat
  | a :: as, b :: bs, carry =>
      let s := a.toNat * scale + b.toNat + carry
      let rest := carryLoop scale as bs (s / 2 ^ 64)
      (UInt64.ofNat s :: rest.1, rest.2)
  | _, _, carry => ([], carry)

theorem carryLoop_length (scale : Nat) (a b : List UInt64) (carry : Nat) (h : a.length = b.length) :
    (carryLoop scale a b carry).1.length = a.length := by
  induction a, b, h using sameLength_induction generalizing carry with
  | nil => rfl
  | cons a as b bs hlen ih => simp [carryLoop, ih]

theorem carryLoop_value (scale : Nat) (a b : List UInt64) (carry : Nat) (h : a.length = b.length) :
    limbsValue (carryLoop scale a b carry).1 +
        (2 ^ 64) ^ a.length * (carryLoop scale a b carry).2 =
      limbsValue a * scale + limbsValue b + carry := by
  induction a, b, h using sameLength_induction generalizing carry with
  | nil => simp [carryLoop]
  | cons a as b bs hlen ih =>
      have hrest := ih ((a.toNat * scale + b.toNat + carry) / 2 ^ 64)
      have hscale : (a.toNat + 2 ^ 64 * limbsValue as) * scale =
          a.toNat * scale + 2 ^ 64 * (limbsValue as * scale) := by ring
      simp only [carryLoop, limbsValue_cons, toNat_ofNat64, List.length_cons, limbs_pow_succ,
        Nat.mul_assoc, hscale]
      -- The carry's weight is not linear; to the step it is one number.
      generalize (2 ^ 64) ^ as.length * _ = weighted at hrest ⊢
      omega

/-- The limbs and the carry of a multiple of `a` and `b`. -/
def addScaled (scale : Nat) (a b : Limbs 4) : Limbs 4 × UInt64 :=
  let r := carryLoop scale a.toList b.toList 0
  (⟨r.1, (carryLoop_length _ _ _ _ (a.2.trans b.2.symm)).trans a.2⟩, UInt64.ofNat r.2)

/-- With a factor of 38 or less the carry fits a limb. -/
theorem addScaled_value {scale : Nat} (hscale : scale ≤ 38) (a b : Limbs 4) :
    (addScaled scale a b).1.value + 2 ^ 256 * (addScaled scale a b).2.toNat =
      a.value * scale + b.value := by
  have h := carryLoop_value scale a.toList b.toList 0 (a.2.trans b.2.symm)
  rw [a.toList_length] at h
  have ha : a.value * scale ≤ 2 ^ 256 * 38 := Nat.mul_le_mul a.value_lt_256.le hscale
  have hb := b.value_lt_256
  have hcarry : (carryLoop scale a.toList b.toList 0).2 < 2 ^ 64 := by
    simp only [Limbs.value] at ha hb
    omega
  simp only [addScaled, toNat_ofNat64, Nat.mod_eq_of_lt hcarry]
  exact h

def addLimbs (a b : Limbs 4) : Limbs 4 × UInt64 := addScaled 1 a b

theorem addLimbs_value (a b : Limbs 4) :
    (addLimbs a b).1.value + 2 ^ 256 * (addLimbs a b).2.toNat = a.value + b.value := by
  rw [addLimbs, addScaled_value (by decide), Nat.mul_one]

def addSmall (a : Limbs 4) (n : UInt64) : Limbs 4 := (addLimbs a (Limbs.four n 0 0 0)).1

/-- `base + 38 * hi`. -/
def mul38Add (hi base : Limbs 4) : Limbs 4 × UInt64 := addScaled 38 hi base

theorem mul38Add_value (hi base : Limbs 4) :
    (mul38Add hi base).1.value + 2 ^ 256 * (mul38Add hi base).2.toNat =
      base.value + 38 * hi.value := by
  rw [mul38Add, addScaled_value (Nat.le_refl 38), Nat.mul_comm, Nat.add_comm]

/-! ## Subtraction -/

/-- The loop of `sub_limbs`. -/
def subBorrow : List UInt64 → List UInt64 → Nat → List UInt64 × Nat
  | a :: as, b :: bs, borrow =>
      let d : Int := a.toNat - b.toNat - borrow
      if d < 0 then
        let rest := subBorrow as bs 1
        (UInt64.ofNat (d + 2 ^ 64).toNat :: rest.1, rest.2)
      else
        let rest := subBorrow as bs 0
        (UInt64.ofNat d.toNat :: rest.1, rest.2)
  | _, _, borrow => ([], borrow)

theorem subBorrow_length (a b : List UInt64) (borrow : Nat) (h : a.length = b.length) :
    (subBorrow a b borrow).1.length = a.length := by
  induction a, b, h using sameLength_induction generalizing borrow with
  | nil => rfl
  | cons a as b bs hlen ih =>
      rw [subBorrow]
      split
      · simp [ih]
      · simp [ih]

theorem subBorrow_value (a b : List UInt64) (borrow : Nat) (h : a.length = b.length)
    (hborrow : borrow ≤ 1) :
    limbsValue (subBorrow a b borrow).1 + limbsValue b + borrow =
        limbsValue a + (2 ^ 64) ^ a.length * (subBorrow a b borrow).2 ∧
      (subBorrow a b borrow).2 ≤ 1 := by
  induction a, b, h using sameLength_induction generalizing borrow with
  | nil => simpa [subBorrow] using hborrow
  | cons a as b bs hlen ih =>
      have ha := a.toNat_lt
      have hb := b.toNat_lt
      rw [subBorrow]
      split
      next hneg =>
        obtain ⟨hrest, hle⟩ := ih 1 (Nat.le_refl 1)
        refine ⟨?_, hle⟩
        simp only [limbsValue_cons, toNat_ofNat64, List.length_cons, limbs_pow_succ, Nat.mul_assoc]
        generalize (2 ^ 64) ^ as.length * _ = weighted at hrest ⊢
        omega
      next hpos =>
        obtain ⟨hrest, hle⟩ := ih 0 (Nat.zero_le 1)
        refine ⟨?_, hle⟩
        simp only [limbsValue_cons, toNat_ofNat64, List.length_cons, limbs_pow_succ, Nat.mul_assoc]
        generalize (2 ^ 64) ^ as.length * _ = weighted at hrest ⊢
        omega

def subLimbs (a b : Limbs 4) : Limbs 4 × UInt64 :=
  let r := subBorrow a.toList b.toList 0
  (⟨r.1, (subBorrow_length _ _ _ (a.2.trans b.2.symm)).trans a.2⟩, UInt64.ofNat r.2)

theorem subLimbs_value (a b : Limbs 4) :
    (subLimbs a b).1.value + b.value = a.value + 2 ^ 256 * (subLimbs a b).2.toNat := by
  obtain ⟨h, hle⟩ := subBorrow_value a.toList b.toList 0 (a.2.trans b.2.symm) (Nat.zero_le 1)
  rw [a.toList_length] at h
  have hborrow : (subBorrow a.toList b.toList 0).2 < 2 ^ 64 := by omega
  simp only [subLimbs, toNat_ofNat64, Nat.mod_eq_of_lt hborrow]
  exact h

/-! ## Comparison -/

/-- The topmost limbs that differ decide. -/
def lessThan (a b : Limbs 4) : Bool :=
  match (a.toList.zip b.toList).reverse.find? fun x => x.1 ≠ x.2 with
  | some x => x.1 < x.2
  | none => false

theorem find?_differing (a b : List UInt64) (h : a.length = b.length) :
    match (a.zip b).reverse.find? fun x => x.1 ≠ x.2 with
    | some x =>
        limbsValue a ≠ limbsValue b ∧ (limbsValue a < limbsValue b ↔ x.1 < x.2)
    | none => limbsValue a = limbsValue b := by
  induction a, b, h using sameLength_induction with
  | nil => rfl
  | cons a as b bs hlen hrest =>
      have ha := a.toNat_lt
      have hb := b.toNat_lt
      rw [List.zip_cons_cons, List.reverse_cons, List.find?_append]
      -- The limbs above decide unless they agree; then the limb at hand does.
      cases hfind : (as.zip bs).reverse.find? fun x => x.1 ≠ x.2 with
      | some x =>
          simp only [hfind] at hrest
          simp only [Option.some_or, limbsValue_cons]
          rw [← hrest.2]
          omega
      | none =>
          simp only [hfind] at hrest
          by_cases hab : a = b
          · simp [hab, hrest]
          · have hne : a.toNat ≠ b.toNat := fun heq => hab (UInt64.toNat_inj.mp heq)
            simp only [Option.none_or, List.find?_singleton, ne_eq, hab, not_false_eq_true,
              decide_true, if_true, limbsValue_cons, UInt64.lt_iff_toNat_lt]
            omega

theorem lessThan_iff (a b : Limbs 4) : lessThan a b = true ↔ a.value < b.value := by
  have h := find?_differing a.toList b.toList (a.2.trans b.2.symm)
  rw [lessThan, Limbs.value, Limbs.value]
  split
  next x hfind =>
    simp only [hfind] at h
    rw [h.2, decide_eq_true_iff]
  next hfind =>
    simp only [hfind] at h
    simp [h]

/-! ## Multiplication -/

-- The source would index past the last limb; `propagate_value` says no carry is left there.
/-- The loop that carries on through the limbs above a row. -/
def propagate : List UInt64 → Nat → List UInt64
  | o :: out, carry =>
      if carry = 0 then o :: out
      else UInt64.ofNat (o.toNat + carry) :: propagate out ((o.toNat + carry) / 2 ^ 64)
  | [], _ => []

/-- The inner loop of `mul_wide`, from the limb of `out` it starts at. -/
def mulRow (a : UInt64) : List UInt64 → List UInt64 → Nat → List UInt64
  | o :: out, b :: bs, carry =>
      let cur := o.toNat + a.toNat * b.toNat + carry
      UInt64.ofNat cur :: mulRow a out bs (cur / 2 ^ 64)
  | out, _, carry => propagate out carry

/-- The outer loop of `mul_wide`: each row starts one limb higher. -/
def mulRows : List UInt64 → List UInt64 → List UInt64 → List UInt64
  | a :: as, b, out =>
      match mulRow a out b 0 with
      | o :: out => o :: mulRows as b out
      | [] => []
  | [], _, out => out

/-- A row's accumulator fits 128 bits, and what it carries on fits a limb. -/
theorem mulRow_accumulator (o a b : UInt64) {carry : Nat} (h : carry < 2 ^ 64) :
    o.toNat + a.toNat * b.toNat + carry < 2 ^ 128 ∧
      (o.toNat + a.toNat * b.toNat + carry) / 2 ^ 64 < 2 ^ 64 := by
  have ho := o.toNat_lt
  have hprod : a.toNat * b.toNat ≤ (2 ^ 64 - 1) * (2 ^ 64 - 1) :=
    Nat.mul_le_mul (Nat.le_pred_of_lt a.toNat_lt) (Nat.le_pred_of_lt b.toNat_lt)
  omega

theorem propagate_length (out : List UInt64) (carry : Nat) :
    (propagate out carry).length = out.length := by
  induction out generalizing carry with
  | nil => rfl
  | cons o out ih =>
      rw [propagate]
      split
      · rfl
      · simp [ih]

theorem mulRow_length (a : UInt64) (out b : List UInt64) (carry : Nat) :
    (mulRow a out b carry).length = out.length := by
  induction out generalizing b carry with
  | nil => simp [mulRow, propagate]
  | cons o out ih =>
      cases b with
      | nil => exact propagate_length _ _
      | cons b bs => simp [mulRow, ih]

theorem mulRows_length (a b out : List UInt64) : (mulRows a b out).length = out.length := by
  induction a generalizing out with
  | nil => rfl
  | cons a as ih =>
      have hrow := mulRow_length a out b 0
      rw [mulRows]
      split
      next o out' heq =>
        rw [heq] at hrow
        simp [ih, ← hrow]
      next heq =>
        rw [heq] at hrow
        exact hrow

/-- No carry leaves the limbs when the sum fits them. -/
theorem propagate_value (out : List UInt64) (carry : Nat)
    (h : limbsValue out + carry < (2 ^ 64) ^ out.length) :
    limbsValue (propagate out carry) = limbsValue out + carry := by
  induction out generalizing carry with
  | nil =>
      simp only [limbsValue_nil, List.length_nil, Nat.pow_zero] at h
      simp only [propagate, limbsValue_nil]
      omega
  | cons o out ih =>
      simp only [limbsValue_cons, List.length_cons, limbs_pow_succ] at h
      rw [propagate]
      split
      next hzero => rw [hzero, Nat.add_zero]
      next hcarry =>
        have hrest := ih ((o.toNat + carry) / 2 ^ 64) (by
          generalize (2 ^ 64) ^ out.length = bound at h ⊢
          omega)
        simp only [limbsValue_cons, toNat_ofNat64, hrest]
        omega

theorem mulRow_value (a : UInt64) (out b : List UInt64) (carry : Nat) (hlen : b.length ≤ out.length)
    (h : limbsValue out + a.toNat * limbsValue b + carry < (2 ^ 64) ^ out.length) :
    limbsValue (mulRow a out b carry) = limbsValue out + a.toNat * limbsValue b + carry := by
  induction out generalizing b carry with
  | nil =>
      cases b with
      | nil => simpa [mulRow] using propagate_value [] carry (by simpa using h)
      | cons b bs => simp at hlen
  | cons o out ih =>
      cases b with
      | nil => simpa [mulRow] using propagate_value (o :: out) carry (by simpa using h)
      | cons b bs =>
          have hprod : a.toNat * (b.toNat + 2 ^ 64 * limbsValue bs) =
              a.toNat * b.toNat + 2 ^ 64 * (a.toNat * limbsValue bs) := by ring
          simp only [limbsValue_cons, List.length_cons, limbs_pow_succ, hprod] at h
          have hrest := ih bs ((o.toNat + a.toNat * b.toNat + carry) / 2 ^ 64)
            (Nat.le_of_succ_le_succ hlen) (by
              generalize (2 ^ 64) ^ out.length = bound at h ⊢
              omega)
          simp only [mulRow, limbsValue_cons, toNat_ofNat64, hrest, hprod]
          omega

theorem mulRows_value (a b out : List UInt64) (hlen : a.length + b.length ≤ out.length)
    (h : limbsValue out + limbsValue a * limbsValue b < (2 ^ 64) ^ out.length) :
    limbsValue (mulRows a b out) = limbsValue out + limbsValue a * limbsValue b := by
  induction a generalizing out with
  | nil => simp [mulRows]
  | cons a as ih =>
      have hprod : (a.toNat + 2 ^ 64 * limbsValue as) * limbsValue b =
          a.toNat * limbsValue b + 2 ^ 64 * (limbsValue as * limbsValue b) := by ring
      simp only [limbsValue_cons, hprod, List.length_cons] at h hlen
      have hrow := mulRow_value a out b 0 (by omega) (by
        generalize (2 ^ 64) ^ out.length = bound at h ⊢
        omega)
      have hrowLength := mulRow_length a out b 0
      rw [mulRows]
      split
      next o out' heq =>
        rw [heq, limbsValue_cons] at hrow
        rw [heq, List.length_cons] at hrowLength
        rw [← hrowLength, limbs_pow_succ] at h
        have hrest := ih out' (by omega) (by
          generalize (2 ^ 64) ^ out'.length = bound at h ⊢
          omega)
        simp only [limbsValue_cons, hrest, hprod]
        omega
      next heq =>
        rw [heq, List.length_nil] at hrowLength
        omega

def mulWide (a b : Limbs 4) : Limbs 8 :=
  ⟨mulRows a.toList b.toList (List.replicate 8 0),
    (mulRows_length _ _ _).trans List.length_replicate⟩

theorem mulWide_value (a b : Limbs 4) : (mulWide a b).value = a.value * b.value := by
  have hlt : a.value * b.value < (2 ^ 64) ^ 8 :=
    calc a.value * b.value < 2 ^ 256 * 2 ^ 256 := Nat.mul_lt_mul'' a.value_lt_256 b.value_lt_256
      _ = (2 ^ 64) ^ 8 := by norm_num
  have hzero : limbsValue (List.replicate 8 0) = 0 := by decide
  have h := mulRows_value a.toList b.toList (List.replicate 8 0)
    (by rw [a.toList_length, b.toList_length, List.length_replicate])
    (by rw [hzero, Nat.zero_add, List.length_replicate]; exact hlt)
  rw [hzero, Nat.zero_add] at h
  exact h

/-! ## Bytes -/

/-- The value of little-endian bytes. -/
def bytesValue (b : List UInt8) : Nat := Nat.ofDigits 256 (b.map UInt8.toNat)

theorem byte_toNat_mem_lt {b : List UInt8} : ∀ n ∈ b.map UInt8.toNat, n < 256 := by
  intro n hn
  obtain ⟨byte, -, rfl⟩ := List.mem_map.mp hn
  exact byte.toNat_lt

theorem bytesValue_lt (b : List UInt8) : bytesValue b < 256 ^ b.length := by
  have h := Nat.ofDigits_lt_base_pow_length (by decide) (byte_toNat_mem_lt (b := b))
  rwa [List.length_map] at h

theorem bytesValue_inj {a b : List UInt8} (hlen : a.length = b.length)
    (h : bytesValue a = bytesValue b) : a = b := by
  have hmap := Nat.ofDigits_inj_of_len_eq (by decide) (by rwa [List.length_map, List.length_map])
    byte_toNat_mem_lt byte_toNat_mem_lt h
  exact (List.map_injective_iff.mpr fun _ _ => UInt8.toNat_inj.mp) hmap

/-- The highest of 32 bytes. -/
theorem bytesValue_top (b : List.Vector UInt8 32) :
    bytesValue b.toList = bytesValue (b.toList.take 31) + 2 ^ 248 * (b.get 31).toNat := by
  have hlen : b.toList.length = 32 := b.toList_length
  have hsplit : b.toList = b.toList.take 31 ++ [b.get 31] := by
    rw [List.Vector.get_eq_get_toList]
    conv_lhs => rw [← List.take_append_drop 31 b.toList, List.drop_eq_getElem_cons (by omega)]
    simp [hlen]
  conv_lhs => rw [hsplit, bytesValue, List.map_append, Nat.ofDigits_append]
  simp [bytesValue, hlen]

theorem bytesValue_set_top (b : List.Vector UInt8 32) (top : UInt8) :
    bytesValue (b.set 31 top).toList = bytesValue (b.toList.take 31) + 2 ^ 248 * top.toNat := by
  rw [bytesValue_top, List.Vector.get_set_same, List.Vector.toList_set, List.take_set_of_le]
  exact Nat.le_refl 31

/-- `to_le_bytes` of a limb. -/
def toLeBytes (limb : UInt64) : List UInt8 :=
  (List.range 8).map fun i => UInt8.ofNat (limb.toNat / 256 ^ i)

/-- `from_le_bytes` of eight bytes. -/
def fromLeBytes (b : List UInt8) : UInt64 := UInt64.ofNat (bytesValue b)

theorem toLeBytes_digits (limb : UInt64) :
    (toLeBytes limb).map UInt8.toNat = lowDigits 256 8 limb.toNat := by
  rw [toLeBytes, lowDigits, List.map_map]
  exact List.map_congr_left fun i _ => UInt8.toNat_ofNat'

theorem length_flatMap_toLeBytes (limbs : List UInt64) :
    (limbs.flatMap toLeBytes).length = 8 * limbs.length := by
  rw [List.length_flatMap]
  simp [toLeBytes, Nat.mul_comm]

theorem bytesValue_flatMap_toLeBytes (limbs : List UInt64) :
    bytesValue (limbs.flatMap toLeBytes) = limbsValue limbs := by
  have h := ofDigits_flatMap_lowDigits 256 8 (limbs.map UInt64.toNat) toNat_mem_lt
  rw [List.flatMap_map] at h
  rw [bytesValue, List.map_flatMap]
  simp only [toLeBytes_digits]
  exact h

def limbsToLe (limbs : Limbs 4) : List.Vector UInt8 32 :=
  ⟨limbs.toList.flatMap toLeBytes, by rw [length_flatMap_toLeBytes, limbs.toList_length]⟩

theorem limbsToLe_value (limbs : Limbs 4) : bytesValue (limbsToLe limbs).toList = limbs.value :=
  bytesValue_flatMap_toLeBytes _

def leToLimbs (b : List.Vector UInt8 32) : Limbs 4 :=
  ⟨(List.range 4).map fun i => fromLeBytes ((b.toList.drop (8 * i)).take 8), by simp⟩

theorem leToLimbs_value (b : List.Vector UInt8 32) : (leToLimbs b).value = bytesValue b.toList := by
  have hgroup : ∀ i : Nat, (fromLeBytes ((b.toList.drop (8 * i)).take 8)).toNat =
      Nat.ofDigits 256 (((b.toList.map UInt8.toNat).drop (8 * i)).take 8) := by
    intro i
    have hlt := bytesValue_lt ((b.toList.drop (8 * i)).take 8)
    have hle : 256 ^ ((b.toList.drop (8 * i)).take 8).length ≤ 256 ^ 8 :=
      Nat.pow_le_pow_right (by decide) (List.length_take_le _ _)
    rw [fromLeBytes, toNat_ofNat64, Nat.mod_eq_of_lt (by omega), bytesValue, List.map_take,
      List.map_drop]
  have h := ofDigits_groups 256 8 4 (b.toList.map UInt8.toNat)
    (by rw [List.length_map, b.toList_length])
  simp only [← hgroup] at h
  rw [Limbs.value, limbsValue, leToLimbs, List.Vector.toList_mk, List.map_map]
  exact h

end GaussMatrix.Util.Curve25519
