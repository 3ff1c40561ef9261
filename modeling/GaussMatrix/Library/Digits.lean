import Mathlib.Data.Nat.Digits.Defs

/-!
# Numbers by their digits

Little-endian digits in a power of a base, the digits of digits, and loops over the bits of a number
from the top.
-/

namespace GaussMatrix.Library

/-- Induction over two lists of one length. -/
@[elab_as_elim]
theorem sameLength_induction {α β : Type*}
    {motive : (a : List α) → (b : List β) → a.length = b.length → Prop} (nil : motive [] [] rfl)
    (cons : ∀ x xs y ys (h : xs.length = ys.length), motive xs ys h →
      motive (x :: xs) (y :: ys) (congrArg Nat.succ h)) :
    ∀ a b h, motive a b h
  | [], [], _ => nil
  | x :: xs, y :: ys, h =>
      cons x xs y ys (Nat.succ.inj h) (sameLength_induction nil cons xs ys (Nat.succ.inj h))

/-! ## Regrouping digits -/

/-- The `k` low digits of a number. -/
def lowDigits (b k n : Nat) : List Nat := (List.range k).map fun i => n / b ^ i % b

theorem ofDigits_lowDigits (b k n : Nat) : Nat.ofDigits b (lowDigits b k n) = n % b ^ k := by
  induction k with
  | zero => simp [lowDigits, Nat.mod_one]
  | succ k ih =>
      rw [lowDigits] at ih ⊢
      rw [List.range_succ, List.map_append, Nat.ofDigits_append, ih, Nat.mod_pow_succ]
      simp

/-- Digits written out in their own digits. -/
theorem ofDigits_flatMap_lowDigits (b k : Nat) (digits : List Nat) (h : ∀ n ∈ digits, n < b ^ k) :
    Nat.ofDigits b (digits.flatMap (lowDigits b k)) = Nat.ofDigits (b ^ k) digits := by
  induction digits with
  | nil => rfl
  | cons n digits ih =>
      rw [List.flatMap_cons, Nat.ofDigits_append, Nat.ofDigits_cons, ofDigits_lowDigits,
        Nat.mod_eq_of_lt (h n List.mem_cons_self),
        ih fun n' hn' => h n' (List.mem_cons_of_mem _ hn'), lowDigits, List.length_map,
        List.length_range]

/-- Digits read in groups. -/
theorem ofDigits_groups (b k n : Nat) (digits : List Nat) (h : digits.length = k * n) :
    Nat.ofDigits (b ^ k)
        ((List.range n).map fun i => Nat.ofDigits b ((digits.drop (k * i)).take k)) =
      Nat.ofDigits b digits := by
  induction n generalizing digits with
  | zero =>
      rw [Nat.mul_zero, List.length_eq_zero_iff] at h
      rw [h]
      rfl
  | succ n ih =>
      rw [Nat.mul_succ] at h
      have htake : (digits.take k).length = k := by
        rw [List.length_take]
        omega
      have hrest := ih (digits.drop k) (by rw [List.length_drop]; omega)
      simp only [List.drop_drop] at hrest
      rw [List.range_succ_eq_map, List.map_cons, List.map_map, Nat.ofDigits_cons]
      simp only [Function.comp_def, Nat.mul_succ, Nat.add_comm (k * _) k, Nat.mul_zero,
        List.drop_zero]
      rw [hrest]
      conv_rhs => rw [← List.take_append_drop k digits, Nat.ofDigits_append, htake]

/-! ## Bits from the top -/

/-- The number whose bits, from the top, are given. -/
def ofBits (bits : List Bool) : Nat := bits.foldl (fun n bit => 2 * n + bit.toNat) 0

/-- What a loop over bits keeps when it doubles at each bit and adds one at each that is set. -/
theorem foldl_bits {α : Type*} {R : α → Nat → Prop} {step : α → Bool → α}
    (hstep : ∀ a n bit, R a n → R (step a bit) (2 * n + bit.toNat)) {a : α} (ha : R a 0)
    (bits : List Bool) : R (bits.foldl step a) (ofBits bits) := by
  have hrun : ∀ a n, R a n →
      R (bits.foldl step a) (bits.foldl (fun n bit => 2 * n + bit.toNat) n) := by
    induction bits with
    | nil => exact fun a n h => h
    | cons bit bits ih => exact fun a n h => ih _ _ (hstep a n bit h)
  exact hrun a 0 ha

theorem foldl_bits_from (bits : List Bool) (n : Nat) :
    bits.foldl (fun n bit => 2 * n + bit.toNat) n = n * 2 ^ bits.length + ofBits bits := by
  induction bits generalizing n with
  | nil => simp [ofBits]
  | cons bit bits ih =>
      rw [ofBits, List.foldl_cons, List.foldl_cons, ih, ih (2 * 0 + bit.toNat), List.length_cons,
        Nat.pow_succ]
      simp only [Nat.mul_zero, Nat.zero_add, Nat.add_mul]
      rw [Nat.mul_comm 2 n, Nat.mul_assoc, Nat.mul_comm 2, Nat.add_assoc]

/-- The bits of a number below a width, from the top. -/
theorem ofBits_testBit (width n : Nat) :
    ofBits ((List.range width).reverse.map n.testBit) = n % 2 ^ width := by
  induction width with
  | zero => simp [ofBits, Nat.mod_one]
  | succ width ih =>
      rw [List.range_succ, List.reverse_concat, List.map_cons, ofBits, List.foldl_cons,
        foldl_bits_from, ih, List.length_map, List.length_reverse, List.length_range,
        Nat.mod_pow_succ, Nat.mul_zero, Nat.zero_add, Nat.toNat_testBit]
      rw [Nat.add_comm, Nat.mul_comm]

/-- The bits of digits of a width, from the top: bit `i` is bit `i % w` of digit `i / w`. -/
def bitsDown (w : Nat) (digits : List Nat) : List Bool :=
  (List.range (w * digits.length)).reverse.map fun i => (digits.getD (i / w) 0).testBit (i % w)

theorem testBit_ofDigits {w : Nat} (hw : 0 < w) {digits : List Nat} (h : ∀ n ∈ digits, n < 2 ^ w)
    (i : Nat) :
    (Nat.ofDigits (2 ^ w) digits).testBit i = (digits.getD (i / w) 0).testBit (i % w) := by
  induction digits generalizing i with
  | nil => simp
  | cons n digits ih =>
      rw [Nat.ofDigits_cons, Nat.add_comm,
        Nat.testBit_two_pow_mul_add _ (h n List.mem_cons_self)]
      by_cases hi : i < w
      · rw [if_pos hi, Nat.div_eq_of_lt hi, Nat.mod_eq_of_lt hi, List.getD_cons_zero]
      · have hge : w ≤ i := Nat.le_of_not_lt hi
        rw [if_neg hi, ih fun n' hn' => h n' (List.mem_cons_of_mem _ hn'),
          Nat.div_eq_sub_div hw hge, List.getD_cons_succ, Nat.mod_eq_sub_mod hge]

theorem ofBits_bitsDown {w : Nat} (hw : 0 < w) {digits : List Nat} (h : ∀ n ∈ digits, n < 2 ^ w) :
    ofBits (bitsDown w digits) = Nat.ofDigits (2 ^ w) digits := by
  have hlt : Nat.ofDigits (2 ^ w) digits < 2 ^ (w * digits.length) := by
    rw [Nat.pow_mul]
    exact Nat.ofDigits_lt_base_pow_length (Nat.one_lt_two_pow hw.ne') h
  have hbits := ofBits_testBit (w * digits.length) (Nat.ofDigits (2 ^ w) digits)
  rw [Nat.mod_eq_of_lt hlt] at hbits
  rw [← hbits]
  exact congrArg ofBits (List.map_congr_left fun i _ => (testBit_ofDigits hw h i).symm)

end GaussMatrix.Library
