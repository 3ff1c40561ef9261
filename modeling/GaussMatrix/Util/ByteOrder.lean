import GaussMatrix.Util.Utf8

/-!
# The order of bytes

Byte strings are ordered as text is: the encoding of the smaller of two characters is the smaller
whatever follows, since its bytes are its digits behind a mark of how many there are.
-/

namespace GaussMatrix.Util

open Library

instance byteLinearOrder : LinearOrder UInt8 where
  lt := (· < ·)
  le := (· ≤ ·)
  le_refl _ := UInt8.le_refl _
  le_trans _ _ _ := UInt8.le_trans
  lt_iff_le_not_ge a b := by
    rw [UInt8.le_iff_toNat_le, UInt8.le_iff_toNat_le, UInt8.lt_iff_toNat_lt]
    exact Nat.lt_iff_le_and_not_ge
  le_antisymm _ _ := UInt8.le_antisymm
  le_total := UInt8.le_total
  toDecidableLE := inferInstance

abbrev Bytes := List UInt8

theorem byte_lt_iff {m n : Nat} (hm : m < 256) (hn : n < 256) :
    UInt8.ofNat m < UInt8.ofNat n ↔ m < n := by
  rw [UInt8.lt_iff_toNat_lt, UInt8.toNat_ofNat', UInt8.toNat_ofNat', Nat.mod_eq_of_lt hm,
    Nat.mod_eq_of_lt hn]

theorem byte_eq_iff {m n : Nat} (hm : m < 256) (hn : n < 256) :
    UInt8.ofNat m = UInt8.ofNat n ↔ m = n := by
  rw [← UInt8.toNat_inj, UInt8.toNat_ofNat', UInt8.toNat_ofNat', Nat.mod_eq_of_lt hm,
    Nat.mod_eq_of_lt hn]

theorem digit_lt (m n : Nat) : m < n ↔ m / 64 < n / 64 ∨ m / 64 = n / 64 ∧ m % 64 < n % 64 := by
  omega

theorem utf8EncodeChar_lt {c d : Char} (h : c < d) (x y : Bytes) :
    String.utf8EncodeChar c ++ x < String.utf8EncodeChar d ++ y := by
  have hlt : c.val.toNat < d.val.toNat := by
    rw [Char.lt_def, UInt32.lt_iff_toNat_lt] at h
    exact h
  have hd : d.val.toNat < 0x110000 := by
    have hvalid : d.val.toNat < 0xd800 ∨ 0xdfff < d.val.toNat ∧ d.val.toNat < 0x110000 := d.valid
    omega
  simp only [String.utf8EncodeChar]
  generalize c.val.toNat = m at *
  generalize d.val.toNat = n at *
  have hlast := digit_lt m n
  have hthird := digit_lt (m / 64) (n / 64)
  have hsecond := digit_lt (m / 64 / 64) (n / 64 / 64)
  simp only [Nat.div_div_eq_div_mul, Nat.reduceMul] at hthird hsecond
  have hmFirst : m / 262144 % 8 = m / 262144 := Nat.mod_eq_of_lt (by omega)
  have hnFirst : n / 262144 % 8 = n / 262144 := Nat.mod_eq_of_lt (by omega)
  -- With as many bytes the digits are compared, with fewer the first byte is smaller.
  split_ifs
  all_goals
    first
    | omega
    | apply List.cons_lt_cons_iff.mpr
      left
      rw [byte_lt_iff (by omega) (by omega)]
      omega
    | refine append_lt_append_of_lt (by rfl) ?_ x y
      simp (disch := omega) only [List.cons_lt_cons_iff, byte_lt_iff, byte_eq_iff,
        List.not_lt_nil, and_false, or_false]
      omega

theorem utf8EncodeChar_ne_nil (c : Char) : String.utf8EncodeChar c ≠ [] := by
  simp only [String.utf8EncodeChar]
  split_ifs <;> exact List.cons_ne_nil _ _

/-- Text is ordered as its bytes are. -/
theorem utf8Bytes_strictMono : StrictMono utf8Bytes := by
  intro s t h
  induction s generalizing t with
  | nil =>
      cases t with
      | nil => exact absurd h (lt_irrefl _)
      | cons d ds =>
          rw [utf8Bytes_nil, utf8Bytes_cons]
          obtain ⟨b, bs, hbytes⟩ := List.exists_cons_of_ne_nil (utf8EncodeChar_ne_nil d)
          rw [hbytes, List.cons_append]
          exact List.nil_lt_cons _ _
  | cons c cs ih =>
      cases t with
      | nil => exact absurd h (List.not_lt_nil _)
      | cons d ds =>
          rw [utf8Bytes_cons, utf8Bytes_cons]
          rcases List.cons_lt_cons_iff.mp h with hhead | ⟨rfl, htail⟩
          · exact utf8EncodeChar_lt hhead _ _
          · exact List.append_left_lt (ih htail)

end GaussMatrix.Util
