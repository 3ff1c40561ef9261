import GaussMatrix.Util.Hashing

/-!
# UTF-8

Bytes read back as text.  A byte below 0x80 is an ASCII character and no part of any other, so a
search for one in the bytes is a search for the character in the text.
-/

namespace GaussMatrix.Util

open Library

/-- Decode UTF-8. -/
def fromUtf8 (bytes : List UInt8) : Option Str :=
  (ByteArray.mk bytes.toArray).utf8Decode?.map Array.toList

theorem fromUtf8_eq_some_iff {bytes : List UInt8} {s : Str} :
    fromUtf8 bytes = some s ↔ bytes = utf8Bytes s := by
  have htext : ∀ t : Str, t.utf8Encode = bytes.toByteArray ↔ utf8Bytes t = bytes := by
    intro t
    rw [List.utf8Encode, List.toByteArray_inj]
    rfl
  have hbytes : ByteArray.mk bytes.toArray = bytes.toByteArray :=
    ByteArray.ext List.data_toByteArray.symm
  rw [fromUtf8, hbytes, Option.map_eq_some_iff]
  constructor
  · rintro ⟨chars, hchars, rfl⟩
    have hsome : (bytes.toByteArray.utf8Decode?).isSome := by rw [hchars]; rfl
    have h := ByteArray.utf8Encode_get_utf8Decode? (h := hsome)
    simp only [hchars, Option.get_some] at h
    exact ((htext _).mp h).symm
  · rintro rfl
    refine ⟨s.toArray, ?_, rfl⟩
    rw [← (htext s).mpr rfl, List.utf8Decode?_utf8Encode]

@[simp] theorem fromUtf8_utf8Bytes (s : Str) : fromUtf8 (utf8Bytes s) = some s :=
  fromUtf8_eq_some_iff.mpr rfl

@[simp] theorem utf8Bytes_nil : utf8Bytes [] = [] := rfl

theorem utf8Bytes_cons (c : Char) (s : Str) :
    utf8Bytes (c :: s) = String.utf8EncodeChar c ++ utf8Bytes s := rfl

theorem utf8Bytes_append (s t : Str) : utf8Bytes (s ++ t) = utf8Bytes s ++ utf8Bytes t :=
  List.flatMap_append

/-! ## ASCII -/

theorem utf8EncodeChar_ascii {c : Char} (h : c.toNat < 0x80) :
    String.utf8EncodeChar c = [UInt8.ofNat c.toNat] := by
  have hle : c.val.toNat ≤ 0x7f := Nat.le_of_lt_succ h
  exact if_pos hle

/-- A character past ASCII has only high bytes. -/
theorem high_of_mem_utf8EncodeChar {c : Char} (h : 0x80 ≤ c.toNat) {b : UInt8}
    (hb : b ∈ String.utf8EncodeChar c) : 0x80 ≤ b.toNat := by
  have hgt : ¬ c.val.toNat ≤ 0x7f := Nat.not_le.mpr h
  -- Each byte is the low bits of a number with the high bits of a prefix over them.
  have hbyte : ∀ n m k : Nat, m + k ≤ 256 → 0 < m → 0x80 ≤ k →
      0x80 ≤ (UInt8.ofNat (n % m + k)).toNat := by
    intro n m k hmk hm hk
    have hlt := Nat.mod_lt n hm
    rw [UInt8.toNat_ofNat', Nat.mod_eq_of_lt (by omega)]
    omega
  simp only [String.utf8EncodeChar, hgt, if_false] at hb
  split at hb
  · simp only [List.mem_cons, List.not_mem_nil, or_false] at hb
    rcases hb with rfl | rfl <;> exact hbyte _ _ _ (by decide) (by decide) (by decide)
  · split at hb <;> simp only [List.mem_cons, List.not_mem_nil, or_false] at hb
    · rcases hb with rfl | rfl | rfl <;> exact hbyte _ _ _ (by decide) (by decide) (by decide)
    · rcases hb with rfl | rfl | rfl | rfl <;>
        exact hbyte _ _ _ (by decide) (by decide) (by decide)

/-- An ASCII byte stands for its character. -/
theorem ascii_mem_utf8EncodeChar {c d : Char} (hc : c.toNat < 0x80) :
    UInt8.ofNat c.toNat ∈ String.utf8EncodeChar d ↔ c = d := by
  have htoNat : ∀ {e : Char}, e.toNat < 0x80 → (UInt8.ofNat e.toNat).toNat = e.toNat := by
    intro e he
    rw [UInt8.toNat_ofNat', Nat.mod_eq_of_lt (by omega)]
  constructor
  · intro h
    rcases Nat.lt_or_ge d.toNat 0x80 with hd | hd
    · rw [utf8EncodeChar_ascii hd, List.mem_singleton] at h
      have hnat := congrArg UInt8.toNat h
      rw [htoNat hc, htoNat hd] at hnat
      exact Char.toNat_inj.mp hnat
    · have hhigh := high_of_mem_utf8EncodeChar hd h
      rw [htoNat hc] at hhigh
      omega
  · rintro rfl
    rw [utf8EncodeChar_ascii hc]
    exact List.mem_singleton_self _

theorem ascii_mem_utf8Bytes {c : Char} (hc : c.toNat < 0x80) {s : Str} :
    UInt8.ofNat c.toNat ∈ utf8Bytes s ↔ c ∈ s := by
  rw [utf8Bytes, List.mem_flatMap]
  simp only [ascii_mem_utf8EncodeChar hc]
  simp

/-! ## Text that is not UTF-8 -/

/-- The ranges of the bytes that may follow a first byte. -/
def continuations (b : UInt8) : Option (List (UInt8 × UInt8)) :=
  let tail : UInt8 × UInt8 := (0x80, 0xbf)
  if b < 0x80 then some []
  else if 0xc2 ≤ b ∧ b ≤ 0xdf then some [tail]
  else if b = 0xe0 then some [(0xa0, 0xbf), tail]
  else if b = 0xed then some [(0x80, 0x9f), tail]
  else if 0xe1 ≤ b ∧ b ≤ 0xef then some [tail, tail]
  else if b = 0xf0 then some [(0x90, 0xbf), tail, tail]
  else if 0xf1 ≤ b ∧ b ≤ 0xf3 then some [tail, tail, tail]
  else if b = 0xf4 then some [(0x80, 0x8f), tail, tail]
  else none

/-- How many bytes are in their ranges before the first that is not. -/
def inRange : List (UInt8 × UInt8) → List UInt8 → Nat
  | (lo, hi) :: ranges, b :: bytes => if lo ≤ b ∧ b ≤ hi then inRange ranges bytes + 1 else 0
  | _, _ => 0

/-- Decode, with a replacement for each longest part of a character that is cut short; so many bytes
belong to the character before. -/
def replaceInvalid : Nat → List UInt8 → Str
  | _, [] => []
  | skip + 1, _ :: bytes => replaceInvalid skip bytes
  | 0, b :: bytes =>
      match continuations b with
      | none => '\ufffd' :: replaceInvalid 0 bytes
      | some ranges =>
          let n := inRange ranges bytes
          let char := if n = ranges.length then fromUtf8 (b :: bytes.take n) else none
          char.getD ['\ufffd'] ++ replaceInvalid n bytes

def fromUtf8Lossy (bytes : List UInt8) : Str := (fromUtf8 bytes).getD (replaceInvalid 0 bytes)

example : fromUtf8Lossy [0x61, 0xe2, 0x82, 0x62, 0xff, 0xc3, 0xa9] = "a\ufffdb\ufffdé".toList := by
  decide +kernel

@[simp] theorem fromUtf8Lossy_utf8Bytes (s : Str) : fromUtf8Lossy (utf8Bytes s) = s := by
  rw [fromUtf8Lossy, fromUtf8_utf8Bytes]
  rfl

end GaussMatrix.Util
