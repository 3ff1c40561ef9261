import GaussMatrix.Http.Router

/-!
# Percent-encodings

A text may be encoded in many ways: any of its bytes may be escaped, in either case of the digits,
and some must be.  The decoder undoes each of them in which the percent sign is escaped.
-/

namespace GaussMatrix.Http

open Library Util

/-- The bytes of an encoding: a byte stands for itself unless it is reserved, or for its escape. -/
inductive EncodesBytes (reserved : Str) : List UInt8 → List UInt8 → Prop
  | nil : EncodesBytes reserved [] []
  | literal {b : UInt8} {bs cs : List UInt8} : b ∉ utf8Bytes reserved →
      EncodesBytes reserved bs cs → EncodesBytes reserved (b :: bs) (b :: cs)
  | escaped {h l hi lo : UInt8} {bs cs : List UInt8} : hexVal h = some hi → hexVal l = some lo →
      EncodesBytes reserved bs cs →
      EncodesBytes reserved ((hi <<< 4 ||| lo) :: bs) (0x25 :: h :: l :: cs)

/-- A percent-encoding of a text in which the reserved characters, and any others, are escaped. -/
def PercentEncodes (reserved s enc : Str) : Prop :=
  EncodesBytes reserved (utf8Bytes s) (utf8Bytes enc)

variable {reserved s enc : Str}

theorem percentDecodeBytes_of_encodes (hpercent : '%' ∈ reserved) {bs cs : List UInt8}
    (h : EncodesBytes reserved bs cs) : percentDecodeBytes cs = bs := by
  induction h with
  | nil => rfl
  | @literal b bs cs hb _ ih =>
      have hne : b ≠ 0x25 := by
        rintro rfl
        exact hb ((ascii_mem_utf8Bytes (by decide)).mpr hpercent)
      rcases cs with - | ⟨h, - | ⟨l, cs⟩⟩
      · rw [← ih]
        rfl
      · rw [← ih]
        rfl
      · rw [percentDecodeBytes, if_neg hne, ih]
  | escaped hhi hlo _ ih =>
      rw [percentDecodeBytes, if_pos rfl, hhi, hlo]
      exact congrArg _ ih

/-- The decoder undoes every encoding. -/
theorem percentDecode_of_encodes (hpercent : '%' ∈ reserved) (h : PercentEncodes reserved s enc) :
    percentDecode enc = s := by
  rw [percentDecode, percentDecodeBytes_of_encodes hpercent h, fromUtf8_utf8Bytes]
  rfl

theorem encodes_ne_nil (h : PercentEncodes reserved s enc) (hs : s ≠ []) : enc ≠ [] := by
  rintro rfl
  cases hbytes : utf8Bytes s with
  | nil => exact hs (utf8Bytes_injective hbytes)
  | cons b bs =>
      rw [PercentEncodes, hbytes] at h
      cases h

theorem byte_not_mem_of_encodes {b : UInt8} (hreserved : b ∈ utf8Bytes reserved)
    (hpercent : b ≠ 0x25) (hhex : hexVal b = none) {bs cs : List UInt8} (h : EncodesBytes reserved bs cs) : b ∉ cs := by
  induction h with
  | nil => exact List.not_mem_nil
  | literal hliteral _ ih =>
      refine List.not_mem_cons_of_ne_of_not_mem ?_ ih
      rintro rfl
      exact hliteral hreserved
  | escaped hhi hlo _ ih =>
      have hdigit {d v : UInt8} (hd : hexVal d = some v) : b ≠ d := by
        rintro rfl
        rw [hhex] at hd
        cases hd
      simp only [List.mem_cons, not_or]
      exact ⟨hpercent, hdigit hhi, hdigit hlo, ih⟩

/-- A reserved character stands in no encoding, if no escape is spelled with it. -/
theorem not_mem_of_encodes {c : Char} (hc : c.toNat < 0x80) (hreserved : c ∈ reserved)
    (hpercent : UInt8.ofNat c.toNat ≠ 0x25) (hhex : hexVal (UInt8.ofNat c.toNat) = none)
    (h : PercentEncodes reserved s enc) : c ∉ enc := by
  rw [← ascii_mem_utf8Bytes hc]
  exact byte_not_mem_of_encodes ((ascii_mem_utf8Bytes hc).mpr hreserved) hpercent hhex h

end GaussMatrix.Http
