import GaussMatrix.Library.Text

/-!
# Base64 and the reference hash

The digest itself is a parameter of the development: what matters here is how its bytes become an
event id.
-/

namespace GaussMatrix.Util

open Library

/-- The bytes of a string in UTF-8. -/
def utf8Bytes (s : Str) : List UInt8 := s.flatMap String.utf8EncodeChar

/-- The standard base64 alphabet. -/
def b64 : Str := "ABCDEFGHIJKLMNOPQRSTUVWXYZabcdefghijklmnopqrstuvwxyz0123456789+/"

/-- The URL-safe base64 alphabet. -/
def b64Url : Str := "ABCDEFGHIJKLMNOPQRSTUVWXYZabcdefghijklmnopqrstuvwxyz0123456789-_"

/-- The `i`-th six-bit digit, from the top, of a 24-bit group. -/
def sextet (alphabet : Str) (group i : Nat) : Char :=
  alphabet.getD (group / 64 ^ (3 - i) % 64) 'A'

/-- Unpadded base64 over an alphabet, three bytes at a time. -/
def base64With (alphabet : Str) : List UInt8 → Str
  | [] => []
  | [a] =>
      let n := a.toNat * 2 ^ 16
      [sextet alphabet n 0, sextet alphabet n 1]
  | [a, b] =>
      let n := a.toNat * 2 ^ 16 + b.toNat * 2 ^ 8
      [sextet alphabet n 0, sextet alphabet n 1, sextet alphabet n 2]
  | a :: b :: c :: rest =>
      let n := a.toNat * 2 ^ 16 + b.toNat * 2 ^ 8 + c.toNat
      sextet alphabet n 0 :: sextet alphabet n 1 :: sextet alphabet n 2 :: sextet alphabet n 3 ::
        base64With alphabet rest

/-- Unpadded base64 in the standard alphabet. -/
def base64Encode (data : List UInt8) : Str := base64With b64 data

/-- Unpadded base64 in the URL-safe alphabet, as event ids use it. -/
def base64urlEncode (data : List UInt8) : Str := base64With b64Url data

/-- The reference-hash event id of canonical JSON bytes under the digest `sha256`. -/
def referenceId (sha256 : List UInt8 → List UInt8) (canonical : List UInt8) : Str :=
  '$' :: base64urlEncode (sha256 canonical)

/-! ## What the encodings keep -/

theorem utf8Bytes_injective : Function.Injective utf8Bytes := by
  intro s t h
  have hencode : s.utf8Encode = t.utf8Encode := congrArg List.toByteArray h
  rw [← String.toByteArray_ofList, ← String.toByteArray_ofList] at hencode
  exact String.ofList_injective (String.toByteArray_inj.mp hencode)

/-- The digits of an alphabet are told apart. -/
theorem sextet_inj {alphabet : Str} (hlen : alphabet.length = 64) (hnodup : alphabet.Nodup)
    {group group' i : Nat} (h : sextet alphabet group i = sextet alphabet group' i) :
    group / 64 ^ (3 - i) % 64 = group' / 64 ^ (3 - i) % 64 := by
  have hlt : ∀ n : Nat, n % 64 < alphabet.length := by
    intro n
    rw [hlen]
    exact Nat.mod_lt _ (by decide)
  rw [sextet, sextet, List.getD_eq_getElem _ _ (hlt _), List.getD_eq_getElem _ _ (hlt _)] at h
  exact (List.Nodup.getElem_inj_iff hnodup).mp h

theorem byte_ext {a a' : UInt8} (h : a.toNat = a'.toNat) : a = a' := UInt8.toNat_inj.mp h

/-- Unpadded base64 loses nothing. -/
theorem base64With_injective {alphabet : Str} (hlen : alphabet.length = 64)
    (hnodup : alphabet.Nodup) : Function.Injective (base64With alphabet) := by
  intro xs
  -- texts of one length come from lists of one length, and their digits give the bytes
  induction xs using base64With.induct with
  | case1 =>
      intro ys h
      rcases ys with _ | ⟨a', _ | ⟨b', _ | ⟨c', ys⟩⟩⟩
      · rfl
      all_goals simp [base64With] at h
  | case2 a =>
      intro ys h
      rcases ys with _ | ⟨a', _ | ⟨b', _ | ⟨c', ys⟩⟩⟩
      · simp [base64With] at h
      · simp only [base64With, List.cons.injEq, and_true] at h
        have h0 := sextet_inj hlen hnodup h.1
        have h1 := sextet_inj hlen hnodup h.2
        simp only [Nat.reduceSub, Nat.reducePow] at h0 h1
        have ha := a.toNat_lt
        have ha' := a'.toNat_lt
        rw [byte_ext (by omega : a.toNat = a'.toNat)]
      all_goals simp [base64With] at h
  | case3 a b =>
      intro ys h
      rcases ys with _ | ⟨a', _ | ⟨b', _ | ⟨c', ys⟩⟩⟩
      · simp [base64With] at h
      · simp [base64With] at h
      · simp only [base64With, List.cons.injEq, and_true] at h
        have h0 := sextet_inj hlen hnodup h.1
        have h1 := sextet_inj hlen hnodup h.2.1
        have h2 := sextet_inj hlen hnodup h.2.2
        simp only [Nat.reduceSub, Nat.reducePow] at h0 h1 h2
        have ha := a.toNat_lt
        have ha' := a'.toNat_lt
        have hb := b.toNat_lt
        have hb' := b'.toNat_lt
        rw [byte_ext (by omega : a.toNat = a'.toNat), byte_ext (by omega : b.toNat = b'.toNat)]
      · simp [base64With] at h
  | case4 a b c rest ih =>
      intro ys h
      rcases ys with _ | ⟨a', _ | ⟨b', _ | ⟨c', ys⟩⟩⟩
      · simp [base64With] at h
      · simp [base64With] at h
      · simp [base64With] at h
      · simp only [base64With, List.cons.injEq] at h
        -- the four digits of a group are those of its 24 bits
        obtain ⟨h0, h1, h2, h3, hrest⟩ := h
        have h0 := sextet_inj hlen hnodup h0
        have h1 := sextet_inj hlen hnodup h1
        have h2 := sextet_inj hlen hnodup h2
        have h3 := sextet_inj hlen hnodup h3
        simp only [Nat.reduceSub, Nat.reducePow] at h0 h1 h2 h3
        have ha := a.toNat_lt
        have ha' := a'.toNat_lt
        have hb := b.toNat_lt
        have hb' := b'.toNat_lt
        have hc := c.toNat_lt
        have hc' := c'.toNat_lt
        rw [byte_ext (by omega : a.toNat = a'.toNat), byte_ext (by omega : b.toNat = b'.toNat),
          byte_ext (by omega : c.toNat = c'.toNat), ih hrest]

theorem base64Encode_injective : Function.Injective base64Encode :=
  base64With_injective (by decide) (by decide)

theorem base64urlEncode_injective : Function.Injective base64urlEncode :=
  base64With_injective (by decide) (by decide)

end GaussMatrix.Util
