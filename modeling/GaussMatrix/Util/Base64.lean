import GaussMatrix.Util.Hashing

/-!
# Keys and signatures in base64

Decoding base64, and the signature scheme on base64 texts.
-/

namespace GaussMatrix.Util

open Library

/-! ## Base64 -/

/-- The six bits of a character. -/
def sextetValue (c : Char) : Option Nat :=
  if 'A' ≤ c ∧ c ≤ 'Z' then some (c.toNat - 'A'.toNat)
  else if 'a' ≤ c ∧ c ≤ 'z' then some (c.toNat - 'a'.toNat + 26)
  else if '0' ≤ c ∧ c ≤ '9' then some (c.toNat - '0'.toNat + 52)
  else if c = '+' then some 62
  else if c = '/' then some 63
  else none

/-- Decode sextets, four to three bytes; two and three left over are one byte and two, and so is one
left over one. -/
def decodeSextets : List Nat → List UInt8
  | [] => []
  | [w] => [UInt8.ofNat (w * 2 ^ 18 / 2 ^ 16)]
  | [w, x] => [UInt8.ofNat ((w * 2 ^ 18 + x * 2 ^ 12) / 2 ^ 16)]
  | [w, x, y] =>
      [UInt8.ofNat ((w * 2 ^ 18 + x * 2 ^ 12 + y * 2 ^ 6) / 2 ^ 16),
        UInt8.ofNat ((w * 2 ^ 18 + x * 2 ^ 12 + y * 2 ^ 6) / 2 ^ 8)]
  | w :: x :: y :: z :: rest =>
      UInt8.ofNat ((w * 2 ^ 18 + x * 2 ^ 12 + y * 2 ^ 6 + z) / 2 ^ 16) ::
        UInt8.ofNat ((w * 2 ^ 18 + x * 2 ^ 12 + y * 2 ^ 6 + z) / 2 ^ 8) ::
          UInt8.ofNat (w * 2 ^ 18 + x * 2 ^ 12 + y * 2 ^ 6 + z) :: decodeSextets rest

/-- Padding is skipped; none for a text with another character. -/
def base64Decode (s : Str) : Option (List UInt8) :=
  ((s.filter fun c => c ≠ '=').mapM sextetValue).map decodeSextets

theorem sextetValue_sextet (group i : Nat) :
    sextetValue (sextet b64 group i) = some (group / 64 ^ (3 - i) % 64) := by
  have hall : ∀ i < 64, sextetValue (b64.getD i 'A') = some i := by decide +kernel
  exact hall _ (Nat.mod_lt _ (by decide))

theorem sextet_mem (group i : Nat) : sextet b64 group i ∈ b64 := by
  have hall : ∀ i < 64, b64.getD i 'A' ∈ b64 := by decide +kernel
  exact hall _ (Nat.mod_lt _ (by decide))

theorem mem_b64_of_mem_base64With {data : List UInt8} {c : Char} (h : c ∈ base64With b64 data) :
    c ∈ b64 := by
  induction data using base64With.induct with
  | case1 => exact absurd h List.not_mem_nil
  | case2 a =>
      simp only [base64With, List.mem_cons, List.not_mem_nil, or_false] at h
      rcases h with rfl | rfl <;> exact sextet_mem _ _
  | case3 a b =>
      simp only [base64With, List.mem_cons, List.not_mem_nil, or_false] at h
      rcases h with rfl | rfl | rfl <;> exact sextet_mem _ _
  | case4 a b c rest ih =>
      simp only [base64With, List.mem_cons] at h
      rcases h with rfl | rfl | rfl | rfl | h
      · exact sextet_mem _ _
      · exact sextet_mem _ _
      · exact sextet_mem _ _
      · exact sextet_mem _ _
      · exact ih h

/-- What is not in the alphabet is in no encoded text. -/
theorem not_mem_base64Encode {c : Char} (h : c ∉ b64) (data : List UInt8) : c ∉ base64Encode data :=
  fun hc => h (mem_b64_of_mem_base64With hc)

/-- Decoding the digits of encoded bytes gives the bytes. -/
theorem decode_base64With (data : List UInt8) :
    ((base64With b64 data).mapM sextetValue).map decodeSextets = some data := by
  have hbyte : ∀ (n : Nat) (a : UInt8), n % 256 = a.toNat → UInt8.ofNat n = a := by
    intro n a h
    rw [← UInt8.toNat_inj, UInt8.toNat_ofNat']
    exact h
  induction data using base64With.induct with
  | case1 => rfl
  | case2 a =>
      have ha := a.toNat_lt
      simp only [base64With, List.mapM_cons, List.mapM_nil, sextetValue_sextet, Option.pure_def,
        Option.bind_eq_bind, Option.bind_some, Option.map_some, decodeSextets, Nat.reduceSub, Nat.reducePow]
      rw [hbyte _ a (by omega)]
  | case3 a b =>
      have ha := a.toNat_lt
      have hb := b.toNat_lt
      simp only [base64With, List.mapM_cons, List.mapM_nil, sextetValue_sextet, Option.pure_def,
        Option.bind_eq_bind, Option.bind_some, Option.map_some, decodeSextets, Nat.reduceSub, Nat.reducePow]
      rw [hbyte _ a (by omega), hbyte _ b (by omega)]
  | case4 a b c rest ih =>
      have ha := a.toNat_lt
      have hb := b.toNat_lt
      have hc := c.toNat_lt
      obtain ⟨digits, hdigits, hrest⟩ := Option.map_eq_some_iff.mp ih
      simp only [base64With, List.mapM_cons, sextetValue_sextet, hdigits, Option.pure_def,
        Option.bind_eq_bind, Option.bind_some, Option.map_some, decodeSextets, Nat.reduceSub, Nat.reducePow,
        hrest]
      rw [hbyte _ a (by omega), hbyte _ b (by omega), hbyte _ c (by omega)]

/-- Padding at the end is not read. -/
theorem base64Decode_padding (s : Str) (n : Nat) :
    base64Decode (s ++ List.replicate n '=') = base64Decode s := by
  have hpadding : (List.replicate n '=').filter (fun c => c ≠ '=') = [] := by
    rw [List.filter_eq_nil_iff]
    intro c hc
    simp [List.eq_of_mem_replicate hc]
  rw [base64Decode, base64Decode, List.filter_append, hpadding, List.append_nil]

/-- What was encoded decodes to what it was. -/
theorem base64Decode_encode (data : List UInt8) : base64Decode (base64Encode data) = some data := by
  have hpadding : (base64Encode data).filter (fun c => c ≠ '=') = base64Encode data := by
    rw [List.filter_eq_self]
    intro c hc
    have hne : c ≠ '=' := by
      rintro rfl
      exact not_mem_base64Encode (by decide) data hc
    simpa using hne
  rw [base64Decode, hpadding]
  exact decode_base64With data

/-- Encoded bytes decode to what they were, with any number of padding characters behind them. -/
theorem base64Decode_encode_padded (data : List UInt8) (n : Nat) :
    base64Decode (base64Encode data) = some data ∧
      base64Decode (base64Encode data ++ List.replicate n '=') = some data := by
  constructor
  · exact base64Decode_encode data
  · rw [base64Decode_padding]
    exact base64Decode_encode data

/-! ## Signatures -/

/-- The Ed25519 functions: the public key of a secret seed, signing and verifying. -/
structure Ed25519 where
  publicKey : List.Vector UInt8 32 → List.Vector UInt8 32
  sign : List.Vector UInt8 32 → List UInt8 → List.Vector UInt8 64
  verify : List.Vector UInt8 32 → List UInt8 → List.Vector UInt8 64 → Bool

/-- The bytes as an array of a given length. -/
def toArray (n : Nat) (data : List UInt8) : Option (List.Vector UInt8 n) :=
  if h : data.length = n then some ⟨data, h⟩ else none

theorem toArray_val {n : Nat} (v : List.Vector UInt8 n) : toArray n v.toList = some v :=
  dif_pos v.2

namespace Ed25519

variable (ed : Ed25519)

def b64To32 (s : Str) : Option (List.Vector UInt8 32) := (base64Decode s).bind (toArray 32)

def publicKeyB64 (seedB64 : Str) : Option Str :=
  (b64To32 seedB64).map fun seed => base64Encode (ed.publicKey seed).toList

/-- The empty text for a malformed seed. -/
def signB64 (msg : List UInt8) (seedB64 : Str) : Str :=
  match b64To32 seedB64 with
  | some seed => base64Encode (ed.sign seed msg).toList
  | none => []

def verifyB64 (msg : List UInt8) (sigB64 publicB64 : Str) : Bool :=
  match (base64Decode sigB64).bind (toArray 64), b64To32 publicB64 with
  | some sig, some key => ed.verify key msg sig
  | _, _ => false

/-- A signature made with a seed verifies under the seed's public key. -/
def Complete : Prop := ∀ seed msg, ed.verify (ed.publicKey seed) msg (ed.sign seed msg) = true

variable {ed}

theorem verifyB64_signB64 (hcomplete : ed.Complete) {seedB64 publicB64 : Str}
    (h : ed.publicKeyB64 seedB64 = some publicB64) (msg : List UInt8) :
    ed.verifyB64 msg (ed.signB64 msg seedB64) publicB64 = true := by
  obtain ⟨seed, hseed, rfl⟩ := Option.map_eq_some_iff.mp h
  have hpublic : b64To32 (base64Encode (ed.publicKey seed).toList) = some (ed.publicKey seed) := by
    rw [b64To32, base64Decode_encode, Option.bind_some, toArray_val]
  have hsig : (base64Decode (ed.signB64 msg seedB64)).bind (toArray 64) = some (ed.sign seed msg) := by
    rw [signB64, hseed]
    show (base64Decode (base64Encode (ed.sign seed msg).toList)).bind (toArray 64) = _
    rw [base64Decode_encode, Option.bind_some, toArray_val]
  rw [verifyB64, hsig, hpublic]
  exact hcomplete seed msg

/-- What is not in the alphabet is in no public key and no signature. -/
theorem not_mem_publicKeyB64 {c : Char} (hc : c ∉ b64) {seedB64 publicB64 : Str}
    (h : ed.publicKeyB64 seedB64 = some publicB64) : c ∉ publicB64 := by
  obtain ⟨seed, -, rfl⟩ := Option.map_eq_some_iff.mp h
  exact not_mem_base64Encode hc _

theorem not_mem_signB64 {c : Char} (hc : c ∉ b64) (msg : List UInt8) (seedB64 : Str) :
    c ∉ ed.signB64 msg seedB64 := by
  unfold signB64
  split
  · exact not_mem_base64Encode hc _
  · exact List.not_mem_nil

end Ed25519

end GaussMatrix.Util
