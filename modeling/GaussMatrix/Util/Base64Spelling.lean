import GaussMatrix.Util.Base64
import Mathlib.Data.List.DropRight

/-!
# Spellings of base64

`base64Decode` skips every `=` and ignores the bits of the last character that no byte takes up, so
some byte strings have several texts. `WellSpelled` is what a text must look like to be the one that
`base64Encode` writes.
-/

namespace GaussMatrix.Util

open Library

/-! ## The alphabet and its inverse -/

/-- A character is the alphabet's digit for its six bits. -/
theorem digit_of_sextetValue {c : Char} {n : Nat} (h : sextetValue c = some n) :
    n < 64 ∧ b64.getD n 'A' = c := by
  have hupper : ∀ k < 26, b64.getD k 'A' = Char.ofNat (k + 65) := by decide +kernel
  have hlower : ∀ k < 26, b64.getD (k + 26) 'A' = Char.ofNat (k + 97) := by decide +kernel
  have hdigit : ∀ k < 10, b64.getD (k + 52) 'A' = Char.ofNat (k + 48) := by decide +kernel
  have hofNat : ∀ k l, k = c.toNat - l → l ≤ c.toNat → Char.ofNat (k + l) = c := by
    intro k l hk hl
    rw [hk, Nat.sub_add_cancel hl, Char.ofNat_toNat]
  unfold sextetValue at h
  split_ifs at h with hc hc hc hc hc
  · have hle : 65 ≤ c.toNat ∧ c.toNat ≤ 90 := hc
    have hn : c.toNat - 65 = n := Option.some.inj h
    refine ⟨by omega, ?_⟩
    rw [hupper n (by omega), hofNat n 65 (by omega) (by omega)]
  · have hle : 97 ≤ c.toNat ∧ c.toNat ≤ 122 := hc
    have hn : c.toNat - 97 + 26 = n := Option.some.inj h
    obtain ⟨k, rfl⟩ : ∃ k, n = k + 26 := ⟨c.toNat - 97, hn.symm⟩
    refine ⟨by omega, ?_⟩
    rw [hlower k (by omega), hofNat k 97 (by omega) (by omega)]
  · have hle : 48 ≤ c.toNat ∧ c.toNat ≤ 57 := hc
    have hn : c.toNat - 48 + 52 = n := Option.some.inj h
    obtain ⟨k, rfl⟩ : ∃ k, n = k + 52 := ⟨c.toNat - 48, hn.symm⟩
    refine ⟨by omega, ?_⟩
    rw [hdigit k (by omega), hofNat k 48 (by omega) (by omega)]
  · obtain rfl := Option.some.inj h
    exact ⟨by decide, hc.symm ▸ by decide +kernel⟩
  · obtain rfl := Option.some.inj h
    exact ⟨by decide, hc.symm ▸ by decide +kernel⟩

/-- The characters with six bits are those of the alphabet. -/
theorem sextetValue_isSome_iff (c : Char) : (sextetValue c).isSome ↔ c ∈ b64 := by
  constructor
  · intro h
    obtain ⟨n, hn⟩ := Option.isSome_iff_exists.mp h
    obtain ⟨hlt, rfl⟩ := digit_of_sextetValue hn
    rw [List.getD_eq_getElem b64 'A' hlt]
    exact List.getElem_mem _
  · have hall : ∀ c ∈ b64, (sextetValue c).isSome :=
      List.forall_iff_forall_mem.mp (by decide +kernel)
    exact hall c

/-! ## Texts that are spelled as the encoder spells them -/

/-- The text without the `=` at its end. -/
def withoutPadding (s : Str) : Str := s.rdropWhile (· = '=')

/-- The last group of characters is one that bytes fill: it is not a lone character, and the bits of
its last character that are no byte's are zero. -/
def NoBitsLeft : Str → Prop
  | [] => True
  | [_] => False
  | [_, x] => ∀ n ∈ sextetValue x, n % 16 = 0
  | [_, _, y] => ∀ n ∈ sextetValue y, n % 4 = 0
  | _ :: _ :: _ :: _ :: rest => NoBitsLeft rest

/-- A character that is neither of the alphabet nor padding, or padding at the end only and bytes
that fill the rest. -/
def WellSpelled (s : Str) : Prop :=
  (∃ c ∈ s, c ≠ '=' ∧ c ∉ b64) ∨ '=' ∉ withoutPadding s ∧ NoBitsLeft (withoutPadding s)

/-- A digit of a group is the character whose six bits it has, and no other. -/
theorem sextet_eq_iff {c : Char} {n : Nat} (h : sextetValue c = some n) (group i : Nat) :
    sextet b64 group i = c ↔ group / 64 ^ (3 - i) % 64 = n := by
  constructor
  · rintro rfl
    rw [sextetValue_sextet] at h
    exact Option.some.inj h
  · intro hgroup
    rw [sextet, hgroup]
    exact (digit_of_sextetValue h).2

theorem mapM_sextetValue_cons {c : Char} {t : Str} {digits : List Nat}
    (h : (c :: t).mapM sextetValue = some digits) :
    ∃ n rest, sextetValue c = some n ∧ n < 64 ∧ t.mapM sextetValue = some rest ∧
      digits = n :: rest := by
  rw [List.mapM_cons] at h
  obtain ⟨n, hn, h⟩ := Option.bind_eq_some_iff.mp h
  obtain ⟨rest, hrest, h⟩ := Option.bind_eq_some_iff.mp h
  exact ⟨n, rest, hn, (digit_of_sextetValue hn).1, hrest, (Option.some.inj h).symm⟩

/-- Encoding the bytes of the characters gives the characters back exactly when bytes fill them. -/
theorem encode_decodeSextets {t : Str} {digits : List Nat} (h : t.mapM sextetValue = some digits) :
    base64With b64 (decodeSextets digits) = t ↔ NoBitsLeft t := by
  induction t using NoBitsLeft.induct generalizing digits with
  | case1 =>
      obtain rfl : digits = [] := (Option.some.inj h).symm
      exact iff_of_true rfl trivial
  | case2 w =>
      -- six bits make no byte, so a lone character decodes to nothing
      obtain ⟨a, _, hw, ha, hw', rfl⟩ := mapM_sextetValue_cons h
      obtain rfl : _ = ([] : List Nat) := (Option.some.inj hw').symm
      simp [decodeSextets, base64With, NoBitsLeft]
  | case3 w x =>
      -- one byte takes two of the six bits of the last character, and two bytes take four
      obtain ⟨a, _, hw, ha, hw', rfl⟩ := mapM_sextetValue_cons h
      obtain ⟨b, _, hx, hb, hx', rfl⟩ := mapM_sextetValue_cons hw'
      obtain rfl : _ = ([] : List Nat) := (Option.some.inj hx').symm
      simp only [decodeSextets, base64With, NoBitsLeft, List.cons.injEq, and_true, sextet_eq_iff hw,
        sextet_eq_iff hx, hx, Option.mem_def, Option.some.injEq, forall_eq', UInt8.toNat_ofNat',
        Nat.reduceSub, Nat.reducePow]
      omega
  | case4 w x y =>
      obtain ⟨a, _, hw, ha, hw', rfl⟩ := mapM_sextetValue_cons h
      obtain ⟨b, _, hx, hb, hx', rfl⟩ := mapM_sextetValue_cons hw'
      obtain ⟨c, _, hy, hc, hy', rfl⟩ := mapM_sextetValue_cons hx'
      obtain rfl : _ = ([] : List Nat) := (Option.some.inj hy').symm
      simp only [decodeSextets, base64With, NoBitsLeft, List.cons.injEq, and_true, sextet_eq_iff hw,
        sextet_eq_iff hx, sextet_eq_iff hy, hy, Option.mem_def, Option.some.injEq, forall_eq',
        UInt8.toNat_ofNat', Nat.reduceSub, Nat.reducePow]
      omega
  | case5 w x y z rest ih =>
      obtain ⟨a, _, hw, ha, hw', rfl⟩ := mapM_sextetValue_cons h
      obtain ⟨b, _, hx, hb, hx', rfl⟩ := mapM_sextetValue_cons hw'
      obtain ⟨c, _, hy, hc, hy', rfl⟩ := mapM_sextetValue_cons hx'
      obtain ⟨d, ds, hz, hd, hz', rfl⟩ := mapM_sextetValue_cons hy'
      rw [NoBitsLeft, ← ih hz']
      simp only [decodeSextets, base64With, List.cons.injEq, sextet_eq_iff hw, sextet_eq_iff hx,
        sextet_eq_iff hy, sextet_eq_iff hz, UInt8.toNat_ofNat', Nat.reduceSub, Nat.reducePow]
      -- the group is the 24 bits of its three bytes, so its four digits are the ones read
      have hgroup : ((a * 2 ^ 18 + b * 2 ^ 12 + c * 2 ^ 6 + d) / 2 ^ 16 % 256) * 65536 +
          ((a * 2 ^ 18 + b * 2 ^ 12 + c * 2 ^ 6 + d) / 2 ^ 8 % 256) * 256 +
            (a * 2 ^ 18 + b * 2 ^ 12 + c * 2 ^ 6 + d) % 256 =
          a * 2 ^ 18 + b * 2 ^ 12 + c * 2 ^ 6 + d := by omega
      simp only [Nat.reducePow] at hgroup
      rw [hgroup]
      constructor
      · rintro ⟨-, -, -, -, h⟩
        exact h
      · exact fun h => ⟨by omega, by omega, by omega, by omega, h⟩

/-! ## What decodes, and when its text is the encoding -/

theorem filter_eq_withoutPadding {s : Str} (h : '=' ∉ withoutPadding s) :
    s.filter (fun c => c ≠ '=') = withoutPadding s := by
  have hsplit := @List.rdropWhile_append_rtakeWhile _ (fun c : Char => decide (c = '=')) s
  have hkept : (withoutPadding s).filter (fun c => c ≠ '=') = withoutPadding s := by
    rw [List.filter_eq_self]
    intro c hc
    exact decide_eq_true fun he => h (he ▸ hc)
  have hdropped : (s.rtakeWhile (fun c => decide (c = '='))).filter (fun c => c ≠ '=') = [] := by
    rw [List.filter_eq_nil_iff]
    intro c hc
    have hpad := List.mem_rtakeWhile_imp hc
    simpa using hpad
  conv_lhs => rw [← hsplit]
  rw [List.filter_append, hdropped, List.append_nil]
  exact hkept

theorem mapM_sextetValue_eq_none_iff (t : Str) :
    t.mapM sextetValue = none ↔ ∃ c ∈ t, c ∉ b64 := by
  induction t with
  | nil => simp
  | cons c t ih =>
      have hc := sextetValue_isSome_iff c
      rw [List.mapM_cons, List.exists_mem_cons_iff, ← ih]
      cases hn : sextetValue c with
      | none =>
          rw [hn] at hc
          exact iff_of_true rfl (.inl fun hmem => absurd (hc.mpr hmem) (by decide))
      | some n =>
          have hmem : c ∈ b64 := hc.mp (by rw [hn]; rfl)
          cases t.mapM sextetValue <;> simp [hmem]

theorem base64Decode_eq_none_iff (s : Str) :
    base64Decode s = none ↔ ∃ c ∈ s, c ≠ '=' ∧ c ∉ b64 := by
  rw [base64Decode, Option.map_eq_none_iff, mapM_sextetValue_eq_none_iff]
  simp only [List.mem_filter, decide_eq_true_eq, ne_eq, and_assoc]

/-- A text without its padding is the encoding of what it decodes to, if it decodes, exactly when it
is well spelled. -/
theorem decoded_text_iff (s : Str) :
    (∀ data, base64Decode s = some data → withoutPadding s = base64Encode data) ↔
      WellSpelled s := by
  rw [WellSpelled, ← base64Decode_eq_none_iff]
  cases hdecode : base64Decode s with
  | none => simp
  | some data =>
      obtain ⟨digits, hdigits, rfl⟩ := Option.map_eq_some_iff.mp hdecode
      simp only [Option.some.injEq, forall_eq', reduceCtorEq, false_or]
      constructor
      · intro h
        have hpad : '=' ∉ withoutPadding s := by
          rw [h]
          exact not_mem_base64Encode (by decide) _
        rw [filter_eq_withoutPadding hpad] at hdigits
        exact ⟨hpad, (encode_decodeSextets hdigits).mp h.symm⟩
      · rintro ⟨hpad, hbits⟩
        rw [filter_eq_withoutPadding hpad] at hdigits
        exact ((encode_decodeSextets hdigits).mpr hbits).symm

/-! ## One spelling -/

theorem withoutPadding_base64Encode (data : List UInt8) :
    withoutPadding (base64Encode data) = base64Encode data := by
  rw [withoutPadding, List.rdropWhile_eq_self_iff]
  intro hne hlast
  have hmem := List.getLast_mem hne
  rw [of_decide_eq_true hlast] at hmem
  exact not_mem_base64Encode (by decide) data hmem

theorem wellSpelled_base64Encode (data : List UInt8) : WellSpelled (base64Encode data) := by
  rw [← decoded_text_iff]
  intro other h
  rw [withoutPadding_base64Encode, Option.some.inj ((base64Decode_encode data).symm.trans h)]

/-- A text without padding that decodes and is well spelled is the encoding of its bytes. -/
theorem WellSpelled.eq_encode {s : Str} {data : List UInt8} (h : WellSpelled s)
    (hunpadded : withoutPadding s = s) (hdecode : base64Decode s = some data) :
    s = base64Encode data := by
  rw [← (decoded_text_iff s).mpr h data hdecode, hunpadded]

/-- Verification sees a signature text through what it decodes to. -/
theorem Ed25519.verifyB64_congr (ed : Ed25519) {s other : Str} (h : base64Decode s = base64Decode other)
    (msg : List UInt8) (publicB64 : Str) :
    ed.verifyB64 msg s publicB64 = ed.verifyB64 msg other publicB64 := by
  rw [verifyB64, verifyB64, h]

theorem Ed25519.decode_of_verifyB64 {ed : Ed25519} {msg : List UInt8} {s publicB64 : Str}
    (h : ed.verifyB64 msg s publicB64 = true) : ∃ data, base64Decode s = some data := by
  cases hdecode : base64Decode s with
  | none => simp [verifyB64, hdecode] at h
  | some data => exact ⟨data, rfl⟩

/-- A text without its padding is the encoding of the bytes it decodes to, if any, exactly when it is
well spelled. Among the well-spelled signature texts of some bytes that pass there is one without
padding, and a text that passes is that one exactly when it is well spelled itself. -/
theorem one_spelling_iff (s : Str) :
    ((∀ data, base64Decode s = some data → withoutPadding s = base64Encode data) ↔
      WellSpelled s) ∧
    ∀ (ed : Ed25519) (msg : List UInt8) (publicB64 : Str), withoutPadding s = s →
      ed.verifyB64 msg s publicB64 = true →
        ((∀ other, withoutPadding other = other → WellSpelled other →
            base64Decode other = base64Decode s → ed.verifyB64 msg other publicB64 = true →
              s = other) ↔
          WellSpelled s) := by
  refine ⟨decoded_text_iff s, fun ed msg publicB64 hunpadded hverify => ⟨fun honly => ?_, ?_⟩⟩
  · -- the encoder's own text decodes to the same bytes and so passes too
    obtain ⟨data, hdata⟩ := Ed25519.decode_of_verifyB64 hverify
    have hsame : base64Decode (base64Encode data) = base64Decode s :=
      (base64Decode_encode data).trans hdata.symm
    have heq : s = base64Encode data :=
      honly _ (withoutPadding_base64Encode data) (wellSpelled_base64Encode data) hsame
        ((ed.verifyB64_congr hsame msg publicB64).trans hverify)
    rw [heq]
    exact wellSpelled_base64Encode data
  · intro hs other hother hwell hsame _
    obtain ⟨data, hdata⟩ := Ed25519.decode_of_verifyB64 hverify
    rw [hs.eq_encode hunpadded hdata, hwell.eq_encode hother (hsame.trans hdata)]

/-- A lone last character, bits left over, and padding before another character: the decoder takes
each, and each is another spelling of the byte zero. -/
theorem other_spellings :
    (¬ ∀ data, base64Decode ['A'] = some data → withoutPadding ['A'] = base64Encode data) ∧
    (¬ ∀ data, base64Decode ['A', 'B'] = some data →
      withoutPadding ['A', 'B'] = base64Encode data) ∧
    (¬ ∀ data, base64Decode ['A', '=', 'A'] = some data →
      withoutPadding ['A', '=', 'A'] = base64Encode data) := by
  refine ⟨fun h => ?_, fun h => ?_, fun h => ?_⟩
  · exact absurd (h [0] (by decide)) (by decide)
  · exact absurd (h [0] (by decide)) (by decide)
  · exact absurd (h [0] (by decide)) (by decide)

end GaussMatrix.Util
