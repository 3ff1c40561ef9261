import GaussMatrix.Api.JsonAccepts
import GaussMatrix.Api.JsonObject

/-!
# Audit records for a SIEM

The records of the audit log as JSON, and what the reader gets back from one. The strings come back as
they were; the sequence number and the hashes pass through a double on the way.
-/

namespace GaussMatrix.Obs

open Library Api Api.Grammar

/-! ## The code -/

/-- An audit record, one for each entry of the log. -/
structure AuditRecord where
  seq : UInt64
  actor : Str
  action : Str
  prevHash : UInt64
  hash : UInt64

/-- How one character of a string is written. -/
def jsonChar (c : Char) : Str :=
  if c = '"' then ['\\', '"']
  else if c = '\\' then ['\\', '\\']
  else if c = '\n' then ['\\', 'n']
  else if c = '\r' then ['\\', 'r']
  else if c = '\t' then ['\\', 't']
  else if c.toNat < 0x20 then
    ['\\', 'u', '0', '0', Json.hexDigit (c.toNat / 16), Json.hexDigit (c.toNat % 16)]
  else [c]

/-- A quoted, escaped JSON string. -/
def jsonString (s : Str) : Str := '"' :: (s.flatMap jsonChar ++ ['"'])

def AuditRecord.toJson (r : AuditRecord) : Str :=
  "\x7b\"seq\":".toList ++ decimal r.seq.toNat ++ ",\"actor\":".toList ++ jsonString r.actor ++
    ",\"action\":".toList ++ jsonString r.action ++ ",\"prev_hash\":".toList ++
      decimal r.prevHash.toNat ++ ",\"hash\":".toList ++ decimal r.hash.toNat ++ "\x7d".toList

/-! ## Reading a record -/

/-- What is written for a character stands for it. -/
theorem chars_jsonChar (c : Char) {t s : Str} (h : Chars t s) :
    Chars (jsonChar c ++ t) (c :: s) := by
  unfold jsonChar
  split_ifs with hquote hslash hn hr ht hcontrol
  · exact .escape (by rw [hquote]; decide) h
  · exact .escape (by rw [hslash]; decide) h
  · exact .escape (by rw [hn]; decide) h
  · exact .escape (by rw [hr]; decide) h
  · exact .escape (by rw [ht]; decide) h
  · have hhigh := Json.hexValue_hexDigit (c.toNat / 16) (by omega)
    have hlow := Json.hexValue_hexDigit (c.toNat % 16) (by omega)
    have hzero : Parser.hexValue '0' = some 0 := by decide
    have hhex := Hex4.mk hzero hzero hhigh hlow
    have hvalue : ((0 * 16 + 0) * 16 + c.toNat / 16) * 16 + c.toNat % 16 = c.toNat := by omega
    rw [hvalue] at hhex
    have hunicode := Unicode.single hhex (by omega)
    rw [Char.ofNat_toNat] at hunicode
    exact .unicode hunicode h
  · exact .unescaped (by omega) hquote hslash h

theorem quoted_jsonString (s : Str) : Quoted (jsonString s) s := by
  apply Quoted.mk
  induction s with
  | nil => exact .nil
  | cons c s ih =>
      rw [List.flatMap_cons]
      exact chars_jsonChar c ih

theorem looseNumber_decimal (n : Nat) : LooseNumber (decimal n) (F64.ofNat n) := by
  let spelling : Spelling := ⟨false, decimal n, none, []⟩
  refine ⟨spelling, 0, ?_, .absent, ?_, ?_⟩
  · exact
      { whole := fun c => isDigit_of_mem_decimal
        fraction := fun ds hds => nomatch hds
        nonempty := by simpa [spelling] using decimal_ne_nil n
        head := .inr (decimal_ne_nil n) }
  · simp [spelling, Spelling.text, Spelling.fractionText]
  · rw [F64.ofNat_eq_ofDecimal]
    simp [spelling, Spelling.value, ofDigitChars_decimal]

/-- The members of a record's object. -/
def AuditRecord.fields (r : AuditRecord) : List (Str × Json) :=
  [("seq".toList, .number (F64.ofNat r.seq.toNat)), ("actor".toList, .string r.actor),
    ("action".toList, .string r.action), ("prev_hash".toList, .number (F64.ofNat r.prevHash.toNat)),
    ("hash".toList, .number (F64.ofNat r.hash.toNat))]

/-- The text of members without white space. -/
def memberText (key text : Str) : Str := jsonString key ++ ':' :: text

theorem members_last {levels : Nat} {key t : Str} {v : Json} (h : Value LooseNumber levels t v) :
    Members LooseNumber levels (memberText key t) [(key, v)] :=
  .last (quoted_jsonString key) ws_nil ws_nil h

theorem members_more {levels : Nat} {key t ts : Str} {v : Json} {members : List (Str × Json)}
    (h : Value LooseNumber levels t v) (hrest : Members LooseNumber levels ts members) :
    Members LooseNumber levels (memberText key t ++ ',' :: ts) ((key, v) :: members) := by
  have hmore := Members.more (quoted_jsonString key) ws_nil ws_nil h ws_nil ws_nil hrest
  simpa [memberText] using hmore

theorem toJson_eq (r : AuditRecord) :
    r.toJson = '\x7b' :: (memberText "seq".toList (decimal r.seq.toNat) ++ ',' ::
      (memberText "actor".toList (jsonString r.actor) ++ ',' ::
        (memberText "action".toList (jsonString r.action) ++ ',' ::
          (memberText "prev_hash".toList (decimal r.prevHash.toNat) ++ ',' ::
            memberText "hash".toList (decimal r.hash.toNat))))) ++ ['\x7d'] := by
  have hseq : "\x7b\"seq\":".toList = '\x7b' :: jsonString "seq".toList ++ [':'] := by decide
  have hactor : ",\"actor\":".toList = ',' :: jsonString "actor".toList ++ [':'] := by decide
  have haction : ",\"action\":".toList = ',' :: jsonString "action".toList ++ [':'] := by decide
  have hprev : ",\"prev_hash\":".toList = ',' :: jsonString "prev_hash".toList ++ [':'] := by decide
  have hhash : ",\"hash\":".toList = ',' :: jsonString "hash".toList ++ [':'] := by decide
  have hend : "\x7d".toList = ['\x7d'] := by decide
  unfold AuditRecord.toJson
  simp only [hseq, hactor, haction, hprev, hhash, hend, memberText, List.append_assoc,
    List.cons_append, List.nil_append]

/-- A record's text is that of an object with its members. -/
theorem parse_toJson (r : AuditRecord) : Json.parse r.toJson = .ok (.ofFields r.fields) := by
  rw [Json.parse_eq_ok_iff, toJson_eq]
  have hmembers : Members LooseNumber 127 _ r.fields :=
    members_more (.number (looseNumber_decimal r.seq.toNat))
      (members_more (.string (quoted_jsonString r.actor))
        (members_more (.string (quoted_jsonString r.action))
          (members_more (.number (looseNumber_decimal r.prevHash.toNat))
            (members_last (.number (looseNumber_decimal r.hash.toNat))))))
  have htext := Text.mk ws_nil (Value.object ws_nil hmembers ws_nil) ws_nil
  simpa using htext

/-- What a consumer gets back with the accessors of the reader. -/
structure Recovered (r : AuditRecord) (v : Json) : Prop where
  seq : (v.get "seq").bind Json.asU64 = some r.seq
  actor : (v.get "actor").bind Json.asStr = some r.actor
  action : (v.get "action").bind Json.asStr = some r.action
  prevHash : (v.get "prev_hash").bind Json.asU64 = some r.prevHash
  hash : (v.get "hash").bind Json.asU64 = some r.hash

/-- A double holds the number; the largest one rounds up, and reading it saturates. -/
def Exact (n : UInt64) : Prop :=
  F64.Representable (n.toNat * F64.unitsPerOne) ∨ n.toNat = 2 ^ 64 - 1

instance (n : UInt64) : Decidable (Exact n) := inferInstanceAs (Decidable (_ ∨ _))

theorem recovered_iff (r : AuditRecord) :
    Recovered r (.ofFields r.fields) ↔ Exact r.seq ∧ Exact r.prevHash ∧ Exact r.hash := by
  have hnodup : (r.fields.map Prod.fst).Nodup := by
    simp only [AuditRecord.fields, List.map_cons, List.map_nil]
    decide
  have hget : ∀ k, (Json.ofFields r.fields).get k = r.fields.lookup k := Json.get_ofFields hnodup
  have hseq : r.fields.lookup "seq".toList = some (.number (F64.ofNat r.seq.toNat)) := rfl
  have hactor : r.fields.lookup "actor".toList = some (.string r.actor) := rfl
  have haction : r.fields.lookup "action".toList = some (.string r.action) := rfl
  have hprev : r.fields.lookup "prev_hash".toList = some (.number (F64.ofNat r.prevHash.toNat)) := rfl
  have hhash : r.fields.lookup "hash".toList = some (.number (F64.ofNat r.hash.toNat)) := rfl
  have hexact : ∀ n : UInt64, Json.asU64 (.number (F64.ofNat n.toNat)) = some n ↔ Exact n :=
    Json.asU64_ofNat_eq_iff
  constructor
  · intro h
    have h₁ := h.seq
    have h₂ := h.prevHash
    have h₃ := h.hash
    rw [hget, hseq, Option.bind_some, hexact] at h₁
    rw [hget, hprev, Option.bind_some, hexact] at h₂
    rw [hget, hhash, Option.bind_some, hexact] at h₃
    exact ⟨h₁, h₂, h₃⟩
  · rintro ⟨h₁, h₂, h₃⟩
    exact
      { seq := by rw [hget, hseq, Option.bind_some, hexact]; exact h₁
        actor := by rw [hget, hactor]; rfl
        action := by rw [hget, haction]; rfl
        prevHash := by rw [hget, hprev, Option.bind_some, hexact]; exact h₂
        hash := by rw [hget, hhash, Option.bind_some, hexact]; exact h₃ }

/-- A record is recovered from its text exactly when doubles hold its number and its hashes. -/
theorem record_recovered_iff (r : AuditRecord) :
    (∃ v, Json.parse r.toJson = .ok v ∧ Recovered r v) ↔
      Exact r.seq ∧ Exact r.prevHash ∧ Exact r.hash := by
  rw [← recovered_iff, parse_toJson]
  simp only [Except.ok.injEq, exists_eq_left']

/-- A hash of 54 bits, and odd, comes back as another one. -/
theorem hash_not_recovered :
    ¬ ∀ r : AuditRecord, ∃ v, Json.parse r.toJson = .ok v ∧ Recovered r v := by
  intro h
  obtain ⟨v, hparse, hrecovered⟩ := h ⟨0, [], [], 0, 2 ^ 53 + 1⟩
  rw [parse_toJson] at hparse
  obtain rfl := Except.ok.inj hparse
  have hexact := ((recovered_iff _).mp hrecovered).2.2
  exact absurd hexact (by decide +kernel)

end GaussMatrix.Obs
