import GaussMatrix.Api.JsonObject

/-!
# Redacting a redacted event

Redaction keeps all it reads: the type, and of the content the keys it keeps.  So a second redaction
finds nothing left to strike, and the id that is hashed from the redacted form stays what it was.
-/

namespace GaussMatrix.Api

open Library Util Events

/-- What `reference_id` hashes of an event in its JSON form: redacted, and without `event_id`,
`signatures` and `unsigned`. -/
def jsonReferenceId (sha256 : List UInt8 → List UInt8) (event : Json) (roomVersion : Nat) : Str :=
  let obj := ((redact event roomVersion).asObject).getD []
  let obj := SortedList.erase "unsigned".toList (SortedList.erase "signatures".toList
    (SortedList.erase "event_id".toList obj))
  Util.referenceId sha256 (utf8Bytes (Json.object obj).write)

theorem Pdu.referenceId_eq (sha256 : List UInt8 → List UInt8) (p : Pdu) (roomVersion : Nat) :
    p.referenceId sha256 roomVersion = jsonReferenceId sha256 (p.toJson sha256) roomVersion :=
  rfl

theorem keepKeys_keepKeys (obj : List (Str × Json)) (keys : List Str) :
    keepKeys (keepKeys obj keys) keys = keepKeys obj keys := by
  apply SortedList.eq_of_lookup_eq (sorted_keepKeys _ keys) (sorted_keepKeys obj keys)
  intro k
  have hlookup : (keepKeys (keepKeys obj keys) keys).lookup k = (keepKeys obj keys).lookup k := by
    rw [lookup_keepKeys_eq (keepKeys obj keys), lookup_keepKeys_eq obj]
    split <;> rfl
  convert hlookup

/-- What is kept of a content is kept again. -/
theorem redactedContent_twice (kind : Str) (content : Option Json) (roomVersion : Nat) :
    redactedContent kind (some (.object (redactedContent kind content roomVersion))) roomVersion =
      redactedContent kind content roomVersion := by
  show (if kind = roomCreate ∧ 11 ≤ roomVersion then redactedContent kind content roomVersion
    else keepKeys (redactedContent kind content roomVersion)
      (allowedContentKeys kind roomVersion)) = redactedContent kind content roomVersion
  split
  · rfl
  · rename_i hnot
    unfold redactedContent
    cases content.bind Json.asObject with
    | none =>
        -- nothing is kept of nothing, whatever the keys
        show keepKeys [] _ = []
        apply List.eq_nil_iff_forall_not_mem.mpr
        intro f hf
        cases (mem_keepKeys hf).2
    | some fields =>
        show keepKeys (if kind = roomCreate ∧ 11 ≤ roomVersion then fields
            else keepKeys fields (allowedContentKeys kind roomVersion)) _ =
          (if kind = roomCreate ∧ 11 ≤ roomVersion then fields
            else keepKeys fields (allowedContentKeys kind roomVersion))
        rw [if_neg hnot]
        exact keepKeys_keepKeys fields _

/-- The fields of a redacted object. -/
def redactedFields (obj : List (Str × Json)) (roomVersion : Nat) : List (Str × Json) :=
  SortedList.insert "content".toList
    (.object (redactedContent (((obj.lookup "type".toList).bind Json.asStr).getD [])
      (obj.lookup "content".toList) roomVersion))
    (keepKeys obj preservedTopKeys)

theorem redact_object (obj : List (Str × Json)) (roomVersion : Nat) :
    redact (.object obj) roomVersion = .object (redactedFields obj roomVersion) :=
  rfl

theorem sorted_redactedFields (obj : List (Str × Json)) (roomVersion : Nat) :
    SortedList.Sorted (redactedFields obj roomVersion) :=
  SortedList.sorted_insert _ _ (sorted_keepKeys obj preservedTopKeys)

theorem lookup_redactedFields (obj : List (Str × Json)) (roomVersion : Nat) {key : Str}
    (hne : key ≠ "content".toList) : (redactedFields obj roomVersion).lookup key =
      if key ∈ preservedTopKeys then obj.lookup key else none := by
  rw [redactedFields, Json.lookup_insert, if_neg hne, lookup_keepKeys_eq]

theorem lookup_redactedFields_content (obj : List (Str × Json)) (roomVersion : Nat) :
    (redactedFields obj roomVersion).lookup "content".toList =
      some (.object (redactedContent (((obj.lookup "type".toList).bind Json.asStr).getD [])
        (obj.lookup "content".toList) roomVersion)) := by
  rw [redactedFields, Json.lookup_insert, if_pos rfl]

theorem redactedFields_twice (obj : List (Str × Json)) (roomVersion : Nat) :
    redactedFields (redactedFields obj roomVersion) roomVersion =
      redactedFields obj roomVersion := by
  have htype : (redactedFields obj roomVersion).lookup "type".toList =
      obj.lookup "type".toList := by
    rw [lookup_redactedFields obj roomVersion (by decide), if_pos (by decide)]
  apply SortedList.eq_of_lookup_eq (sorted_redactedFields _ _) (sorted_redactedFields _ _)
  intro key
  have hlookup : (redactedFields (redactedFields obj roomVersion) roomVersion).lookup key =
      (redactedFields obj roomVersion).lookup key := by
    by_cases hkey : key = "content".toList
    · -- the second pass reads the type and the content that the first one left
      rw [hkey, lookup_redactedFields_content (redactedFields obj roomVersion), htype,
        lookup_redactedFields_content obj, redactedContent_twice]
    · rw [lookup_redactedFields (redactedFields obj roomVersion) roomVersion hkey,
        lookup_redactedFields obj roomVersion hkey]
      split <;> rfl
  convert hlookup

theorem redact_twice (event : Json) (roomVersion : Nat) :
    redact (redact event roomVersion) roomVersion = redact event roomVersion := by
  cases event with
  | object obj => rw [redact_object, redact_object, redactedFields_twice]
  | null => rfl
  | bool b => rfl
  | number n => rfl
  | string s => rfl
  | array items => rfl

/-- Redaction is idempotent, and the id of an event does not notice how often its JSON form has been
redacted. -/
theorem redaction_keeps_json_id (sha256 : List UInt8 → List UInt8) (event : Json)
    (roomVersion : Nat) :
    redact (redact event roomVersion) roomVersion = redact event roomVersion ∧
      ∀ n : Nat, jsonReferenceId sha256 ((fun e => redact e roomVersion)^[n] event) roomVersion =
        jsonReferenceId sha256 event roomVersion := by
  have hrun : ∀ n : Nat, redact ((fun e => redact e roomVersion)^[n] event) roomVersion =
      redact event roomVersion := by
    intro n
    induction n with
    | zero => rfl
    | succ n ih => rw [Function.iterate_succ_apply', redact_twice, ih]
  apply And.intro (redact_twice event roomVersion)
  intro n
  rw [jsonReferenceId, jsonReferenceId, hrun n]

end GaussMatrix.Api
