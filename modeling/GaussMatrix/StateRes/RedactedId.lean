import GaussMatrix.Api.RedactTwice
import GaussMatrix.StateRes.RedactedState

/-!
# The id of a redacted event

The id of an event is the digest of its redacted form, which holds the content hash.  An event read
back from its redacted form hashes what it was left with: so its id is the old one exactly when
redaction had nothing to strike.
-/

namespace GaussMatrix.StateRes

open Library Util Api Api.Events Fed

variable {sha256 : List UInt8 → List UInt8} {roomVersion : Nat} {p q : Pdu}

/-! ## Texts of objects -/

/-- The text of an object is fixed by its fields, each up to what writing loses. -/
theorem write_congr {fields fields' : List (Str × Json)} (hs : SortedList.Sorted fields)
    (hs' : SortedList.Sorted fields')
    (h : ∀ key, (fields.lookup key).map Json.written = (fields'.lookup key).map Json.written) :
    (Json.object fields).write = (Json.object fields').write := by
  have hfields : Json.writtenFields fields = Json.writtenFields fields' := by
    apply SortedList.eq_of_lookup_eq (Parser.writtenFields_ascend hs)
      (Parser.writtenFields_ascend hs')
    intro key
    have hlookup : (Json.writtenFields fields).lookup key =
        (Json.writtenFields fields').lookup key := by
      rw [Json.lookup_writtenFields, Json.lookup_writtenFields, h key]
    convert hlookup
  rw [← Json.write_written (.object fields), ← Json.write_written (.object fields'), Json.written,
    Json.written, hfields]

theorem sorted_ofFields (fields : List (Str × Json)) :
    ∃ sorted, Json.ofFields fields = .object sorted ∧ SortedList.Sorted sorted :=
  ⟨_, rfl, Json.sorted_insertFields List.Pairwise.nil⟩

/-- One text of both events, field by field. -/
theorem ofFields_write_congr {fields fields' : List (Str × Json)}
    (hn : (fields.map Prod.fst).Nodup) (hn' : (fields'.map Prod.fst).Nodup)
    (h : ∀ key, (fields.lookup key).map Json.written = (fields'.lookup key).map Json.written) :
    (Json.ofFields fields).write = (Json.ofFields fields').write := by
  obtain ⟨sorted, hsorted, hs⟩ := sorted_ofFields fields
  obtain ⟨sorted', hsorted', hs'⟩ := sorted_ofFields fields'
  rw [hsorted, hsorted']
  apply write_congr hs hs'
  intro key
  have hget := Json.get_ofFields hn key
  have hget' := Json.get_ofFields hn' key
  rw [hsorted] at hget
  rw [hsorted'] at hget'
  show Option.map _ ((Json.object sorted).get key) = Option.map _ ((Json.object sorted').get key)
  rw [hget, hget', h key]

/-! ## What redaction leaves whole -/

/-- Redaction has nothing to strike: the content is an object of keys that it keeps. -/
def KeptWhole (roomVersion : Nat) (p : Pdu) : Prop :=
  ∃ fields, embedded p.contentJson = .object fields ∧ ∀ f ∈ fields, Keeps roomVersion p.kind f.1

theorem redactedContent_of_kept {kind : Str} {fields : List (Str × Json)}
    (hsorted : SortedList.Sorted fields) (hkept : ∀ f ∈ fields, Keeps roomVersion kind f.1) :
    redactedContent kind (some (.object fields)) roomVersion = fields := by
  show (if kind = roomCreate ∧ 11 ≤ roomVersion then fields
    else keepKeys fields (allowedContentKeys kind roomVersion)) = fields
  split
  · rfl
  · rename_i hnot
    apply SortedList.eq_of_lookup_eq (sorted_keepKeys fields _) hsorted
    intro key
    have hlookup : (keepKeys fields (allowedContentKeys kind roomVersion)).lookup key =
        fields.lookup key := by
      rw [lookup_keepKeys_eq]
      split
      · rfl
      · rename_i hdropped
        apply Eq.symm
        rw [List.lookup_eq_none_iff]
        intro f hf
        apply bne_iff_ne.mpr
        intro hkey
        rw [hkey] at hdropped
        exact (hkept f hf).elim hdropped hnot
    convert hlookup

theorem sorted_of_embedded {fields : List (Str × Json)}
    (h : embedded p.contentJson = .object fields) : SortedList.Sorted fields := by
  have hordered := ordered_embedded p.contentJson
  rw [h] at hordered
  have hascend := of_decide_eq_true (Json.everywhere_object.mp hordered).1
  exact hascend

theorem struckContent_of_keptWhole (h : KeptWhole roomVersion p) :
    struckContent roomVersion p = embedded p.contentJson := by
  obtain ⟨fields, hobj, hkept⟩ := h
  rw [struckContent, hobj, redactedContent_of_kept (sorted_of_embedded hobj) hkept]

theorem embedded_struck (roomVersion : Nat) (p : Pdu) :
    embedded (struck roomVersion p).contentJson = (struckContent roomVersion p).written := by
  rw [embedded, parse_struck]
  rfl

/-- When the written content is the whole written content, redaction struck nothing. -/
theorem keptWhole_of_written
    (h : (struckContent roomVersion p).written = (embedded p.contentJson).written) :
    KeptWhole roomVersion p := by
  rw [struckContent] at h
  cases hobj : embedded p.contentJson with
  | object fields =>
      refine ⟨fields, hobj, fun f hf => ?_⟩
      rw [hobj, Json.written, Json.written] at h
      have hlookup := congrArg (List.lookup f.1) (Json.object.inj h)
      rw [Json.lookup_writtenFields, Json.lookup_writtenFields] at hlookup
      -- the key is met in the content, so it is met in what is kept of it
      have hmet : fields.lookup f.1 ≠ none := by
        intro hnone
        have hne := List.lookup_eq_none_iff.mp hnone f hf
        exact bne_iff_ne.mp hne rfl
      by_cases hcreate : p.kind = roomCreate ∧ 11 ≤ roomVersion
      · exact .inr hcreate
      · have hkept : redactedContent p.kind (some (.object fields)) roomVersion =
            keepKeys fields (allowedContentKeys p.kind roomVersion) := if_neg hcreate
        rw [hkept, lookup_keepKeys_eq] at hlookup
        by_cases hmem : f.1 ∈ allowedContentKeys p.kind roomVersion
        · exact .inl hmem
        · rw [if_neg hmem, Option.map_none] at hlookup
          exact absurd (Option.map_eq_none_iff.mp hlookup.symm) hmet
  | null => rw [hobj] at h; cases h
  | bool b => rw [hobj] at h; cases h
  | number n => rw [hobj] at h; cases h
  | string s => rw [hobj] at h; cases h
  | array items => rw [hobj] at h; cases h

/-! ## The hashed texts -/

/-- The fields of the content hash, when only the integers and the content may differ. -/
theorem unhashed_with (p : Pdu) {ts depth : UInt64} (content : Str)
    (hts : F64.ofNat ts.toNat = F64.ofNat p.originServerTs.toNat)
    (hdepth : F64.ofNat depth.toNat = F64.ofNat p.depth.toNat) : ∃ front,
    p.unhashed = front ++ [Json.field "content" (embedded p.contentJson)] ∧
      ({ p with originServerTs := ts, depth := depth, contentJson := content } : Pdu).unhashed =
        front ++ [Json.field "content" (embedded content)] := by
  cases hkey : p.stateKey with
  | none =>
      apply Exists.intro [Json.field "room_id" (.string p.roomId.asStr),
        Json.field "sender" (.string p.sender.asStr), Json.field "type" (.string p.kind),
        Json.field "origin_server_ts" (.number (F64.ofNat p.originServerTs.toNat)),
        Json.field "depth" (.number (F64.ofNat p.depth.toNat)),
        Json.field "prev_events" (Pdu.eventIdArray p.prevEvents),
        Json.field "auth_events" (Pdu.eventIdArray p.authEvents)]
      simp only [Pdu.unhashed, hkey, hts, hdepth]
      exact ⟨rfl, rfl⟩
  | some stateKey =>
      apply Exists.intro [Json.field "room_id" (.string p.roomId.asStr),
        Json.field "sender" (.string p.sender.asStr), Json.field "type" (.string p.kind),
        Json.field "state_key" (.string stateKey),
        Json.field "origin_server_ts" (.number (F64.ofNat p.originServerTs.toNat)),
        Json.field "depth" (.number (F64.ofNat p.depth.toNat)),
        Json.field "prev_events" (Pdu.eventIdArray p.prevEvents),
        Json.field "auth_events" (Pdu.eventIdArray p.authEvents)]
      simp only [Pdu.unhashed, hkey, hts, hdepth]
      exact ⟨rfl, rfl⟩

theorem unhashed_struck (roomVersion : Nat) (p : Pdu) : ∃ front,
    p.unhashed = front ++ [Json.field "content" (embedded p.contentJson)] ∧
      (struck roomVersion p).unhashed =
        front ++ [Json.field "content" (struckContent roomVersion p).written] := by
  obtain ⟨front, hfront, hstruck⟩ := unhashed_with p (struckContent roomVersion p).write
    (ofNat_throughDouble p.originServerTs) (ofNat_throughDouble p.depth)
  rw [← embedded_struck]
  exact ⟨front, hfront, hstruck⟩

theorem nodup_unhashed_struck (roomVersion : Nat) (p : Pdu) :
    ((struck roomVersion p).unhashed.map Prod.fst).Nodup :=
  Pdu.unhashed_nodup (struck roomVersion p)

/-- What is hashed of the event read back, field by field. -/
theorem lookup_unhashed_struck (h : KeptWhole roomVersion p) (key : Str) :
    ((struck roomVersion p).unhashed.lookup key).map Json.written =
      (p.unhashed.lookup key).map Json.written := by
  obtain ⟨front, hfront, hstruck⟩ := unhashed_struck roomVersion p
  rw [hfront, hstruck, List.lookup_append, List.lookup_append, struckContent_of_keptWhole h]
  cases front.lookup key with
  | some v => rfl
  | none =>
      show Option.map _ (List.lookup key [("content".toList, _)]) =
        Option.map _ (List.lookup key [("content".toList, _)])
      rw [Json.lookup_cons, Json.lookup_cons]
      split
      · rw [Option.map_some, Option.map_some, Json.written_written]
      · rfl

theorem contentText_struck (h : KeptWhole roomVersion p) :
    (struck roomVersion p).contentText = p.contentText := by
  rw [Pdu.contentText, Pdu.contentText, ofFields_write_congr (nodup_unhashed_struck roomVersion p)
    (Pdu.unhashed_nodup p) (lookup_unhashed_struck h)]

theorem contentHash_struck (sha256 : List UInt8 → List UInt8) (h : KeptWhole roomVersion p) :
    (struck roomVersion p).contentHash sha256 = p.contentHash sha256 :=
  congrArg (fun text => base64Encode (sha256 text)) (contentText_struck h)

/-- If the text under the content hash is what it was, redaction struck nothing. -/
theorem keptWhole_of_contentText (h : (struck roomVersion p).contentText = p.contentText) :
    KeptWhole roomVersion p := by
  have hfield := Pdu.unhashed_eq_of_text h "content".toList
  obtain ⟨-, -, -, -, -, -, -, -, hcontent⟩ := Pdu.unhashed_fields p
  obtain ⟨-, -, -, -, -, -, -, -, hstruck⟩ := Pdu.unhashed_fields (struck roomVersion p)
  rw [hcontent, hstruck, content_struck, Option.getD_some, Option.map_some, Option.map_some,
    Option.some.injEq, Json.written_written] at hfield
  exact keptWhole_of_written hfield

/-- Nothing is struck the second time either. -/
theorem keptWhole_struck (h : KeptWhole roomVersion p) :
    KeptWhole roomVersion (struck roomVersion p) := by
  obtain ⟨fields, hobj, hkept⟩ := h
  refine ⟨Json.writtenFields fields, ?_, fun f hf => ?_⟩
  · rw [embedded_struck, struckContent_of_keptWhole ⟨fields, hobj, hkept⟩, hobj, Json.written]
  · have hkey : f.1 ∈ fields.map Prod.fst := by
      rw [← Parser.writtenFields_keys]
      exact List.mem_map.mpr ⟨f, hf, rfl⟩
    obtain ⟨g, hg, hgf⟩ := List.mem_map.mp hkey
    rw [struck_kind, ← hgf]
    exact hkept g hg

/-- The fields of an event's JSON form. -/
theorem get_toJson (sha256 : List UInt8 → List UInt8) (p : Pdu) (key : Str) :
    (p.toJson sha256).get key = (p.unhashed.lookup key).or
      (List.lookup key [Json.field "event_id" (.string p.eventId.asStr), Json.field "hashes"
        (Json.ofFields [Json.field "sha256" (.string (p.contentHash sha256))])]) := by
  rw [Pdu.toJson, Json.get_ofFields (Pdu.toJson_nodup sha256 p), List.lookup_append]

theorem eventId_with (p : Pdu) (ts depth : UInt64) (content : Str) :
    ({ p with originServerTs := ts, depth := depth, contentJson := content } : Pdu).eventId =
      p.eventId :=
  rfl

theorem struck_eventId (roomVersion : Nat) (p : Pdu) :
    (struck roomVersion p).eventId = p.eventId :=
  eventId_with p (throughDouble p.originServerTs) (throughDouble p.depth)
    (struckContent roomVersion p).write

theorem get_toJson_struck (sha256 : List UInt8 → List UInt8) (h : KeptWhole roomVersion p)
    (key : Str) : (((struck roomVersion p).toJson sha256).get key).map Json.written =
      ((p.toJson sha256).get key).map Json.written := by
  have hid := struck_eventId roomVersion p
  have hunhashed := lookup_unhashed_struck h key
  rw [get_toJson, get_toJson, contentHash_struck sha256 h, hid]
  cases hp : p.unhashed.lookup key with
  | some v =>
      rw [hp] at hunhashed
      obtain ⟨w, hw, hwritten⟩ := Option.map_eq_some_iff.mp hunhashed
      rw [hw, Option.some_or, Option.some_or, Option.map_some, Option.map_some, hwritten]
  | none =>
      rw [hp, Option.map_none, Option.map_eq_none_iff] at hunhashed
      rw [hunhashed]

/-- The fields under the id of an event from which redaction strikes nothing. -/
theorem lookup_referenceFields (h : KeptWhole roomVersion p) (key : Str) :
    (p.referenceFields sha256 roomVersion).lookup key =
      if key = "unsigned".toList ∨ key = "signatures".toList ∨ key = "event_id".toList ∨
        key ∉ preservedTopKeys then none else (p.toJson sha256).get key := by
  -- redaction keeps the preserved fields, the content among them; the id strikes three more
  obtain ⟨-, -, -, htype, -, -, -, -, -, hcontent⟩ := @toJson_fields sha256 p
  obtain ⟨obj, hobj⟩ : ∃ obj, p.toJson sha256 = .object obj := ⟨_, rfl⟩
  rw [hobj] at htype hcontent
  have htype : obj.lookup "type".toList = some (.string p.kind) := htype
  have hcontent : obj.lookup "content".toList = some (embedded p.contentJson) := hcontent
  have hredacted : (redactedFields obj roomVersion).lookup key =
      if key ∈ preservedTopKeys then obj.lookup key else none := by
    by_cases hkey : key = "content".toList
    · rw [hkey, lookup_redactedFields_content, htype, hcontent, if_pos (by decide)]
      exact congrArg some (struckContent_of_keptWhole h)
    · exact lookup_redactedFields obj roomVersion hkey
  rw [Pdu.referenceFields, hobj, redact_object]
  show (SortedList.erase _ (SortedList.erase _ (SortedList.erase _
    (redactedFields obj roomVersion)))).lookup key = if _ then none else obj.lookup key
  rw [Json.lookup_erase, Json.lookup_erase, Json.lookup_erase, hredacted]
  by_cases hunsigned : key = "unsigned".toList
  · rw [if_pos hunsigned, if_pos (.inl hunsigned)]
  by_cases hsignatures : key = "signatures".toList
  · rw [if_neg hunsigned, if_pos hsignatures, if_pos (.inr (.inl hsignatures))]
  by_cases hid : key = "event_id".toList
  · rw [if_neg hunsigned, if_neg hsignatures, if_pos hid, if_pos (.inr (.inr (.inl hid)))]
  rw [if_neg hunsigned, if_neg hsignatures, if_neg hid]
  by_cases hmem : key ∈ preservedTopKeys
  · have hkept : ¬ (key = "unsigned".toList ∨ key = "signatures".toList ∨
        key = "event_id".toList ∨ key ∉ preservedTopKeys) := by
      intro h
      rcases h with h | h | h | h
      · exact hunsigned h
      · exact hsignatures h
      · exact hid h
      · exact h hmem
    rw [if_pos hmem, if_neg hkept]
  · rw [if_neg hmem, if_pos (.inr (.inr (.inr hmem)))]

theorem sorted_referenceFields (sha256 : List UInt8 → List UInt8) (p : Pdu) (roomVersion : Nat) :
    SortedList.Sorted (p.referenceFields sha256 roomVersion) := by
  obtain ⟨obj, hobj⟩ : ∃ obj, p.toJson sha256 = .object obj := ⟨_, rfl⟩
  rw [Pdu.referenceFields, hobj, redact_object]
  have hsorted := sorted_redactedFields obj roomVersion
  exact ((hsorted.filter _).filter _).filter _

theorem referenceText_struck (sha256 : List UInt8 → List UInt8) (h : KeptWhole roomVersion p) :
    (struck roomVersion p).referenceText sha256 roomVersion =
      p.referenceText sha256 roomVersion := by
  have hfields : ∀ key,
      (((struck roomVersion p).referenceFields sha256 roomVersion).lookup key).map Json.written =
        ((p.referenceFields sha256 roomVersion).lookup key).map Json.written := by
    intro key
    rw [lookup_referenceFields (keptWhole_struck h), lookup_referenceFields h]
    split
    · rfl
    · exact get_toJson_struck sha256 h key
  rw [Pdu.referenceText, Pdu.referenceText,
    write_congr (sorted_referenceFields sha256 _ roomVersion)
      (sorted_referenceFields sha256 p roomVersion) hfields]

/-! ## The id -/

/-- The texts under the ids and the content hashes of an event and of what is read back of it. -/
def hashedTexts (sha256 : List UInt8 → List UInt8) (roomVersion : Nat) (p : Pdu) :
    Set (List UInt8) :=
  { text | text = p.contentText ∨ text = (struck roomVersion p).contentText ∨
    text = p.referenceText sha256 roomVersion ∨
    text = (struck roomVersion p).referenceText sha256 roomVersion }

theorem keptWhole_of_referenceId (hsha : Set.InjOn sha256 (hashedTexts sha256 roomVersion p))
    (h : (struck roomVersion p).referenceId sha256 roomVersion =
      p.referenceId sha256 roomVersion) : KeptWhole roomVersion p := by
  have htext : (struck roomVersion p).referenceText sha256 roomVersion =
      p.referenceText sha256 roomVersion :=
    hsha (.inr (.inr (.inr rfl))) (.inr (.inr (.inl rfl)))
      (base64urlEncode_injective (List.cons.inj h).2)
  have hhash := Pdu.contentHash_eq_of_text htext
  have hcontent : (struck roomVersion p).contentText = p.contentText :=
    hsha (.inr (.inl rfl)) (.inl rfl) (base64Encode_injective hhash)
  exact keptWhole_of_contentText hcontent

/-- An event redacted and read back has the id it had exactly when redaction had nothing to strike,
for a digest that tells the texts it is applied to apart. -/
theorem redaction_keeps_id_iff (sha256 : List UInt8 → List UInt8) (roomVersion : Nat) (p : Pdu)
    (hsha : Set.InjOn sha256 (hashedTexts sha256 roomVersion p)) :
    ∃ q, redactedPdu sha256 roomVersion p = .ok q ∧
      (q.referenceId sha256 roomVersion = p.referenceId sha256 roomVersion ↔
        KeptWhole roomVersion p) := by
  apply Exists.intro (struck roomVersion p)
  apply And.intro (redactedPdu_eq sha256 roomVersion p)
  constructor
  · exact keptWhole_of_referenceId hsha
  · intro hwhole
    exact congrArg (Util.referenceId sha256) (referenceText_struck sha256 hwhole)

open Pdu.SampleBinding in
/-- A message without a body keeps its id. -/
theorem redaction_keeps_id_sample : ∃ q, redactedPdu id 11 (message "{}") = .ok q ∧
    q.referenceId id 11 = (message "{}").referenceId id 11 := by
  have hparse : embedded (message "{}").contentJson = .object [] := by
    rw [embedded, compact_parses]
    rfl
  have hwhole : KeptWhole 11 (message "{}") :=
    ⟨[], hparse, fun f hf => absurd hf List.not_mem_nil⟩
  obtain ⟨q, hq, hsame⟩ := redaction_keeps_id_iff id 11 (message "{}") (Set.injOn_id _)
  exact ⟨q, hq, hsame.mpr hwhole⟩

namespace SampleRedactedId

open Pdu.SampleBinding

/-- A message with a body. -/
def note : Pdu := message "\x7b\"body\":\"a\"\x7d".toList

theorem keys_note : (embedded note.contentJson).asObject.map (List.map Prod.fst) =
    some ["body".toList] := by
  decide +kernel

theorem not_keptWhole_note : ¬ KeptWhole 11 note := by
  intro ⟨fields, hobj, hkept⟩
  have hkeys := keys_note
  rw [hobj] at hkeys
  have hkeys : fields.map Prod.fst = ["body".toList] := Option.some.inj hkeys
  have hmem : "body".toList ∈ fields.map Prod.fst := by
    rw [hkeys]
    exact List.mem_singleton_self _
  obtain ⟨f, hf, hbody⟩ := List.mem_map.mp hmem
  have hkeeps := hkept f hf
  rw [hbody] at hkeeps
  have hdropped : "body".toList ∉ allowedContentKeys note.kind 11 := by decide +kernel
  have hother : note.kind ≠ roomCreate := by decide +kernel
  exact hkeeps.elim hdropped (fun h => hother h.1)

end SampleRedactedId

/-- A message that loses its body gets another id. -/
theorem redaction_changes_id : ∃ q, redactedPdu id 11 SampleRedactedId.note = .ok q ∧
    q.referenceId id 11 ≠ SampleRedactedId.note.referenceId id 11 := by
  apply Exists.intro (struck 11 SampleRedactedId.note)
  apply And.intro (redactedPdu_eq id 11 SampleRedactedId.note)
  intro hsame
  exact SampleRedactedId.not_keptWhole_note
    (@keptWhole_of_referenceId id 11 SampleRedactedId.note (Set.injOn_id _) hsame)

end GaussMatrix.StateRes
