import GaussMatrix.Api.JsonObject

/-!
# What a reference id binds

The reference id hashes the redacted event.  Redaction strikes most of the content, but it keeps
`hashes`, and the hash there is over the whole event: so an id fixes the event, as far as the digest
tells texts apart.
-/

namespace GaussMatrix.Api

open Library Util

namespace Pdu

variable {sha256 : List UInt8 → List UInt8}

/-! ## From the id to the content hash -/

theorem unhashed_nodup (p : Pdu) : (p.unhashed.map Prod.fst).Nodup := by
  rw [unhashed]
  cases p.stateKey with
  | none =>
      show List.Nodup (["room_id", "sender", "type", "origin_server_ts", "depth", "prev_events",
        "auth_events", "content"].map String.toList)
      decide
  | some sk =>
      show List.Nodup (["room_id", "sender", "type", "state_key", "origin_server_ts", "depth",
        "prev_events", "auth_events", "content"].map String.toList)
      decide

theorem toJson_nodup (sha256 : List UInt8 → List UInt8) (p : Pdu) :
    ((p.unhashed ++ [Json.field "event_id" (.string p.eventId.asStr),
      Json.field "hashes" (Json.ofFields
        [Json.field "sha256" (.string (p.contentHash sha256))])]).map Prod.fst).Nodup := by
  rw [unhashed]
  cases p.stateKey with
  | none =>
      show List.Nodup (["room_id", "sender", "type", "origin_server_ts", "depth", "prev_events",
        "auth_events", "content", "event_id", "hashes"].map String.toList)
      decide
  | some sk =>
      show List.Nodup (["room_id", "sender", "type", "state_key", "origin_server_ts", "depth",
        "prev_events", "auth_events", "content", "event_id", "hashes"].map String.toList)
      decide

/-- The fields the reference id is taken over. -/
def referenceFields (sha256 : List UInt8 → List UInt8) (p : Pdu) (roomVersion : Nat) :
    List (Str × Json) :=
  SortedList.erase "unsigned".toList (SortedList.erase "signatures".toList
    (SortedList.erase "event_id".toList
      (((redact (p.toJson sha256) roomVersion).asObject).getD [])))

theorem get_toJson_hashes (p : Pdu) : (p.toJson sha256).get "hashes" =
    some (Json.ofFields [Json.field "sha256" (.string (p.contentHash sha256))]) := by
  rw [toJson, Json.get_ofFields (toJson_nodup sha256 p), unhashed]
  cases p.stateKey with
  | none => rfl
  | some sk => rfl

/-- Redaction keeps the content hash, whatever the event type and the room version. -/
theorem lookup_hashes_referenceFields (p : Pdu) (roomVersion : Nat) :
    (p.referenceFields sha256 roomVersion).lookup "hashes".toList =
      some (Json.ofFields [Json.field "sha256" (.string (p.contentHash sha256))]) := by
  have hunsigned : "hashes".toList ≠ "unsigned".toList := by decide
  have hsignatures : "hashes".toList ≠ "signatures".toList := by decide
  have heventId : "hashes".toList ≠ "event_id".toList := by decide
  have hcontent : "hashes".toList ≠ "content".toList := by decide
  have hkept : "hashes".toList ∈ preservedTopKeys := by decide
  rw [referenceFields, Json.lookup_erase, if_neg hunsigned, Json.lookup_erase, if_neg hsignatures,
    Json.lookup_erase, if_neg heventId, ← get_toJson_hashes]
  obtain ⟨obj, hobj⟩ : ∃ obj, p.toJson sha256 = .object obj := ⟨_, rfl⟩
  rw [hobj, redact]
  show (SortedList.insert _ _ (keepKeys obj preservedTopKeys)).lookup _ = obj.lookup _
  rw [Json.lookup_insert, if_neg hcontent, lookup_keepKeys obj hkept]

/-- The text the reference id is the digest of. -/
def referenceText (sha256 : List UInt8 → List UInt8) (p : Pdu) (roomVersion : Nat) : List UInt8 :=
  utf8Bytes (Json.object (p.referenceFields sha256 roomVersion)).write

/-- The text the content hash is the digest of. -/
def contentText (p : Pdu) : List UInt8 := utf8Bytes (Json.ofFields p.unhashed).write

/-- One text under the reference id, one content hash. -/
theorem contentHash_eq_of_text {p q : Pdu} {roomVersion : Nat}
    (h : p.referenceText sha256 roomVersion = q.referenceText sha256 roomVersion) :
    p.contentHash sha256 = q.contentHash sha256 := by
  have htext : (Json.object (p.referenceFields sha256 roomVersion)).write =
      (Json.object (q.referenceFields sha256 roomVersion)).write := utf8Bytes_injective h
  have hwritten := congrArg (fun v => v.get "hashes") (Json.written_eq_of_write_eq htext)
  simp only [Json.get_written] at hwritten
  change Option.map _ ((p.referenceFields sha256 roomVersion).lookup "hashes".toList) =
    Option.map _ ((q.referenceFields sha256 roomVersion).lookup "hashes".toList) at hwritten
  rw [lookup_hashes_referenceFields, lookup_hashes_referenceFields] at hwritten
  have hvalue := congrArg (fun v => v.bind (fun w => (w.get "sha256").bind Json.asStr)) hwritten
  exact Option.some.inj hvalue

/-- One reference id, one content hash. -/
theorem contentHash_eq (hsha : Function.Injective sha256) {p q : Pdu} {roomVersion : Nat}
    (h : p.referenceId sha256 roomVersion = q.referenceId sha256 roomVersion) :
    p.contentHash sha256 = q.contentHash sha256 :=
  contentHash_eq_of_text (hsha (base64urlEncode_injective (List.cons.inj h).2))

/-! ## From the content hash to the event -/

theorem unhashed_eq_of_text {p q : Pdu} (h : p.contentText = q.contentText) (key : Str) :
    (p.unhashed.lookup key).map Json.written = (q.unhashed.lookup key).map Json.written := by
  have htext : (Json.ofFields p.unhashed).write = (Json.ofFields q.unhashed).write :=
    utf8Bytes_injective h
  have hwritten := congrArg (fun v => v.get key) (Json.written_eq_of_write_eq htext)
  simp only [Json.get_written] at hwritten
  rw [Json.get_ofFields (unhashed_nodup p), Json.get_ofFields (unhashed_nodup q)] at hwritten
  exact hwritten

theorem unhashed_eq (hsha : Function.Injective sha256) {p q : Pdu}
    (h : p.contentHash sha256 = q.contentHash sha256) (key : Str) :
    (p.unhashed.lookup key).map Json.written = (q.unhashed.lookup key).map Json.written :=
  unhashed_eq_of_text (hsha (base64Encode_injective h)) key

theorem unhashed_fields (p : Pdu) :
    p.unhashed.lookup "room_id".toList = some (.string p.roomId.asStr) ∧
    p.unhashed.lookup "sender".toList = some (.string p.sender.asStr) ∧
    p.unhashed.lookup "type".toList = some (.string p.kind) ∧
    p.unhashed.lookup "state_key".toList = p.stateKey.map Json.string ∧
    p.unhashed.lookup "origin_server_ts".toList =
      some (.number (F64.ofNat p.originServerTs.toNat)) ∧
    p.unhashed.lookup "depth".toList = some (.number (F64.ofNat p.depth.toNat)) ∧
    p.unhashed.lookup "prev_events".toList = some (eventIdArray p.prevEvents) ∧
    p.unhashed.lookup "auth_events".toList = some (eventIdArray p.authEvents) ∧
    p.unhashed.lookup "content".toList = some (p.content.getD (.object [])) := by
  rw [unhashed]
  cases p.stateKey with
  | none => exact ⟨rfl, rfl, rfl, rfl, rfl, rfl, rfl, rfl, rfl⟩
  | some sk => exact ⟨rfl, rfl, rfl, rfl, rfl, rfl, rfl, rfl, rfl⟩

theorem written_eventIdArray (ids : List EventId) :
    (eventIdArray ids).written = eventIdArray ids := by
  have hitems : Json.writtenItems (ids.map (fun e => .string e.asStr)) =
      ids.map (fun e => .string e.asStr) := by
    induction ids with
    | nil => rfl
    | cons e ids ih =>
        rw [List.map_cons, Json.writtenItems, ih]
        rfl
  rw [eventIdArray, Json.written, hitems]

theorem eventIdArray_injective : Function.Injective eventIdArray := by
  intro ids ids' h
  have hmap := Json.array.inj h
  have hinj : Function.Injective (fun e : EventId => Json.string e.asStr) :=
    fun _ _ heq => EventId.ext (Json.string.inj heq)
  exact List.map_injective_iff.mpr hinj hmap

/-- Integers that a double holds exactly are told apart in writing. -/
theorem writtenNumber_ofNat_inj {n m : Nat} (hn : n < 2 ^ 53) (hm : m < 2 ^ 53)
    (h : Json.writtenNumber (F64.ofNat n) = Json.writtenNumber (F64.ofNat m)) : n = m := by
  rw [F64.ofNat_eq_finite hn, F64.ofNat_eq_finite hm] at h
  simp only [Json.writtenNumber, F64.finite.injEq] at h
  exact Nat.eq_of_mul_eq_mul_right F64.unitsPerOne_pos h.2

/-- The reference id binds the event: two events of one room version that share an id agree in all
that the id is for, and their contents are equal values. -/
theorem reference_id_binds (hsha : Function.Injective sha256) (roomVersion : Nat) (p q : Pdu)
    {c d : Json} (hc : Json.parse p.contentJson = .ok c) (hd : Json.parse q.contentJson = .ok d)
    (hcFinite : c.Finite) (hdFinite : d.Finite)
    (hpTs : p.originServerTs.toNat < 2 ^ 53) (hqTs : q.originServerTs.toNat < 2 ^ 53)
    (hpDepth : p.depth.toNat < 2 ^ 53) (hqDepth : q.depth.toNat < 2 ^ 53)
    (h : p.referenceId sha256 roomVersion = q.referenceId sha256 roomVersion) :
    p.roomId = q.roomId ∧ p.sender = q.sender ∧ p.kind = q.kind ∧ p.stateKey = q.stateKey ∧
      p.originServerTs = q.originServerTs ∧ p.depth = q.depth ∧ p.prevEvents = q.prevEvents ∧
      p.authEvents = q.authEvents ∧ c.eqv d = true := by
  have hfield := unhashed_eq hsha (contentHash_eq hsha h)
  obtain ⟨hpRoom, hpSender, hpKind, hpKey, hpTime, hpDep, hpPrev, hpAuth, hpContent⟩ :=
    unhashed_fields p
  obtain ⟨hqRoom, hqSender, hqKind, hqKey, hqTime, hqDep, hqPrev, hqAuth, hqContent⟩ :=
    unhashed_fields q
  have hroom := hfield "room_id"
  rw [hpRoom, hqRoom] at hroom
  have hsender := hfield "sender"
  rw [hpSender, hqSender] at hsender
  have hkind := hfield "type"
  rw [hpKind, hqKind] at hkind
  have hkey := hfield "state_key"
  rw [hpKey, hqKey, Option.map_map, Option.map_map] at hkey
  have htime := hfield "origin_server_ts"
  rw [hpTime, hqTime] at htime
  have hdepth := hfield "depth"
  rw [hpDep, hqDep] at hdepth
  have hprev := hfield "prev_events"
  rw [hpPrev, hqPrev, Option.map_some, Option.map_some, written_eventIdArray,
    written_eventIdArray] at hprev
  have hauth := hfield "auth_events"
  rw [hpAuth, hqAuth, Option.map_some, Option.map_some, written_eventIdArray,
    written_eventIdArray] at hauth
  have hcontent := hfield "content"
  rw [hpContent, hqContent, content, content, hc, hd] at hcontent
  have hkeyInj : Function.Injective (Json.written ∘ Json.string) :=
    fun _ _ heq => Json.string.inj heq
  -- below 2 ^ 53 a double holds the number itself
  have htimeNat := writtenNumber_ofNat_inj hpTs hqTs (Json.number.inj (Option.some.inj htime))
  have hdepthNat := writtenNumber_ofNat_inj hpDepth hqDepth
    (Json.number.inj (Option.some.inj hdepth))
  have heqv := Json.eqv_of_written c d hcFinite (Option.some.inj hcontent)
  exact ⟨RoomId.ext (Json.string.inj (Option.some.inj hroom)),
    UserId.ext (Json.string.inj (Option.some.inj hsender)), Json.string.inj (Option.some.inj hkind),
    Option.map_injective hkeyInj hkey, UInt64.toNat_inj.mp htimeNat, UInt64.toNat_inj.mp hdepthNat,
    eventIdArray_injective (Option.some.inj hprev), eventIdArray_injective (Option.some.inj hauth),
    heqv.trans hdFinite⟩

namespace SampleBinding

/-- A message without fields, its content spelt with or without a blank. -/
def message (contentJson : Str) : Pdu where
  eventId := ⟨"$m", by decide⟩
  roomId := ⟨"!r:x", valid_room⟩
  sender := ⟨"@a:x", valid_alice⟩
  kind := "m.room.message"
  stateKey := none
  originServerTs := 7
  depth := 3
  prevEvents := []
  authEvents := []
  contentJson := contentJson

theorem compact_parses : Json.parse (message "{}").contentJson = .ok (.object []) := rfl

theorem spaced_parses : Json.parse (message "{ }").contentJson = .ok (.object []) := rfl

theorem same_id : (message "{}").referenceId id 12 = (message "{ }").referenceId id 12 := by
  have hunhashed : (message "{}").unhashed = (message "{ }").unhashed := by
    simp only [unhashed, content, compact_parses, spaced_parses]
    rfl
  simp only [referenceId, toJson, contentHash, hunhashed]
  rfl

end SampleBinding

theorem respelt_message_binds :
    (SampleBinding.message "{}").kind = (SampleBinding.message "{ }").kind ∧
      (Json.object []).eqv (.object []) = true := by
  have hbound := reference_id_binds Function.injective_id 12 (SampleBinding.message "{}")
    (SampleBinding.message "{ }") SampleBinding.compact_parses SampleBinding.spaced_parses rfl rfl
    (by decide) (by decide) (by decide) (by decide) SampleBinding.same_id
  obtain ⟨-, -, hkind, -, -, -, -, -, hcontent⟩ := hbound
  exact ⟨hkind, hcontent⟩

end Pdu

end GaussMatrix.Api
