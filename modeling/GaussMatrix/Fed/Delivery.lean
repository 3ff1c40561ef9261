import GaussMatrix.Api.JsonRoundTrip
import GaussMatrix.Api.ReferenceBinding
import GaussMatrix.Fed.Transaction

/-!
# A transaction over the wire

A transaction is written, sent as text, parsed and decoded.  Decoding always succeeds on what was
parsed, and it yields the events with their integers passed through a double and their contents
reprinted; parsing succeeds unless some content stands too deep inside the transaction.
-/

namespace GaussMatrix.Fed

open Library Util Api

variable {sha256 : List UInt8 → List UInt8}

/-! ## Integers -/

/-- A `u64` after its passage as a double. -/
def throughDouble (n : UInt64) : UInt64 := (Json.asU64 (.number (F64.ofNat n.toNat))).getD 0

theorem asU64_throughDouble (n : UInt64) :
    Json.asU64 (.number (F64.ofNat n.toNat)) = some (throughDouble n) := by
  obtain ⟨q, -, -, -, hread⟩ := Json.asU64_ofNat n
  rw [throughDouble, hread]
  rfl

-- comparing two events must not start computing with doubles
attribute [irreducible] throughDouble

theorem throughDouble_eq_iff (n : UInt64) : throughDouble n = n ↔
    F64.Representable (n.toNat * F64.unitsPerOne) ∨ n.toNat = 2 ^ 64 - 1 := by
  rw [← Json.asU64_ofNat_eq_iff, asU64_throughDouble, Option.some.injEq]

/-- The second passage changes nothing. -/
theorem ofNat_throughDouble (n : UInt64) :
    F64.ofNat (throughDouble n).toNat = F64.ofNat n.toNat := by
  obtain ⟨q, hq, fits, hnum, hread⟩ := Json.asU64_ofNat n
  have hthrough : throughDouble n = UInt64.ofNat (min q (2 ^ 64 - 1)) := by
    rw [asU64_throughDouble] at hread
    exact Option.some.inj hread
  have hmin : (throughDouble n).toNat = min q (2 ^ 64 - 1) := by
    rw [hthrough]
    exact UInt64.toNat_ofNat_of_lt' (Nat.lt_of_le_of_lt (Nat.min_le_right _ _) (by decide))
  by_cases htop : q ≤ 2 ^ 64 - 1
  · have hround := F64.roundUnits_self fits Nat.one_pos
    rw [Nat.mul_one] at hround
    rw [hmin, Nat.min_eq_left htop, hnum]
    exact F64.ofUnits_eq_finite fits hround
  · -- the cast back saturated, and the largest integer rounds up again
    have hsaturated : q = 2 ^ 64 := by omega
    have hceil : ∃ fits, F64.ofNat (2 ^ 64 - 1) = .finite false (2 ^ 64 * F64.unitsPerOne) fits :=
      ⟨by decide +kernel, by decide +kernel⟩
    obtain ⟨hfits, hceil⟩ := hceil
    rw [hmin, Nat.min_eq_right (by omega), hceil, hnum]
    simp only [hsaturated]

theorem written_ofNat (n : UInt64) :
    (Json.number (F64.ofNat n.toNat)).written = .number (F64.ofNat n.toNat) := by
  obtain ⟨q, -, fits, hnum, -⟩ := Json.asU64_ofNat n
  rw [hnum]
  rfl

/-! ## One event -/

/-- The content of an event as it is embedded. -/
def embedded (contentJson : Str) : Json := (Json.parse contentJson).toOption.getD (.object [])

/-- An event as the other side decodes it. -/
def deliveredPdu (p : Pdu) : Pdu :=
  { p with
    originServerTs := throughDouble p.originServerTs
    depth := throughDouble p.depth
    contentJson := (embedded p.contentJson).write }

theorem toJson_fields (p : Pdu) :
    (p.toJson sha256).get "event_id".toList = some (.string p.eventId.asStr) ∧
    (p.toJson sha256).get "room_id".toList = some (.string p.roomId.asStr) ∧
    (p.toJson sha256).get "sender".toList = some (.string p.sender.asStr) ∧
    (p.toJson sha256).get "type".toList = some (.string p.kind) ∧
    (p.toJson sha256).get "state_key".toList = p.stateKey.map Json.string ∧
    (p.toJson sha256).get "origin_server_ts".toList =
      some (.number (F64.ofNat p.originServerTs.toNat)) ∧
    (p.toJson sha256).get "depth".toList = some (.number (F64.ofNat p.depth.toNat)) ∧
    (p.toJson sha256).get "prev_events".toList = some (Pdu.eventIdArray p.prevEvents) ∧
    (p.toJson sha256).get "auth_events".toList = some (Pdu.eventIdArray p.authEvents) ∧
    (p.toJson sha256).get "content".toList = some (embedded p.contentJson) := by
  have hget : ∀ key, (p.toJson sha256).get key = (p.unhashed.lookup key).or
      (List.lookup key [Json.field "event_id" (.string p.eventId.asStr), Json.field "hashes"
        (Json.ofFields [Json.field "sha256" (.string (p.contentHash sha256))])]) := by
    intro key
    rw [Pdu.toJson, Json.get_ofFields (Pdu.toJson_nodup sha256 p), List.lookup_append]
  have hid : p.unhashed.lookup "event_id".toList = none := by
    rw [Pdu.unhashed]
    cases p.stateKey <;> rfl
  obtain ⟨hroom, hsender, hkind, hkey, htime, hdepth, hprev, hauth, hcontent⟩ :=
    Pdu.unhashed_fields p
  have hfound {key : Str} {v : Json} (h : p.unhashed.lookup key = some v) :
      (p.toJson sha256).get key = some v := by
    rw [hget, h]
    rfl
  have hkeyGet : (p.toJson sha256).get "state_key".toList = p.stateKey.map Json.string := by
    rw [hget, hkey]
    cases p.stateKey <;> rfl
  have hidGet : (p.toJson sha256).get "event_id".toList = some (.string p.eventId.asStr) := by
    rw [hget, hid]
    rfl
  exact ⟨hidGet, hfound hroom, hfound hsender, hfound hkind, hkeyGet, hfound htime, hfound hdepth,
    hfound hprev, hfound hauth, hfound hcontent⟩

/-- Decoding element by element, when each element decodes. -/
theorem mapM_map_ok {α β γ ε : Type} {f : β → Except ε γ} {key : α → β} {g : α → γ} (items : List α)
    (h : ∀ x ∈ items, f (key x) = .ok (g x)) : (items.map key).mapM f = .ok (items.map g) := by
  induction items with
  | nil => rfl
  | cons x xs ih =>
      obtain ⟨hx, hxs⟩ := List.forall_mem_cons.mp h
      rw [List.map_cons, List.mapM_cons, hx, ih hxs]
      rfl

theorem parseId_ok {τ : Type} {j : Json} {key s : Str} {parse : Str → Option τ} {id : τ}
    (hget : j.get key = some (.string s)) (hparse : parse s = some id) :
    Pdu.parseId j key parse = .ok id := by
  rw [Pdu.parseId, Pdu.strField, hget]
  show (parse s).elim _ _ = _
  rw [hparse]
  rfl

theorem parseIdArray_ok {j : Json} {key : Str} {ids : List EventId}
    (hget : j.get key = some (Pdu.eventIdArray ids)) : Pdu.parseIdArray j key = .ok ids := by
  have hitems : (ids.map (fun e => Json.string e.asStr)).mapM (fun item =>
      (item.asStr.bind EventId.parse).elim (Except.error (PduError.invalidField key)) Except.ok) =
      .ok (ids.map id) := by
    apply mapM_map_ok
    intro e _
    show (EventId.parse e.asStr).elim _ _ = _
    rw [EventId.parse_asStr]
    rfl
  rw [List.map_id] at hitems
  rw [Pdu.parseIdArray, hget]
  exact hitems

theorem u64Field_ok {j : Json} {key : Str} {n : UInt64}
    (hget : j.get key = some (.number (F64.ofNat n.toNat))) :
    Pdu.u64Field j key = .ok (throughDouble n) := by
  rw [Pdu.u64Field, hget]
  show (Json.asU64 _).elim _ _ = _
  rw [asU64_throughDouble]
  rfl

/-- A JSON form with the fields of an event and some content is decoded. -/
theorem fromJson_of_fields {j content : Json} {p : Pdu}
    (hid : j.get "event_id".toList = some (.string p.eventId.asStr))
    (hroom : j.get "room_id".toList = some (.string p.roomId.asStr))
    (hsender : j.get "sender".toList = some (.string p.sender.asStr))
    (hkind : j.get "type".toList = some (.string p.kind))
    (hkey : j.get "state_key".toList = p.stateKey.map Json.string)
    (htime : j.get "origin_server_ts".toList = some (.number (F64.ofNat p.originServerTs.toNat)))
    (hdepth : j.get "depth".toList = some (.number (F64.ofNat p.depth.toNat)))
    (hprev : j.get "prev_events".toList = some (Pdu.eventIdArray p.prevEvents))
    (hauth : j.get "auth_events".toList = some (Pdu.eventIdArray p.authEvents))
    (hcontent : j.get "content".toList = some content) :
    Pdu.fromJson j = .ok
      { p with
        originServerTs := throughDouble p.originServerTs
        depth := throughDouble p.depth
        contentJson := content.write } := by
  have hstr : Pdu.strField j "type".toList = .ok p.kind := by
    rw [Pdu.strField, hkind]
    rfl
  rw [Pdu.fromJson, parseId_ok hid (EventId.parse_asStr _), parseId_ok hroom (RoomId.parse_asStr _),
    parseId_ok hsender (UserId.parse_asStr _), hstr, u64Field_ok htime, u64Field_ok hdepth,
    parseIdArray_ok hprev, parseIdArray_ok hauth, hcontent, hkey]
  cases p.stateKey <;> rfl

/-- An event that was parsed from its own text is decoded, whatever it was. -/
theorem fromJson_written (p : Pdu) :
    Pdu.fromJson (p.toJson sha256).written = .ok (deliveredPdu p) := by
  obtain ⟨hid, hroom, hsender, hkind, hkey, htime, hdepth, hprev, hauth, hcontent⟩ :=
    @toJson_fields sha256 p
  have hstring {key s : Str} (h : (p.toJson sha256).get key = some (.string s)) :
      (p.toJson sha256).written.get key = some (.string s) := by
    rw [Json.get_written, h]
    rfl
  have hnumber {key : Str} {n : UInt64}
      (h : (p.toJson sha256).get key = some (.number (F64.ofNat n.toNat))) :
      (p.toJson sha256).written.get key = some (.number (F64.ofNat n.toNat)) := by
    rw [Json.get_written, h, Option.map_some, written_ofNat]
  have hids {key : Str} {ids : List EventId}
      (h : (p.toJson sha256).get key = some (Pdu.eventIdArray ids)) :
      (p.toJson sha256).written.get key = some (Pdu.eventIdArray ids) := by
    rw [Json.get_written, h, Option.map_some, Pdu.written_eventIdArray]
  have hkeyRead : (p.toJson sha256).written.get "state_key".toList =
      p.stateKey.map Json.string := by
    rw [Json.get_written, hkey]
    cases p.stateKey <;> rfl
  have hcontentRead : (p.toJson sha256).written.get "content".toList =
      some (embedded p.contentJson).written := by
    rw [Json.get_written, hcontent]
    rfl
  rw [fromJson_of_fields (hstring hid) (hstring hroom) (hstring hsender) (hstring hkind) hkeyRead
    (hnumber htime) (hnumber hdepth) (hids hprev) (hids hauth) hcontentRead, deliveredPdu,
    Json.write_written]

/-! ## The transaction -/

/-- An ephemeral unit as the other side decodes it. -/
def deliveredEdu (e : Edu) : Edu := { e with contentJson := (embedded e.contentJson).write }

/-- A transaction as the other side decodes it. -/
def delivered (t : Transaction) : Transaction where
  origin := t.origin
  originServerTs := throughDouble t.originServerTs
  pdus := t.pdus.map deliveredPdu
  edus := t.edus.map deliveredEdu

theorem eduFields_nodup (e : Edu) :
    ([Json.field "edu_type" (.string e.eduType),
      Json.field "content" (embedded e.contentJson)].map Prod.fst).Nodup := by
  show List.Nodup (["edu_type", "content"].map String.toList)
  decide

/-- A JSON form with the type of an ephemeral unit and some content is decoded. -/
theorem edu_of_fields {j content : Json} {e : Edu}
    (htype : j.get "edu_type".toList = some (.string e.eduType))
    (hcontent : j.get "content".toList = some content) :
    Edu.fromJson j = .ok { e with contentJson := content.write } := by
  rw [Edu.fromJson, htype, hcontent]
  rfl

theorem edu_fromJson_written (e : Edu) : Edu.fromJson e.toJson.written = .ok (deliveredEdu e) := by
  have hget : ∀ key, e.toJson.written.get key =
      (List.lookup key [Json.field "edu_type" (.string e.eduType),
        Json.field "content" (embedded e.contentJson)]).map Json.written := by
    intro key
    rw [Json.get_written, Edu.toJson]
    exact congrArg _ (Json.get_ofFields (eduFields_nodup e) key)
  have htype : e.toJson.written.get "edu_type".toList = some (.string e.eduType) := hget _
  have hcontent : e.toJson.written.get "content".toList =
      some (embedded e.contentJson).written := hget _
  rw [edu_of_fields htype hcontent, deliveredEdu, Json.write_written]

theorem transactionFields_nodup (sha256 : List UInt8 → List UInt8) (t : Transaction) :
    ([Json.field "origin" (.string t.origin),
      Json.field "origin_server_ts" (.number (F64.ofNat t.originServerTs.toNat)),
      Json.field "pdus" (.array (t.pdus.map (Pdu.toJson sha256))),
      Json.field "edus" (.array (t.edus.map Edu.toJson))].map Prod.fst).Nodup := by
  show List.Nodup (["origin", "origin_server_ts", "pdus", "edus"].map String.toList)
  decide

theorem writtenItems_eq_map (items : List Json) :
    Json.writtenItems items = items.map Json.written := by
  induction items with
  | nil => rfl
  | cons item items ih => rw [Json.writtenItems, ih, List.map_cons]

/-- A JSON form with the fields of a transaction is decoded, when each unit in it is. -/
theorem transaction_of_fields {j : Json} {t : Transaction} {pduForm : Pdu → Json}
    {eduForm : Edu → Json}
    (hpdu : ∀ p, Pdu.fromJson (pduForm p) = .ok (deliveredPdu p))
    (hedu : ∀ e, Edu.fromJson (eduForm e) = .ok (deliveredEdu e))
    (horigin : j.get "origin".toList = some (.string t.origin))
    (htime : j.get "origin_server_ts".toList =
      some (.number (F64.ofNat t.originServerTs.toNat)))
    (hpdus : j.get "pdus".toList = some (.array (t.pdus.map pduForm)))
    (hedus : j.get "edus".toList = some (.array (t.edus.map eduForm))) :
    Transaction.fromJson j = .ok (delivered t) := by
  have heduItems : (t.edus.map eduForm).mapM Edu.fromJson = .ok (t.edus.map deliveredEdu) :=
    mapM_map_ok t.edus fun e _ => hedu e
  unfold Transaction.fromJson
  rw [horigin, htime, Transaction.arrayField, hpdus, hedus]
  rw [Option.bind_some, Option.bind_some, asU64_throughDouble]
  show (List.mapM _ (t.pdus.map pduForm) >>= fun pdus =>
    List.mapM Edu.fromJson (t.edus.map eduForm) >>= fun edus =>
      Except.ok (Transaction.mk t.origin (throughDouble t.originServerTs) pdus edus)) = _
  rw [heduItems, mapM_map_ok (g := deliveredPdu) t.pdus]
  · rfl
  · intro p _
    rw [hpdu]

/-- What was parsed from the text of a transaction is decoded, whatever the transaction was. -/
theorem transaction_fromJson_written (t : Transaction) :
    Transaction.fromJson (t.toJson sha256).written = .ok (delivered t) := by
  have hget : ∀ key, (t.toJson sha256).written.get key =
      (List.lookup key [Json.field "origin" (.string t.origin),
        Json.field "origin_server_ts" (.number (F64.ofNat t.originServerTs.toNat)),
        Json.field "pdus" (.array (t.pdus.map (Pdu.toJson sha256))),
        Json.field "edus" (.array (t.edus.map Edu.toJson))]).map Json.written := by
    intro key
    rw [Json.get_written, Transaction.toJson, Json.get_ofFields (transactionFields_nodup sha256 t)]
  have horigin : (t.toJson sha256).written.get "origin".toList = some (.string t.origin) := hget _
  have htime : (t.toJson sha256).written.get "origin_server_ts".toList =
      some (Json.number (F64.ofNat t.originServerTs.toNat)).written := hget _
  have hpdus : (t.toJson sha256).written.get "pdus".toList =
      some (.array (Json.writtenItems (t.pdus.map (Pdu.toJson sha256)))) := hget _
  have hedus : (t.toJson sha256).written.get "edus".toList =
      some (.array (Json.writtenItems (t.edus.map Edu.toJson))) := hget _
  rw [writtenItems_eq_map, List.map_map] at hpdus hedus
  rw [written_ofNat] at htime
  exact transaction_of_fields fromJson_written edu_fromJson_written horigin htime hpdus hedus

/-! ## Depth and key order -/

/-- A property of all fields of an event's wire form: it is enough that it holds of strings,
integers, lists of ids, the hashes and the content. -/
theorem forall_toJson_fields {P : Json → Prop} {p : Pdu} (hstr : ∀ s, P (.string s))
    (hnum : ∀ n, P (.number (F64.ofNat n))) (hids : ∀ ids, P (Pdu.eventIdArray ids))
    (hhashes : ∀ s, P (Json.ofFields [Json.field "sha256" (.string s)]))
    (hcontent : P (embedded p.contentJson)) :
    ∀ f ∈ p.unhashed ++ [Json.field "event_id" (.string p.eventId.asStr),
      Json.field "hashes" (Json.ofFields
        [Json.field "sha256" (.string (p.contentHash sha256))])], P f.2 := by
  rw [Pdu.unhashed]
  simp only [List.forall_mem_append, List.forall_mem_cons]
  refine ⟨⟨⟨⟨hstr _, hstr _, hstr _, fun _ h => absurd h List.not_mem_nil⟩, ?_⟩, hnum _, hnum _,
    hids _, hids _, hcontent, fun _ h => absurd h List.not_mem_nil⟩, hstr _, hhashes _,
    fun _ h => absurd h List.not_mem_nil⟩
  cases p.stateKey with
  | none => exact fun _ h => absurd h List.not_mem_nil
  | some sk => exact List.forall_mem_singleton.mpr (hstr sk)

theorem ordered_embedded (contentJson : Str) : Json.Ordered (embedded contentJson) := by
  rw [embedded]
  cases hparse : Json.parse contentJson with
  | error err => rfl
  | ok c => exact (Json.fits_of_parse hparse).2

theorem nesting_embedded_le (contentJson : Str) :
    (embedded contentJson).nesting ≤ maxDepth := by
  rw [embedded]
  cases hparse : Json.parse contentJson with
  | error err => exact Nat.zero_le _
  | ok c => exact (Json.fits_of_parse hparse).1

theorem ordered_eventIdArray (ids : List EventId) : Json.Ordered (Pdu.eventIdArray ids) := by
  apply Json.everywhere_array.mpr
  refine ⟨rfl, fun item hitem => ?_⟩
  obtain ⟨e, -, rfl⟩ := List.mem_map.mp hitem
  rfl

theorem ordered_toJson (p : Pdu) : Json.Ordered (p.toJson sha256) := by
  apply Json.ordered_ofFields
  apply forall_toJson_fields
  · exact fun s => rfl
  · exact fun n => rfl
  · exact ordered_eventIdArray
  · exact fun s => rfl
  · exact ordered_embedded p.contentJson

theorem nesting_eventIdArray (ids : List EventId) : (Pdu.eventIdArray ids).nesting ≤ 1 := by
  apply Json.nestingItems_le_iff.mpr
  intro item hitem
  obtain ⟨e, -, rfl⟩ := List.mem_map.mp hitem
  exact Nat.le_refl 1

/-- An event's wire form is one level deeper than its content. -/
theorem nesting_toJson_le_iff (p : Pdu) {n : Nat} (hn : 2 ≤ n) :
    (p.toJson sha256).nesting ≤ n ↔ (embedded p.contentJson).nesting + 1 ≤ n := by
  rw [Pdu.toJson, Json.nesting_ofFields_le_iff (Pdu.toJson_nodup sha256 p)]
  constructor
  · intro h
    have hmem : Json.field "content" (embedded p.contentJson) ∈
        p.unhashed ++ [Json.field "event_id" (.string p.eventId.asStr),
          Json.field "hashes" (Json.ofFields
            [Json.field "sha256" (.string (p.contentHash sha256))])] := by
      rw [Pdu.unhashed]
      simp [embedded, Pdu.content]
    exact h _ hmem
  · intro h
    apply forall_toJson_fields (P := fun v => v.nesting + 1 ≤ n)
    · intro s
      exact Nat.le_trans (by decide : 1 ≤ 2) hn
    · intro m
      exact Nat.le_trans (by decide : 1 ≤ 2) hn
    · intro ids
      have hle := nesting_eventIdArray ids
      omega
    · intro s
      exact hn
    · exact h

theorem ordered_edu (e : Edu) : Json.Ordered e.toJson := by
  apply Json.ordered_ofFields
  simp only [List.forall_mem_cons]
  exact ⟨rfl, ordered_embedded e.contentJson, fun _ h => absurd h List.not_mem_nil⟩

theorem nesting_edu_le_iff (e : Edu) {n : Nat} (hn : 2 ≤ n) :
    e.toJson.nesting ≤ n ↔ (embedded e.contentJson).nesting + 1 ≤ n := by
  have hfields := Json.nesting_ofFields_le_iff (eduFields_nodup e) (n := n)
  simp only [List.forall_mem_cons] at hfields
  have hstr : (Json.string e.eduType).nesting + 1 ≤ n := Nat.le_trans (by decide : 1 ≤ 2) hn
  constructor
  · intro h
    exact (hfields.mp h).2.1
  · intro h
    exact hfields.mpr ⟨hstr, h, fun _ h => absurd h List.not_mem_nil⟩

theorem ordered_array {items : List Json} (h : ∀ item ∈ items, Json.Ordered item) :
    Json.Ordered (.array items) := Json.everywhere_array.mpr ⟨rfl, h⟩

theorem ordered_transaction (t : Transaction) : Json.Ordered (t.toJson sha256) := by
  have hpdus : Json.Ordered (.array (t.pdus.map (Pdu.toJson sha256))) := by
    apply ordered_array
    intro item hitem
    obtain ⟨p, -, rfl⟩ := List.mem_map.mp hitem
    exact ordered_toJson p
  have hedus : Json.Ordered (.array (t.edus.map Edu.toJson)) := by
    apply ordered_array
    intro item hitem
    obtain ⟨e, -, rfl⟩ := List.mem_map.mp hitem
    exact ordered_edu e
  apply Json.ordered_ofFields
  simp only [List.forall_mem_cons]
  exact ⟨rfl, rfl, hpdus, hedus, fun _ h => absurd h List.not_mem_nil⟩

/-- The deepest content that fits inside a transaction: three levels stand around it. -/
def deepestContent : Nat := maxDepth - 3

/-- A transaction fits when every content in it does. -/
theorem nesting_transaction_le_iff (t : Transaction) : (t.toJson sha256).nesting ≤ maxDepth ↔
    (∀ p ∈ t.pdus, (embedded p.contentJson).nesting ≤ deepestContent) ∧
      ∀ e ∈ t.edus, (embedded e.contentJson).nesting ≤ deepestContent := by
  have hfields := Json.nesting_ofFields_le_iff (transactionFields_nodup sha256 t) (n := maxDepth)
  simp only [List.forall_mem_cons] at hfields
  have hpdus : (Json.array (t.pdus.map (Pdu.toJson sha256))).nesting + 1 ≤ maxDepth ↔
      ∀ p ∈ t.pdus, (embedded p.contentJson).nesting ≤ deepestContent := by
    rw [Nat.succ_le_iff, Nat.lt_iff_le_pred (by decide)]
    show Json.nestingItems _ ≤ _ ↔ _
    rw [Json.nestingItems_le_iff, List.forall_mem_map]
    refine forall₂_congr fun p _ => ?_
    have hp := @nesting_toJson_le_iff sha256 p (n := 126) (by decide)
    show (p.toJson sha256).nesting + 1 ≤ 127 ↔ (embedded p.contentJson).nesting ≤ 125
    omega
  have hedus : (Json.array (t.edus.map Edu.toJson)).nesting + 1 ≤ maxDepth ↔
      ∀ e ∈ t.edus, (embedded e.contentJson).nesting ≤ deepestContent := by
    rw [Nat.succ_le_iff, Nat.lt_iff_le_pred (by decide)]
    show Json.nestingItems _ ≤ _ ↔ _
    rw [Json.nestingItems_le_iff, List.forall_mem_map]
    refine forall₂_congr fun e _ => ?_
    have he := nesting_edu_le_iff e (n := 126) (by decide)
    show e.toJson.nesting + 1 ≤ 127 ↔ (embedded e.contentJson).nesting ≤ 125
    omega
  have hscalar : 0 + 1 ≤ maxDepth := by decide
  constructor
  · intro h
    obtain ⟨-, -, hp, he, -⟩ := hfields.mp h
    exact ⟨hpdus.mp hp, hedus.mp he⟩
  · rintro ⟨hp, he⟩
    exact hfields.mpr ⟨hscalar, hscalar, hpdus.mpr hp, hedus.mpr he,
      fun _ h => absurd h List.not_mem_nil⟩

/-! ## Over the wire -/

/-- The other side's reading of a text. -/
def receiveText (text : Str) : Option Transaction :=
  (Json.parse text).toOption.bind fun value => (Transaction.fromJson value).toOption

theorem receiveText_ok {text : Str} {value : Json} {t : Transaction}
    (hparse : Json.parse text = .ok value) (hdecode : Transaction.fromJson value = .ok t) :
    receiveText text = some t := by
  rw [receiveText, hparse]
  show (Transaction.fromJson value).toOption = some t
  rw [hdecode]
  rfl

theorem receiveText_error {text : Str} {err : JsonError} (hparse : Json.parse text = .error err) :
    receiveText text = none := by
  rw [receiveText, hparse]
  rfl

/-- The other side reads a transaction exactly when every content in it fits, and what it reads is
the transaction with integers passed through doubles and contents reprinted. -/
theorem receiveText_eq_some_iff {t t' : Transaction} :
    receiveText (t.toJson sha256).write = some t' ↔
      ((∀ p ∈ t.pdus, (embedded p.contentJson).nesting ≤ deepestContent) ∧
        ∀ e ∈ t.edus, (embedded e.contentJson).nesting ≤ deepestContent) ∧ t' = delivered t := by
  have hparse := Json.parse_write (@ordered_transaction sha256 t)
  rw [← nesting_transaction_le_iff]
  by_cases hfits : (t.toJson sha256).nesting ≤ maxDepth
  · rw [if_pos hfits] at hparse
    rw [receiveText_ok hparse (transaction_fromJson_written t), Option.some.injEq, eq_comm]
    exact (and_iff_right hfits).symm
  · rw [if_neg hfits] at hparse
    rw [receiveText_error hparse]
    constructor
    · intro h
      cases h
    · intro h
      exact absurd h.1 hfits

/-- The event is the same on the other side: its ids, its place in the graph and its content. -/
def SameEvent (p q : Pdu) : Prop :=
  q.eventId = p.eventId ∧ q.roomId = p.roomId ∧ q.sender = p.sender ∧ q.kind = p.kind ∧
    q.stateKey = p.stateKey ∧ q.depth = p.depth ∧ q.prevEvents = p.prevEvents ∧
    q.authEvents = p.authEvents ∧
    ∃ c d, p.content = some c ∧ q.content = some d ∧ d.eqv c = true

-- stated for any timestamp and depth, so that no step computes with doubles
theorem sameEvent_with {p : Pdu} {ts depth : UInt64} {content : Str} {c d : Json}
    (hc : p.content = some c) (hd : (Json.parse content).toOption = some d) :
    SameEvent p { p with originServerTs := ts, depth := depth, contentJson := content } ↔
      depth = p.depth ∧ d.eqv c = true := by
  constructor
  · rintro ⟨-, -, -, -, -, hdepth, -, -, c', d', hc', hd', heq⟩
    have hcc : c' = c := Option.some.inj (hc'.symm.trans hc)
    have hdd : d' = d := Option.some.inj (hd'.symm.trans hd)
    rw [hcc, hdd] at heq
    exact ⟨hdepth, heq⟩
  · intro ⟨hdepth, heq⟩
    exact ⟨rfl, rfl, rfl, rfl, rfl, hdepth, rfl, rfl, c, d, hc, hd, heq⟩

/-- An event whose content parses is the same once decoded exactly when a double holds its depth and
its numbers are finite. -/
theorem sameEvent_delivered_iff {p : Pdu} {c : Json} (hc : Json.parse p.contentJson = .ok c) :
    SameEvent p (deliveredPdu p) ↔
      (F64.Representable (p.depth.toNat * F64.unitsPerOne) ∨ p.depth.toNat = 2 ^ 64 - 1) ∧
        c.Finite := by
  have hcontent : p.content = some c := by
    rw [Pdu.content, hc]
    rfl
  have hdelivered : (Json.parse (embedded p.contentJson).write).toOption = some c.written := by
    rw [embedded, hc]
    show (Json.parse c.write).toOption = _
    rw [Json.parse_write_of_parse hc]
    rfl
  rw [← throughDouble_eq_iff, Json.Finite, ← Json.eqv_written, deliveredPdu]
  exact sameEvent_with hcontent hdelivered

end GaussMatrix.Fed
