import GaussMatrix.Http.Ingress
import GaussMatrix.Http.Routing
import GaussMatrix.Library.Fallible
import GaussMatrix.Svc.Backfill

/-!
# The query of a backfill request

The events that a walk starts from are named in the query.  Unlike the parameters in the path they
are not decoded, so a peer that escapes a character of an id names an event that no room has.
-/

namespace GaussMatrix.Http

open Library Util Api Svc RoomService

/-- Every value of a query parameter of a target, in order. -/
def queryParamsAll (target name : Str) : List Str :=
  match (target.splitOn '?')[1]? with
  | none => []
  | some query =>
      let pairs := ((query.takeWhile (· ≠ '#')).splitOn '&').filterMap (splitOnce '=')
      (pairs.filter fun pair => pair.1 = name ∧ pair.2 ≠ []).map Prod.snd

/-- The answer of a walk from some events. -/
def backfillAnswer (sha256 : List UInt8 → List UInt8) (s : Data) (room : RoomId)
    (requested : List Str) (limit : Nat) : Rounds Response := do
  let pdus ← backfill s room requested limit
  return .jsonOk (Json.ofFields [Json.field "pdus" (.array (pdus.map (Pdu.toJson sha256)))]).write

def backfillLimit (target : Str) : Nat :=
  ((queryParam target "limit".toList).bind parseU64).getD 10

def serveFederationBackfill (sha256 : List UInt8 → List UInt8) (s : Data) (m : RouteMatch)
    (target : Str) : Rounds Response :=
  match m.param "roomId" with
  | none => pure missingParameter
  | some roomId =>
      match RoomId.parse roomId with
      | none => pure (.error 400 (.new "M_INVALID_PARAM" "invalid room id"))
      | some room =>
          backfillAnswer sha256 s room (queryParamsAll target "v".toList) (backfillLimit target)

/-! ## Requests -/

def backfillEndpoint : Endpoint := .ss .get "/_matrix/federation/v1/backfill/{roomId}".toList

/-- A query of parameters and values. -/
def queryText (query : List (Str × Str)) : Str :=
  ['&'].intercalate (query.map fun pair => pair.1 ++ '=' :: pair.2)

/-- The target of a backfill request. -/
def backfillTarget (room : Str) (query : List (Str × Str)) : Str :=
  withQuery (backfillEndpoint.target fun _ => room) (some (queryText query))

/-- The values of a parameter, as the request has them. -/
def valuesOf (name : Str) (query : List (Str × Str)) : List Str :=
  (query.filter fun pair => pair.1 = name).map Prod.snd

/-- What must be escaped in a value of a query. -/
def queryReserved : Str := "&#%?=".toList

/-- The request is taken to name these events: the answer is the walk from them, and where the room
has them all the walk starts from them and not from the deepest event. -/
structure TakenToName (target : Str) (evs : List Str) : Prop where
  params : queryParamsAll target "v".toList = evs
  answer : ∀ sha256 s m (room : RoomId), m.param "roomId" = some room.asStr →
    serveFederationBackfill sha256 s m target =
      backfillAnswer sha256 s room evs (backfillLimit target)
  start : ∀ timeline, evs ≠ [] → (∀ ev ∈ evs, (named timeline ev).isSome) →
    startFrontier timeline (queryParamsAll target "v".toList) = evs

theorem takenToName_iff {target : Str} {evs : List Str} :
    TakenToName target evs ↔ queryParamsAll target "v".toList = evs := by
  constructor
  · exact TakenToName.params
  · intro hparams
    refine ⟨hparams, fun sha256 s m room hroom => ?_, fun timeline hne hknown => ?_⟩
    · rw [serveFederationBackfill, hroom]
      show (match RoomId.parse room.asStr with
        | none => _
        | some room => _) = _
      rw [RoomId.parse_asStr, hparams]
    · have hall : evs.filter (fun ev => ((byId timeline).get ev).isSome) = evs := by
        refine List.filter_eq_self.mpr fun ev hev => ?_
        rw [get_byId]
        exact hknown ev hev
      rw [hparams, startFrontier, hall]
      exact if_neg hne

/-! ## What the reader takes from a query -/

/-- A parameter that can be told from its neighbours. -/
def Delimited (pair : Str × Str) : Prop :=
  '=' ∉ pair.1 ∧ ∀ c ∈ pair.1 ++ '=' :: pair.2, c ≠ '&' ∧ c ≠ '?' ∧ c ≠ '#'

theorem pairs_of_queryText {query : List (Str × Str)} (h : ∀ pair ∈ query, Delimited pair) :
    ((queryText query).splitOn '&').filterMap (splitOnce '=') = query := by
  by_cases hempty : query = []
  · rw [hempty]
    rfl
  · have hparts : ∀ part ∈ query.map fun pair => pair.1 ++ '=' :: pair.2, '&' ∉ part := by
      intro part hpart hmem
      obtain ⟨pair, hpair, rfl⟩ := List.mem_map.mp hpart
      exact ((h pair hpair).2 '&' hmem).1 rfl
    rw [queryText, List.splitOn_intercalate _ hparts (by simpa using hempty), List.filterMap_map]
    conv_rhs => rw [← List.filterMap_some (l := query)]
    exact List.filterMap_congr fun pair hpair => splitOnce_append (h pair hpair).1 pair.2

theorem mem_queryText {query : List (Str × Str)} (h : ∀ pair ∈ query, Delimited pair) {c : Char}
    (hc : c ∈ queryText query) : c ≠ '?' ∧ c ≠ '#' := by
  induction query with
  | nil => cases hc
  | cons pair query ih =>
      obtain ⟨⟨-, hpair⟩, hquery⟩ := List.forall_mem_cons.mp h
      by_cases hlast : query = []
      · rw [hlast, queryText, List.map_singleton, List.intercalate_singleton] at hc
        exact (hpair c hc).2
      · have hne : query.map (fun pair => pair.1 ++ '=' :: pair.2) ≠ [] := by simpa using hlast
        rw [queryText, List.map_cons, List.intercalate_cons_of_ne_nil hne] at hc
        rcases List.mem_append.mp hc with hc | hc
        · rcases List.mem_append.mp hc with hc | hc
          · exact (hpair c hc).2
          · rw [List.mem_singleton.mp hc]
            decide
        · exact ih hquery hc

theorem queryParamsAll_withQuery {path : Str} (hpath : '?' ∉ path) {query : List (Str × Str)}
    (h : ∀ pair ∈ query, Delimited pair) (name : Str) :
    queryParamsAll (withQuery path (some (queryText query))) name =
      (valuesOf name query).filter (· ≠ []) := by
  have htext : '?' ∉ queryText query := fun hmem => (mem_queryText h hmem).1 rfl
  have hsplit : (withQuery path (some (queryText query))).splitOn '?' =
      [path, queryText query] := by
    rw [withQuery, Option.elim_some, List.splitOn_append_cons_self_of_not_mem hpath,
      List.splitOn_eq_singleton htext]
  have hall : (queryText query).takeWhile (· ≠ '#') = queryText query :=
    List.takeWhile_eq_self_iff.mpr fun c hc => decide_eq_true (mem_queryText h hc).2
  rw [queryParamsAll, hsplit]
  show (List.filter _ (((queryText query).takeWhile (· ≠ '#')).splitOn '&' |>.filterMap
    (splitOnce '='))).map Prod.snd = _
  rw [hall, pairs_of_queryText h, valuesOf, List.filter_map, List.filter_filter]
  congr 1
  refine List.filter_congr fun pair _ => ?_
  simp [Bool.and_comm]

theorem value_of_encodes {ev : EventId} {enc : Str}
    (h : PercentEncodes queryReserved ev.asStr enc) :
    enc ≠ [] ∧ ∀ c ∈ enc, c ≠ '&' ∧ c ≠ '?' ∧ c ≠ '#' := by
  have hev : ev.asStr ≠ [] := by
    intro hnil
    have hvalid := ev.valid
    rw [hnil] at hvalid
    cases hvalid
  have hamp : '&' ∉ enc :=
    not_mem_of_encodes (by decide) (by decide) (by decide) (by decide) h
  have hquery : '?' ∉ enc :=
    not_mem_of_encodes (by decide) (by decide) (by decide) (by decide) h
  have hfragment : '#' ∉ enc :=
    not_mem_of_encodes (by decide) (by decide) (by decide) (by decide) h
  refine ⟨encodes_ne_nil h hev, fun c hc => ⟨?_, ?_, ?_⟩⟩
  · rintro rfl
    exact hamp hc
  · rintro rfl
    exact hquery hc
  · rintro rfl
    exact hfragment hc

/-- The values come as they stand in the request, escapes and all, so they are the ids only where no
character of an id was escaped. -/
theorem takenToName_iff_unescaped {room encRoom : Str} (hroom : EncodesParam room encRoom)
    {evs : List EventId} {query : List (Str × Str)}
    (hevs : List.Forall₂ (fun ev enc => PercentEncodes queryReserved ev.asStr enc) evs
      (valuesOf "v".toList query))
    (hothers : ∀ pair ∈ query, pair.1 ≠ "v".toList → Delimited pair) :
    TakenToName (backfillTarget encRoom query) (evs.map EventId.asStr) ↔
      valuesOf "v".toList query = evs.map EventId.asStr := by
  have hendpoint : backfillEndpoint ∈ Endpoint.surface := by decide +kernel
  have henc : ∀ name ∈ backfillEndpoint.params,
      EncodesParam ((fun _ => room) name) ((fun _ => encRoom) name) := fun _ _ => hroom
  have hpath : '?' ∉ backfillEndpoint.target fun _ => encRoom := fun hmem =>
    (target_of_encodes hendpoint henc '?' hmem).1 rfl
  have hvalue : ∀ value ∈ valuesOf "v".toList query,
      value ≠ [] ∧ ∀ c ∈ value, c ≠ '&' ∧ c ≠ '?' ∧ c ≠ '#' := by
    intro value hmem
    obtain ⟨ev, -, hev⟩ := exists_of_forall₂ hevs hmem
    exact value_of_encodes hev
  have hdelimited : ∀ pair ∈ query, Delimited pair := by
    intro pair hpair
    by_cases hkey : pair.1 = "v".toList
    · have hmem : pair.2 ∈ valuesOf "v".toList query :=
        List.mem_map.mpr ⟨pair, List.mem_filter.mpr ⟨hpair, decide_eq_true hkey⟩, rfl⟩
      rw [Delimited, hkey]
      refine ⟨by decide, fun c hc => ?_⟩
      rcases List.mem_append.mp hc with hc | hc
      · rw [List.mem_singleton.mp hc]
        decide
      · rcases List.mem_cons.mp hc with rfl | hc
        · decide
        · exact (hvalue _ hmem).2 c hc
    · exact hothers pair hpair hkey
  have hnonempty : (valuesOf "v".toList query).filter (· ≠ []) = valuesOf "v".toList query :=
    List.filter_eq_self.mpr fun value hmem => decide_eq_true (hvalue value hmem).1
  rw [takenToName_iff, backfillTarget, queryParamsAll_withQuery hpath hdelimited, hnonempty]

namespace SampleQuery

def room : Str := "!r:g".toList

def ev : EventId := ⟨"$a".toList, valid_event⟩

theorem encodesParam_room : EncodesParam room room := by
  refine ⟨List.cons_ne_nil _ _, ?_⟩
  iterate 4 refine .literal (by decide) ?_
  exact .nil

theorem percentEncodes_plain : PercentEncodes queryReserved ev.asStr "$a".toList := by
  iterate 2 refine .literal (by decide) ?_
  exact .nil

/-- The sigil need not be escaped, but it may be. -/
theorem percentEncodes_escaped : PercentEncodes queryReserved ev.asStr "%24a".toList := by
  refine @EncodesBytes.escaped _ 0x32 0x34 2 4 _ _ rfl rfl ?_
  refine .literal (by decide) ?_
  exact .nil

end SampleQuery

open SampleQuery in
theorem taken_unescaped :
    TakenToName (backfillTarget room [("v".toList, "$a".toList)]) [ev.asStr] ↔
      valuesOf "v".toList [("v".toList, "$a".toList)] = [ev.asStr] := by
  have hevs : List.Forall₂ (fun ev enc => PercentEncodes queryReserved ev.asStr enc) [ev]
      (valuesOf "v".toList [("v".toList, "$a".toList)]) := .cons percentEncodes_plain .nil
  refine takenToName_iff_unescaped encodesParam_room hevs fun pair hpair hother => ?_
  rw [List.mem_singleton.mp hpair] at hother
  exact absurd rfl hother

open SampleQuery in
/-- A character that an id need not have escaped hides it. -/
theorem escaped_not_taken :
    ¬ ∀ (evs : List EventId) (encs : List Str),
      List.Forall₂ (fun ev enc => PercentEncodes queryReserved ev.asStr enc) evs encs →
        TakenToName (backfillTarget room (encs.map fun enc => ("v".toList, enc)))
          (evs.map EventId.asStr) := by
  intro h
  have htaken := h [ev] ["%24a".toList] (.cons percentEncodes_escaped .nil)
  have hread : queryParamsAll (backfillTarget room [("v".toList, "%24a".toList)]) "v".toList =
      ["%24a".toList] := by decide +kernel
  have hparams := htaken.params
  rw [List.map_singleton, hread] at hparams
  exact absurd hparams (by decide)

end GaussMatrix.Http
