import GaussMatrix.Library.Rounds
import GaussMatrix.Svc.History

/-!
# Backfill

A walk back over `prevEvents` from the events a peer names, and its most recent events.  The links are
the peers' own: they may name events the room does not have, and they may run in cycles.
-/

namespace GaussMatrix.Svc

open Library Util Api StateRes

namespace RoomService

/-- The timeline by event id; of the events of one id the last is kept. -/
def byId (timeline : List Pdu) : SortedMap Str Pdu :=
  SortedMap.empty.insertAll (timeline.map fun p => (p.eventId.asStr, p))

/-- The deepest event; of several the last. -/
def tip (timeline : List Pdu) : Option Pdu := timeline.reverse.argmax fun p => p.depth.toNat

/-- Where the walk starts: the requested events that are known, else the deepest one. -/
def startFrontier (timeline : List Pdu) (requested : List Str) : List Str :=
  let known := requested.filter fun id => ((byId timeline).get id).isSome
  if known = [] then
    match tip timeline with
    | some tip => [tip.eventId.asStr]
    | none => []
  else known

/-- The order of the events of an answer: by depth, the deepest first. -/
def deepestFirst (p : Pdu) : OrderDual Nat := OrderDual.toDual p.depth.toNat

/-- The walk between two rounds; the top of the frontier comes first. -/
structure Walk where
  frontier : List Str
  seen : List Str
  collected : List Pdu
  deriving DecidableEq

/-- Pop an id and, on its first visit, collect its event and push the unseen ones before it. -/
def walkRound (byId : SortedMap Str Pdu) (walk : Walk) : Option Walk :=
  match walk.frontier with
  | [] => none
  | id :: frontier =>
      if id ∈ walk.seen then
        some { walk with frontier := frontier }
      else
        let seen := id :: walk.seen
        match byId.get id with
        | none => some { walk with frontier := frontier, seen := seen }
        | some pdu =>
            let unseen := (pdu.prevEvents.map EventId.asStr).filter fun prev => prev ∉ seen
            some {
              frontier := unseen.reverse ++ frontier
              seen := seen
              collected := walk.collected ++ [pdu] }

end RoomService

open RoomService in
/-- Up to `limit` events at or before the requested ones, most recent first. -/
def backfill (s : Data) (room : RoomId) (requested : List Str) (limit : Nat) : Rounds (List Pdu) :=
  if limit = 0 then
    pure []
  else do
    let timeline := timeline s room
    let start := startFrontier timeline requested
    let walk ← Rounds.loop (walkRound (byId timeline)) ⟨start.reverse, [], []⟩
    return (sortByKey deepestFirst walk.collected).take limit

namespace RoomService

/-! ## The walk -/

/-- The event of the room that an id names: the last of the timeline with it. -/
def named (timeline : List Pdu) (id : Str) : Option Pdu :=
  timeline.reverse.find? fun p => p.eventId.asStr = id

variable {timeline : List Pdu} {id : Str} {p : Pdu}

theorem get_byId (timeline : List Pdu) (key : Str) :
    (byId timeline).get key = named timeline key := by
  rw [byId, SortedMap.get_insertAll_eq_find?, ← List.map_reverse, List.find?_map, Option.map_map,
    SortedMap.get_empty, Option.or_none]
  have hsecond : Prod.snd ∘ (fun p : Pdu => (p.eventId.asStr, p)) = id := rfl
  rw [hsecond, Option.map_id]
  -- the two searches decide the equality of ids by different instances
  apply congrArg fun q => timeline.reverse.find? q
  funext p
  exact decide_eq_decide.mpr Iff.rfl

theorem asStr_of_named (hp : named timeline id = some p) : p.eventId.asStr = id := by
  have hid := List.find?_some hp
  exact of_decide_eq_true hid

theorem mem_of_named (hp : named timeline id = some p) : p ∈ timeline :=
  List.mem_reverse.mp (List.mem_of_find?_eq_some hp)

/-- Where no two events share an id, an id names the event that has it. -/
theorem named_eq_some_iff (hids : (timeline.map Pdu.eventId).Nodup) :
    named timeline id = some p ↔ p ∈ timeline ∧ p.eventId.asStr = id := by
  constructor
  · intro hp
    exact ⟨mem_of_named hp, asStr_of_named hp⟩
  · intro ⟨hp, hid⟩
    cases hnamed : named timeline id with
    | none =>
        have hno := List.find?_eq_none.mp hnamed p (List.mem_reverse.mpr hp)
        exact absurd hid (by simpa using hno)
    | some q =>
        have hsame : q.eventId = p.eventId :=
          EventId.ext ((asStr_of_named hnamed).trans hid.symm)
        rw [List.inj_on_of_nodup_map hids (mem_of_named hnamed) hp hsame]

/-- The ids before an id's event. -/
def prevs (timeline : List Pdu) (id : Str) : List Str :=
  ((named timeline id).map fun p => p.prevEvents.map EventId.asStr).getD []

/-- The walk that has seen these ids. -/
def walkOf (timeline : List Pdu) (state : List Str × List Str) : Walk where
  frontier := state.1
  seen := state.2
  collected := state.2.reverse.filterMap (named timeline)

/-- A round of the walk is a round of the worklist over the links. -/
theorem walkRound_walkOf (timeline : List Pdu) (state : List Str × List Str) :
    walkRound (byId timeline) (walkOf timeline state) =
      (Rounds.reachBody (prevs timeline) state).map (walkOf timeline) := by
  obtain ⟨frontier, seen⟩ := state
  cases frontier with
  | nil => rfl
  | cons id frontier =>
      simp only [walkRound, walkOf, Rounds.reachBody, get_byId]
      by_cases hseen : id ∈ seen
      · rw [if_pos hseen, if_pos hseen]
        rfl
      · rw [if_neg hseen, if_neg hseen]
        cases hnamed : named timeline id with
        | none => simp [walkOf, prevs, hnamed]
        | some p => simp [walkOf, prevs, hnamed]

theorem prevs_of_not_mem (hid : id ∉ (byId timeline).keys) : prevs timeline id = [] := by
  have hnone : named timeline id = none := by
    rw [← get_byId, Option.eq_none_iff_forall_ne_some]
    intro p hp
    exact hid (((byId timeline).mem_keys_iff id).mpr ⟨p, hp⟩)
  rw [prevs, hnone]
  rfl

/-- The ids that the walk visits, the last one first. -/
def visited (timeline : List Pdu) (start : List Str) : List Str :=
  let links := ((byId timeline).keys.map fun id => (prevs timeline id).length).sum
  reach (prevs timeline) (start.length + links + 1) start

/-- The events that the walk collects, in its order. -/
def collected (timeline : List Pdu) (start : List Str) : List Pdu :=
  (visited timeline start).reverse.filterMap (named timeline)

theorem returns_walk {start : List Str} {walk : Walk} :
    (Rounds.loop (walkRound (byId timeline)) ⟨start.reverse, [], []⟩).Returns walk ↔
      walk = walkOf timeline ([], visited timeline start) := by
  have hwalk := @Rounds.returns_loop_map _ _ _ _ (walkOf timeline) (walkRound_walkOf timeline)
    (start.reverse, []) walk
  have hloop : (Rounds.loop (Rounds.reachBody (prevs timeline)) (start.reverse, [])).Returns
      ([], visited timeline start) := by
    apply Rounds.returns_loop_reachBody (byId timeline).nodup_keys fun _ => prevs_of_not_mem
    simp [pending]
  apply hwalk.trans
  constructor
  · rintro ⟨state, hstate, heq⟩
    rw [← heq, hstate.unique hloop]
  · exact fun heq => ⟨_, hloop, heq.symm⟩

theorem mem_visited_iff {start : List Str} : id ∈ visited timeline start ↔
    ∃ first ∈ start, Relation.ReflTransGen (fun a b => b ∈ prevs timeline a) first id :=
  mem_reach_iff (byId timeline).nodup_keys (fun _ => prevs_of_not_mem) (Nat.lt_succ_self _) id

theorem nodup_visited (timeline : List Pdu) (start : List Str) : (visited timeline start).Nodup :=
  nodup_reach _ start

/-! ## The events that ids lead to -/

/-- The events that ids lead to along the links, where `names` says which events an id names. -/
inductive LeadsTo (names : Str → Pdu → Prop) (ids : List Str) : Pdu → Prop
  | start {id : Str} {p : Pdu} (hid : id ∈ ids) (hp : names id p) : LeadsTo names ids p
  | prev {p q : Pdu} {id : EventId} (hp : LeadsTo names ids p) (hid : id ∈ p.prevEvents)
      (hq : names id.asStr q) : LeadsTo names ids q

theorem mem_prevs_iff {prev : Str} : prev ∈ prevs timeline id ↔
    ∃ p, named timeline id = some p ∧ ∃ e ∈ p.prevEvents, e.asStr = prev := by
  unfold prevs
  cases named timeline id with
  | none => simp
  | some p => simp

theorem leadsTo_of_reached {first : Str} {ids : List Str} (hfirst : first ∈ ids)
    (hreach : Relation.ReflTransGen (fun a b => b ∈ prevs timeline a) first id)
    (hp : named timeline id = some p) :
    LeadsTo (fun id p => named timeline id = some p) ids p := by
  induction hreach generalizing p with
  | refl => exact .start hfirst hp
  | tail _ hlink ih =>
      obtain ⟨q, hq, e, he, heq⟩ := mem_prevs_iff.mp hlink
      rw [← heq] at hp
      exact .prev (ih hq) he hp

theorem visited_of_leadsTo {ids : List Str}
    (hp : LeadsTo (fun id p => named timeline id = some p) ids p) :
    named timeline p.eventId.asStr = some p ∧ p.eventId.asStr ∈ visited timeline ids := by
  simp only [mem_visited_iff]
  induction hp with
  | start hid hp =>
      rw [asStr_of_named hp]
      exact ⟨hp, _, hid, .refl⟩
  | prev _ hid hq ih =>
      obtain ⟨hp, first, hfirst, hreach⟩ := ih
      rw [asStr_of_named hq]
      exact ⟨hq, first, hfirst, hreach.tail (mem_prevs_iff.mpr ⟨_, hp, _, hid, rfl⟩)⟩

theorem mem_collected_iff {start : List Str} : p ∈ collected timeline start ↔
    LeadsTo (fun id p => named timeline id = some p) start p := by
  simp only [collected, List.mem_filterMap, List.mem_reverse]
  constructor
  · intro ⟨id, hid, hp⟩
    obtain ⟨first, hfirst, hreach⟩ := mem_visited_iff.mp hid
    exact leadsTo_of_reached hfirst hreach hp
  · intro hp
    obtain ⟨hnamed, hvisited⟩ := visited_of_leadsTo hp
    exact ⟨p.eventId.asStr, hvisited, hnamed⟩

theorem nodup_collected (timeline : List Pdu) (start : List Str) :
    ((collected timeline start).map Pdu.eventId).Nodup := by
  have hnodup := List.nodup_reverse.mpr (nodup_visited timeline start)
  rw [collected, List.map_filterMap]
  apply hnodup.filterMap
  -- an event is named by its own id alone
  intro id id' e he he'
  obtain ⟨p, hp, hpe⟩ := Option.map_eq_some_iff.mp he
  obtain ⟨q, hq, hqe⟩ := Option.map_eq_some_iff.mp he'
  rw [← asStr_of_named hp, ← asStr_of_named hq, hpe, hqe]

/-! ## What backfill returns -/

/-- Where a walk may start: at the requested ids that name an event; when none does, at the id of an
event than which none is deeper. -/
def StartsAt (timeline : List Pdu) (requested start : List Str) : Prop :=
  (start ≠ [] ∧ start = requested.filter fun id => (named timeline id).isSome) ∨
    (∀ id ∈ requested, named timeline id = none) ∧
      (timeline = [] ∧ start = [] ∨
        ∃ tip ∈ timeline, (∀ p ∈ timeline, p.depth ≤ tip.depth) ∧ start = [tip.eventId.asStr])

theorem tip_eq_some (hp : tip timeline = some p) :
    p ∈ timeline ∧ ∀ q ∈ timeline, q.depth ≤ p.depth := by
  have hmax : p ∈ timeline.reverse.argmax fun p => p.depth.toNat := hp
  constructor
  · exact List.mem_reverse.mp (List.argmax_mem hmax)
  · intro q hq
    exact List.le_of_mem_argmax (List.mem_reverse.mpr hq) hmax

theorem startsAt_startFrontier (timeline : List Pdu) (requested : List Str) :
    StartsAt timeline requested (startFrontier timeline requested) := by
  simp only [startFrontier, get_byId]
  by_cases hknown : (requested.filter fun id => (named timeline id).isSome) = []
  · rw [if_pos hknown]
    right
    constructor
    · intro id hid
      have hnone := List.filter_eq_nil_iff.mp hknown id hid
      simpa using hnone
    · cases htip : tip timeline with
      | none =>
          have hempty : timeline.reverse = [] := List.argmax_eq_none.mp htip
          exact .inl ⟨List.reverse_eq_nil_iff.mp hempty, rfl⟩
      | some p => exact .inr ⟨p, (tip_eq_some htip).1, (tip_eq_some htip).2, rfl⟩
  · rw [if_neg hknown]
    exact .inl ⟨hknown, rfl⟩

/-- The list is the `limit` deepest of the events, or all of them, most recent first. -/
structure MostRecent (limit : Nat) (events : Set Pdu) (out : List Pdu) : Prop where
  length : out.length = min limit events.ncard
  nodup : (out.map Pdu.eventId).Nodup
  ordered : out.Pairwise fun p q => q.depth ≤ p.depth
  sub : ∀ p ∈ out, p ∈ events
  deepest : ∀ q ∈ events, q ∉ out → ∀ p ∈ out, q.depth ≤ p.depth

theorem mostRecent_take {l : List Pdu} (hl : (l.map Pdu.eventId).Nodup) (limit : Nat) :
    MostRecent limit {p | p ∈ l} ((sortByKey deepestFirst l).take limit) := by
  have hperm : (sortByKey deepestFirst l).Perm l := perm_sortByKey l
  have hsorted : (sortByKey deepestFirst l).Pairwise fun p q => deepestFirst p ≤ deepestFirst q :=
    pairwise_sortByKey l
  have hkept := List.take_sublist limit (sortByKey deepestFirst l)
  constructor
  case length =>
    have hcard : Set.ncard {p | p ∈ l} = l.length := by
      rw [← List.toFinset_card_of_nodup hl.of_map, ← Set.ncard_coe_finset, List.coe_toFinset]
    rw [hcard, List.length_take, hperm.length_eq]
  case nodup => exact ((hperm.map _).nodup_iff.mpr hl).sublist (hkept.map _)
  case ordered => exact (hsorted.sublist hkept).imp fun hle => hle
  case sub => exact fun p hp => mem_sortByKey.mp (hkept.subset hp)
  case deepest => exact fun q hq hcut p hp => key_le_of_mem_take hp hq hcut

theorem returns_backfill {s : Data} {room : RoomId} {requested : List Str} {limit : Nat}
    {out : List Pdu} : (backfill s room requested limit).Returns out ↔
      out = (sortByKey deepestFirst (collected (RoomService.timeline s room)
        (startFrontier (RoomService.timeline s room) requested))).take limit := by
  unfold backfill
  by_cases hlimit : limit = 0
  · rw [if_pos hlimit, hlimit, Rounds.returns_pure]
    exact eq_comm
  · rw [if_neg hlimit]
    simp only [Rounds.returns_bind, Rounds.returns_pure, returns_walk, exists_eq_left]
    exact eq_comm

end RoomService

open RoomService in
/-- Over any links backfill ends, and returns the most recent of the events that its start leads to.
Of the events of one id it is the last of the timeline that is meant, hence the one event of the id
where none share theirs. -/
theorem backfill_most_recent (s : Data) (room : RoomId) (requested : List Str) (limit : Nat) :
    ∃ start, StartsAt (timeline s room) requested start ∧
      ∃ out, (∀ out', (backfill s room requested limit).Returns out' ↔ out' = out) ∧
        MostRecent limit
            {p | LeadsTo (fun id p => named (timeline s room) id = some p) start p} out ∧
          (((timeline s room).map Pdu.eventId).Nodup → MostRecent limit
            {p | LeadsTo (fun id p => p ∈ timeline s room ∧ p.eventId.asStr = id) start p} out) := by
  refine ⟨_, startsAt_startFrontier (timeline s room) requested, _, fun _ => returns_backfill, ?_⟩
  have hrecent := mostRecent_take (nodup_collected (timeline s room)
    (startFrontier (timeline s room) requested)) limit
  simp only [mem_collected_iff] at hrecent
  apply And.intro hrecent
  intro hids
  simp only [← named_eq_some_iff hids]
  exact hrecent

namespace SampleBackfill

open SampleRun

/-- Two events of one id, of which the first names an event before it. -/
def x : Pdu := event 'x' alice "m.room.message" none 1 [] "{}"
def early : Pdu := { event 'a' alice "m.room.message" none 2 [] "{}" with prevEvents := [x.eventId] }
def late : Pdu := event 'a' alice "m.room.message" none 3 [] "{}"

def data : Data := [x, early, late].foldl RoomService.append Store.empty

end SampleBackfill

open RoomService SampleRun SampleBackfill in
/-- Of two events of one id only the last is found: the event that the first names is left out. -/
theorem backfill_leaves_out_event_of_shared_id : ∃ out,
    (backfill data room ["$a".toList] 10).Returns out ∧
      out.length ≠ min 10 (Set.ncard {p | LeadsTo
        (fun id p => p ∈ timeline data room ∧ p.eventId.asStr = id) ["$a".toList] p}) := by
  refine ⟨_, returns_backfill.mpr rfl, ?_⟩
  have hone : ((sortByKey deepestFirst (collected (timeline data room)
      (startFrontier (timeline data room) ["$a".toList]))).take 10).length = 1 := by decide +kernel
  -- `early` and `late` share an id, and only `early` leads on to `x`
  have hlate : LeadsTo (fun id p => p ∈ timeline data room ∧ p.eventId.asStr = id)
      ["$a".toList] late := .start List.mem_cons_self (by decide +kernel)
  have hearly : LeadsTo (fun id p => p ∈ timeline data room ∧ p.eventId.asStr = id)
      ["$a".toList] early := .start List.mem_cons_self (by decide +kernel)
  have hx : LeadsTo (fun id p => p ∈ timeline data room ∧ p.eventId.asStr = id)
      ["$a".toList] x := .prev hearly List.mem_cons_self (by decide +kernel)
  have hfinite : Set.Finite {p | LeadsTo
      (fun id p => p ∈ timeline data room ∧ p.eventId.asStr = id) ["$a".toList] p} := by
    apply (timeline data room).finite_toSet.subset
    intro p hp
    cases hp with
    | start _ hp => exact hp.1
    | prev _ _ hp => exact hp.1
  have htwo : 1 < Set.ncard {p | LeadsTo
      (fun id p => p ∈ timeline data room ∧ p.eventId.asStr = id) ["$a".toList] p} :=
    (Set.one_lt_ncard hfinite).mpr ⟨late, hlate, x, hx, by decide +kernel⟩
  rw [hone]
  omega

end GaussMatrix.Svc
