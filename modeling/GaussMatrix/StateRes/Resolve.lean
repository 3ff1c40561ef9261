import GaussMatrix.Library.Runs
import GaussMatrix.Library.SortByKey
import GaussMatrix.StateRes.State

/-!
# State resolution

Resolution of several state maps to one: the split into unconflicted and conflicted slots, the two
orderings, and the application of each event under the auth rules.  The order in which a hash set
is iterated is a parameter.
-/

namespace GaussMatrix.StateRes

open Library Util Api Api.Events

/-- Distinct candidate events per conflicted slot. -/
abbrev Conflicts := SortedMap StateKey (List EventId)

/-! ## Hash sets -/

/-- The hash sets resolution iterates over. -/
inductive HashSite
  | chain (state : Nat)
  | difference
  | full
  deriving DecidableEq

/-- The iteration orders of the hash sets: each set is listed once, in an order of its own. -/
structure HashOrder where
  order : HashSite → List EventId → List EventId
  perm : ∀ site ids, (order site ids).Perm ids.dedup

/-- Iteration in the order of insertion, a repeated element at its last one. -/
def HashOrder.inserted : HashOrder := ⟨fun _ ids => ids.dedup, fun _ _ => .refl _⟩

/-- Iteration in the opposite order. -/
def HashOrder.reversed : HashOrder :=
  ⟨fun _ ids => ids.dedup.reverse, fun _ ids => ids.dedup.reverse_perm⟩

/-! ## The partition -/

/-- The slots that some state map has, in order. -/
def stateKeys (states : List StateMap) : List StateKey :=
  ((SortedMap.empty : SortedMap StateKey Unit).insertAll
    (states.flatMap fun state => state.keys.map fun key => (key, ()))).keys

/-- Keep the first occurrence of each event. -/
def distinctEvents (present : List EventId) : List EventId :=
  present.foldl (fun distinct ev => if ev ∈ distinct then distinct else distinct ++ [ev]) []

/-- Sort one slot into the unconflicted map, if every state has it with one and the same event, or
else into the conflicted ones with its distinct events. -/
def separateSlot (states : List StateMap) (parts : StateMap × Conflicts) (key : StateKey) :
    StateMap × Conflicts :=
  let present := states.filterMap (·.get key)
  let distinct := distinctEvents present
  match distinct with
  | [ev] =>
      if present.length = states.length then (parts.1.insert key ev, parts.2)
      else (parts.1, parts.2.insert key distinct)
  | _ => (parts.1, parts.2.insert key distinct)

/-- The unconflicted map and the conflicted slots of `states`. -/
def separate (states : List StateMap) : StateMap × Conflicts :=
  (stateKeys states).foldl (separateSlot states) (SortedMap.empty, SortedMap.empty)

/-! ## Applying events -/

/-- Whether an event is a power event: create, power levels, join rules, a ban, or a `leave` set by
someone other than its target. -/
def isPowerEvent (event : Pdu) : Bool :=
  if event.kind = roomCreate ∨ event.kind = roomPowerLevels ∨ event.kind = roomJoinRules then true
  else if event.kind = roomMember then
    if event.contentStr "membership" = some "ban".toList then true
    else if event.contentStr "membership" = some "leave".toList then
      event.stateKey ≠ some event.sender.asStr
    else false
  else false

/-- Apply `id` to the partial state if it passes the auth rules against that state with its own slot
removed.  A rejected or unknown event is left out. -/
def tryApply (verifyB64 : VerifyB64) (pdus : PduMap) (resolved : StateMap) (id : EventId) :
    StateMap :=
  match pdus.get id with
  | none => resolved
  | some event =>
      match stateSlot event with
      | none => resolved
      | some key =>
          match checkAuth verifyB64 event (stateEvents pdus.get (resolved.erase key)) with
          | .ok () => resolved.insert key id
          | .error _ => resolved

/-! ## The full conflicted set -/

/-- The events in the auth chain of some input state but not of every one. -/
def authDifference (h : HashOrder) (states : List StateMap) (pdus : PduMap) : List EventId :=
  let chains := states.map fun s => authChain s.values pdus
  let iterated := chains.zipIdx.map fun c => h.order (.chain c.2) c.1
  h.order .difference
    (iterated.flatten.filter fun id => ¬ chains.all fun c => id ∈ c)

/-! ## Reverse-topological power ordering -/

/-- The power level of `sender` under the `base` state, or the creator's before power levels. -/
def senderPower (sender : Str) (base : StateMap) (pdus : PduMap) : Int :=
  match ((base.get (slot roomPowerLevels [])).bind pdus.get).bind Pdu.content with
  | some pl =>
      match ((pl.get "users").bind (·.get sender)).bind Json.asI64 with
      | some level => level
      | none => ((pl.get "users_default").bind Json.asI64).getD 0
  | none =>
      let creator := ((base.get (slot roomCreate [])).bind pdus.get).bind creatorOf
      if creator = some sender then 100 else 0

/-- The sort key of the power ordering: highest power first, then earliest, then smallest id. -/
abbrev PowerKey := ℤᵒᵈ ×ₗ Nat ×ₗ EventId

def powerKey (base : StateMap) (pdus : PduMap) (e : EventId) : PowerKey :=
  match pdus.get e with
  | some p => toLex (OrderDual.toDual (senderPower p.sender.asStr base pdus),
      toLex (p.originServerTs.toNat, e))
  | none => toLex (OrderDual.toDual (senderPower [] base pdus), toLex (0, e))

/-- The auth events of `e` that are in `events`. -/
def parents (events : List EventId) (pdus : PduMap) (e : EventId) : List EventId :=
  match pdus.get e with
  | some p => p.authEvents.filter (· ∈ events)
  | none => []

/-- The events that can be placed next: those with every parent placed or, in an auth cycle, all
that are left. -/
def readyEvents (events : List EventId) (pdus : PduMap) (placed : List EventId) : List EventId :=
  let ready := events.filter fun e => e ∉ placed ∧ (parents events pdus e).all (· ∈ placed)
  if ready = [] then events.filter (· ∉ placed) else ready

/-- Place `n` more events; `none` when no event is left to place. -/
def powerSortLoop (events : List EventId) (pdus : PduMap) (base : StateMap) :
    Nat → List EventId → Option (List EventId)
  | 0, order => some order
  | n + 1, order =>
      match (sortByKey (powerKey base pdus) (readyEvents events pdus order)).head? with
      | none => none
      | some chosen => powerSortLoop events pdus base n (order ++ [chosen])

/-- The events after their auth ancestors in the list, ties by the power key. -/
def reverseTopologicalPowerSort (events : List EventId) (pdus : PduMap) (base : StateMap) :
    Option (List EventId) :=
  powerSortLoop events pdus base events.length []

/-! ## Mainline ordering -/

/-- The first auth event of `id` that is a power-levels event. -/
def powerLevelsAncestor (pdus : PduMap) (id : EventId) : Option EventId :=
  (pdus.get id).bind fun p => p.authEvents.find? fun a =>
    match pdus.get a with
    | some x => x.kind = roomPowerLevels
    | none => false

/-- The chain from `powerLevels` back through its ancestors; `none` when the walk runs into a cycle
and never ends. -/
def mainline (powerLevels : Option EventId) (pdus : PduMap) : Option (List EventId) :=
  follow (powerLevelsAncestor pdus) (pdus.size + 1) powerLevels

/-- Each entry of the mainline with its distance from the root. -/
def mainlinePosition (line : List EventId) : SortedMap EventId Nat :=
  SortedMap.empty.insertAll (line.zipIdx.map fun (id, i) => (id, line.length - 1 - i))

/-- The position of the first mainline event in the power-levels ancestry, `0` when `fuel` events
show none. -/
def mainlineDepth (position : SortedMap EventId Nat) (pdus : PduMap) :
    Nat → Option EventId → Nat
  | _, none => 0
  | 0, some _ => 0
  | fuel + 1, some id =>
      match position.get id with
      | some p => p
      | none => mainlineDepth position pdus fuel (powerLevelsAncestor pdus id)

/-- How many events the walk to the mainline visits before it gives up. -/
def mainlineGuard : Nat := 10001

/-- The sort key of the mainline ordering: depth, then time, then id. -/
abbrev MainlineKey := Nat ×ₗ Nat ×ₗ EventId

def mainlineKey (position : SortedMap EventId Nat) (pdus : PduMap) (e : EventId) : MainlineKey :=
  let ts := ((pdus.get e).map fun p => p.originServerTs.toNat).getD 0
  toLex (mainlineDepth position pdus mainlineGuard (some e), toLex (ts, e))

/-- The events by their depth along the mainline of `powerLevels`. -/
def mainlineSort (events : List EventId) (powerLevels : Option EventId) (pdus : PduMap) :
    Option (List EventId) :=
  (mainline powerLevels pdus).map fun line =>
    sortByKey (mainlineKey (mainlinePosition line) pdus) events

/-! ## Resolution -/

/-- The full conflicted set, as it is iterated. -/
def fullConflicted (h : HashOrder) (states : List StateMap) (pdus : PduMap) : List EventId :=
  h.order .full ((separate states).2.values.flatten ++ authDifference h states pdus)

/-- Whether a conflicted event is known and a power event. -/
def isPowerId (pdus : PduMap) (id : EventId) : Bool := ((pdus.get id).map isPowerEvent).getD false

/-- The order in which the power events are applied. -/
def powerOrder (h : HashOrder) (states : List StateMap) (pdus : PduMap) : Option (List EventId) :=
  let power := (fullConflicted h states pdus).filter (isPowerId pdus)
  reverseTopologicalPowerSort power pdus (separate states).1

/-- The order in which the other events are applied, once the power events gave `resolved`. -/
def otherOrder (h : HashOrder) (states : List StateMap) (pdus : PduMap) (resolved : StateMap) :
    Option (List EventId) :=
  let other := (fullConflicted h states pdus).filter (fun id => ¬ isPowerId pdus id)
  mainlineSort other (resolved.get (slot roomPowerLevels [])) pdus

/-- The state `unconflicted` is laid over. -/
def overlay (unconflicted resolved : StateMap) : StateMap :=
  resolved.insertAll unconflicted.entries

/-- Resolve `states` to a single state map.  `none` stands for a call that does not return: the
mainline runs into a cycle. -/
def resolve (verifyB64 : VerifyB64) (h : HashOrder) (states : List StateMap) (pdus : PduMap) :
    Option StateMap := do
  let (unconflicted, conflicted) := separate states
  if conflicted.entries = [] then
    return unconflicted
  let power ← powerOrder h states pdus
  let resolved := run (tryApply verifyB64 pdus) unconflicted power
  let other ← otherOrder h states pdus resolved
  let resolved := run (tryApply verifyB64 pdus) resolved other
  return overlay unconflicted resolved

/-- The steps that apply the power events: the partial state and the event it is offered. -/
def powerSteps (verifyB64 : VerifyB64) (h : HashOrder) (states : List StateMap) (pdus : PduMap) :
    List (StateMap × EventId) :=
  if (separate states).2.entries = [] then []
  else
    match powerOrder h states pdus with
    | none => []
    | some power => trace (tryApply verifyB64 pdus) (separate states).1 power

/-- The steps that apply the other events, from the state the power events gave. -/
def otherSteps (verifyB64 : VerifyB64) (h : HashOrder) (states : List StateMap) (pdus : PduMap) :
    List (StateMap × EventId) :=
  if (separate states).2.entries = [] then []
  else
    match powerOrder h states pdus with
    | none => []
    | some power =>
        let resolved := run (tryApply verifyB64 pdus) (separate states).1 power
        match otherOrder h states pdus resolved with
        | none => []
        | some other => trace (tryApply verifyB64 pdus) resolved other

/-- The steps of both application passes. -/
def resolveSteps (verifyB64 : VerifyB64) (h : HashOrder) (states : List StateMap) (pdus : PduMap) :
    List (StateMap × EventId) :=
  powerSteps verifyB64 h states pdus ++ otherSteps verifyB64 h states pdus

end GaussMatrix.StateRes
