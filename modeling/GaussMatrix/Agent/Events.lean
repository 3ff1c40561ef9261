import GaussMatrix.Library.SortedMap
import GaussMatrix.Library.Text

/-!
# Agent events

The content values of agent events, and the events that the gateway reflects into a room.
-/

namespace GaussMatrix.Agent

open Library

/-- A content value. -/
inductive Value
  | str (s : Str)
  | bool (b : Bool)
  | u64 (n : UInt64)
  | list (values : List Value)

namespace Value

def asStr : Value → Option Str
  | .str s => some s
  | _ => none

def asU64 : Value → Option UInt64
  | .u64 n => some n
  | _ => none

def asList : Value → Option (List Value)
  | .list values => some values
  | _ => none

theorem asStr_eq_some_iff {v : Value} {s : Str} : v.asStr = some s ↔ v = .str s := by
  cases v <;> simp [asStr]

theorem asList_eq_some_iff {v : Value} {vs : List Value} : v.asList = some vs ↔ v = .list vs := by
  cases v <;> simp [asList]

end Value

/-- The content of an event. -/
abbrev Content := SortedMap Str Value

/-- An event that the gateway sends into the room. -/
structure ReflectedEvent where
  eventType : Str
  content : Content

namespace ReflectedEvent

def ofFields (eventType : Str) (fields : List (Str × Value)) : ReflectedEvent :=
  ⟨eventType, SortedMap.empty.insertAll fields⟩

def toolCall (callId tool argsSummary : Str) : ReflectedEvent :=
  ofFields "m.gauss.agent.tool_call" [("call_id".toList, .str callId), ("tool".toList, .str tool),
    ("args_summary".toList, .str argsSummary)]

def toolResult (callId tool : Str) (ok : Bool) (summary : Str) : ReflectedEvent :=
  ofFields "m.gauss.agent.tool_result" [("call_id".toList, .str callId), ("tool".toList, .str tool),
    ("ok".toList, .bool ok), ("summary".toList, .str summary)]

def approval (callId decidedBy : Str) (approved : Bool) : ReflectedEvent :=
  ofFields "m.gauss.agent.approval" [("call_id".toList, .str callId),
    ("decided_by".toList, .str decidedBy), ("approved".toList, .bool approved)]

end ReflectedEvent

end GaussMatrix.Agent
