import GaussMatrix.Agent.Capability
import GaussMatrix.Agent.Events
import GaussMatrix.Library.Fallible

/-!
# Grants on the server and on the client

A grant is published as the content of a state event.  The server decodes it into a list of overrides
that it searches from the front; the client fills a map with them in order, so the last one stays.
-/

namespace GaussMatrix.Agent

open Library Util

/-! ## The server's decoder -/

inductive CapabilityError
  | missingField (field : Str)
  | invalidField (field : Str)
  deriving DecidableEq

def ActionClass.asStr : ActionClass → Str
  | .auto => "auto".toList
  | .review => "review".toList
  | .forbidden => "forbidden".toList

def ActionClass.parse (s : Str) : Option ActionClass :=
  if s = "auto".toList then some .auto
  else if s = "review".toList then some .review
  else if s = "forbidden".toList then some .forbidden
  else none

def field (content : Content) (key : Str) : Except CapabilityError Value :=
  match content.get key with
  | some value => .ok value
  | none => .error (.missingField key)

/-- What was read of a field, if it is well formed. -/
def wellFormed {α : Type} (key : Str) : Option α → Except CapabilityError α
  | some a => .ok a
  | none => .error (.invalidField key)

def listField (content : Content) (key : Str) : Except CapabilityError (List Value) := do
  wellFormed key (← field content key).asList

def stringList (content : Content) (key : Str) : Except CapabilityError (List Str) := do
  (← listField content key).mapM fun value => wellFormed key value.asStr

/-- What was read of a field that may be left out. -/
def optionalField {α : Type} (content : Content) (key : Str) (absent : α) (read : Value → Option α) :
    Except CapabilityError α :=
  match content.get key with
  | some value => wellFormed key (read value)
  | none => .ok absent

/-- The number if it has at most 32 bits. -/
def u32OfU64 (n : UInt64) : Option UInt32 := if n.toNat < 2 ^ 32 then some n.toUInt32 else none

/-- A pair of a tool and a class. -/
def overrideOf : Value → Option (Str × ActionClass)
  | .list [tool, cls] =>
      tool.asStr.bind fun tool => (cls.asStr.bind ActionClass.parse).map fun cls => (tool, cls)
  | _ => none

def CapabilityGrant.fromContent (content : Content) : Except CapabilityError CapabilityGrant := do
  let agentStr ← wellFormed "agent" (← field content "agent").asStr
  let agent ← wellFormed "agent" (UserId.parse agentStr)
  let rate ← wellFormed "rate_limit_per_min" (← field content "rate_limit_per_min").asU64
  let rateLimitPerMin ← wellFormed "rate_limit_per_min" (u32OfU64 rate)
  let dailyCallLimit ← optionalField content "daily_call_limit" 0 fun value =>
    value.asU64.bind u32OfU64
  let dailyTokenBudget ← optionalField content "daily_token_budget" 0 Value.asU64
  let defaultClass ← wellFormed "default_class"
    ((← field content "default_class").asStr.bind ActionClass.parse)
  let allowedTools ← stringList content "allowed_tools"
  let accessibleRooms ← (← listField content "accessible_rooms").mapM fun value =>
    wellFormed "accessible_rooms" (value.asStr.bind RoomId.parse)
  let overrides ← (← listField content "overrides").mapM fun value =>
    wellFormed "overrides" (overrideOf value)
  pure
    { agent, allowedTools, accessibleRooms, rateLimitPerMin, dailyCallLimit, dailyTokenBudget,
      defaultClass, overrides }

/-! ## The client's decoder -/

/-- A value of the client.  Its integers are signed; a number beyond them is a double. -/
inductive Object
  | string (s : Str)
  | bool (b : Bool)
  | int (n : Int64)
  | double
  | list (values : List Object)

namespace Object

def asString : Object → Option Str
  | .string s => some s
  | _ => none

def asInt : Object → Option Int64
  | .int n => some n
  | _ => none

def asList : Object → Option (List Object)
  | .list values => some values
  | _ => none

end Object

mutual

/-- A content value as the client receives it. -/
def Value.received : Value → Object
  | .str s => .string s
  | .bool b => .bool b
  | .u64 n => if n.toNat < 2 ^ 63 then .int n.toInt64 else .double
  | .list values => .list (receivedAll values)

def receivedAll : List Value → List Object
  | [] => []
  | value :: values => value.received :: receivedAll values

end

/-- A content as the client receives it; a key that is absent reads as null. -/
def received (content : Content) (key : Str) : Option Object := (content.get key).map Value.received

def gaussActionClassFromWire (value : Str) : Option ActionClass :=
  if value = "auto".toList then some .auto
  else if value = "review".toList then some .review
  else if value = "forbidden".toList then some .forbidden
  else none

structure GaussCapabilityGrant where
  agent : Str
  allowedTools : List Str
  accessibleRooms : List Str
  rateLimitPerMin : Int64
  dailyCallLimit : Int64
  dailyTokenBudget : Int64
  defaultClass : ActionClass
  overrides : SortedMap Str ActionClass

/-- The list of strings that a value is. -/
def stringsOf (value : Object) : Option (List Str) := do
  (← value.asList).mapM Object.asString

/-- An integer that may be null. -/
def optionalInt : Option Object → Option Int64
  | none => some 0
  | some value => value.asInt

/-- Take an entry of the overrides into the map. -/
def addOverride (overrides : SortedMap Str ActionClass) : Object → Option (SortedMap Str ActionClass)
  | .list [tool, classValue] =>
      tool.asString.bind fun tool =>
        (classValue.asString.bind gaussActionClassFromWire).map fun cls => overrides.insert tool cls
  | _ => none

namespace GaussCapabilityGrant

def fromContent (content : Str → Option Object) : Option GaussCapabilityGrant := do
  let agent ← (content "agent").bind Object.asString
  let rate ← (content "rate_limit_per_min").bind Object.asInt
  let defaultClassValue ← (content "default_class").bind Object.asString
  let dailyCallLimit ← optionalInt (content "daily_call_limit")
  let dailyTokenBudget ← optionalInt (content "daily_token_budget")
  let defaultClass ← gaussActionClassFromWire defaultClassValue
  let allowedTools ← (content "allowed_tools").bind stringsOf
  let accessibleRooms ← (content "accessible_rooms").bind stringsOf
  let overridesValue ← (content "overrides").bind Object.asList
  let overrides ← overridesValue.foldlM addOverride SortedMap.empty
  pure
    { agent, allowedTools, accessibleRooms, rateLimitPerMin := rate, dailyCallLimit,
      dailyTokenBudget, defaultClass, overrides }

def classify (grant : GaussCapabilityGrant) (tool room : Str) : ActionClass :=
  if !grant.accessibleRooms.contains room || !grant.allowedTools.contains tool then .forbidden
  else (grant.overrides.get tool).getD grant.defaultClass

end GaussCapabilityGrant

/-! ## What a content says -/

/-- The content lists the string under the key. -/
def Lists (content : Content) (key s : Str) : Prop :=
  ∃ values, content.get key = some (.list values) ∧ ∃ v ∈ values, v.asStr = some s

/-- The classes that the overrides of a content give a tool, in order. -/
def classesOf (content : Content) (tool : Str) : List ActionClass :=
  (((((content.get "overrides").bind Value.asList).getD []).filterMap overrideOf).filter fun o =>
    o.1 = tool).map Prod.snd

section

variable {content : Content} {key : Str} {grant : CapabilityGrant} {mirror : GaussCapabilityGrant}

/-! ## What the server decodes -/

@[simp] theorem wellFormed_eq_ok_iff {α : Type} {key : Str} {o : Option α} {a : α} :
    wellFormed key o = .ok a ↔ o = some a := by
  cases o <;> simp [wellFormed]

theorem field_eq_ok_iff {value : Value} : field content key = .ok value ↔ content.get key = some value := by
  unfold field
  cases content.get key <;> simp

theorem listField_eq_ok_iff {values : List Value} :
    listField content key = .ok values ↔ content.get key = some (.list values) := by
  unfold listField
  rw [bind_eq_ok_iff]
  simp [field_eq_ok_iff, Value.asList_eq_some_iff]

/-- Entries that are all well formed are what can be read of them. -/
theorem mapM_wellFormed_eq_ok {α β : Type} {f : α → Option β} {entries : List α} {read : List β}
    (h : (entries.mapM fun entry => wellFormed key (f entry)) = .ok read) :
    read = entries.filterMap f := by
  induction entries generalizing read with
  | nil => exact (Except.ok.inj h).symm
  | cons entry entries ih =>
      rw [List.mapM_cons, bind_eq_ok_iff] at h
      obtain ⟨b, hb, h⟩ := h
      rw [bind_eq_ok_iff] at h
      obtain ⟨rest, hrest, h⟩ := h
      rw [List.filterMap_cons, wellFormed_eq_ok_iff.mp hb, ← ih hrest]
      exact (Except.ok.inj h).symm

theorem stringList_eq_ok {read : List Str} (h : stringList content key = .ok read) :
    ∃ values, content.get key = some (.list values) ∧ read = values.filterMap Value.asStr := by
  rw [stringList, bind_eq_ok_iff] at h
  obtain ⟨values, hvalues, h⟩ := h
  exact ⟨values, listField_eq_ok_iff.mp hvalues, mapM_wellFormed_eq_ok h⟩

/-- The parts of a content that decide classes, and what the server reads of them. -/
structure ReadByServer (content : Content) (grant : CapabilityGrant) : Prop where
  defaultClass : ∃ s, content.get "default_class" = some (.str s) ∧
    ActionClass.parse s = some grant.defaultClass
  allowedTools : ∃ values, content.get "allowed_tools" = some (.list values) ∧
    grant.allowedTools = values.filterMap Value.asStr
  accessibleRooms : ∃ values, content.get "accessible_rooms" = some (.list values) ∧
    grant.accessibleRooms = values.filterMap fun value => value.asStr.bind RoomId.parse
  overrides : ∃ values, content.get "overrides" = some (.list values) ∧
    grant.overrides = values.filterMap overrideOf

theorem readByServer_of_fromContent (h : CapabilityGrant.fromContent content = .ok grant) :
    ReadByServer content grant := by
  simp only [CapabilityGrant.fromContent, bind_eq_ok_iff] at h
  obtain ⟨_, _, _, _, _, _, _, _, _, _, _, _, _, _, _, _, value, hvalue, defaultClass, hdefault, tools,
    htools, roomValues, hroomValues, rooms, hrooms, overrideValues, hoverrideValues, overrides,
    hoverrides, h⟩ := h
  obtain rfl := Except.ok.inj h
  obtain ⟨s, hs, hparse⟩ := Option.bind_eq_some_iff.mp (wellFormed_eq_ok_iff.mp hdefault)
  rw [Value.asStr_eq_some_iff.mp hs] at hvalue
  constructor
  · exact ⟨s, field_eq_ok_iff.mp hvalue, hparse⟩
  · exact stringList_eq_ok htools
  · exact ⟨roomValues, listField_eq_ok_iff.mp hroomValues, mapM_wellFormed_eq_ok hrooms⟩
  · exact ⟨overrideValues, listField_eq_ok_iff.mp hoverrideValues, mapM_wellFormed_eq_ok hoverrides⟩

theorem permitsTool_iff (h : ReadByServer content grant) (tool : Str) :
    grant.permitsTool tool = true ↔ Lists content "allowed_tools" tool := by
  obtain ⟨values, hvalues, htools⟩ := h.allowedTools
  rw [CapabilityGrant.permitsTool, htools, List.any_eq_true]
  constructor
  · intro ⟨t, ht, heq⟩
    obtain rfl := of_decide_eq_true heq
    exact ⟨values, hvalues, List.mem_filterMap.mp ht⟩
  · intro ⟨values', hvalues', hmem⟩
    obtain rfl : values = values' := by simpa using hvalues.symm.trans hvalues'
    exact ⟨tool, List.mem_filterMap.mpr hmem, decide_eq_true rfl⟩

theorem permitsRoom_iff (h : ReadByServer content grant) (room : RoomId) :
    grant.permitsRoom room = true ↔ Lists content "accessible_rooms" room.asStr := by
  obtain ⟨values, hvalues, hrooms⟩ := h.accessibleRooms
  rw [CapabilityGrant.permitsRoom, hrooms, List.any_eq_true]
  constructor
  · intro ⟨r, hr, heq⟩
    obtain rfl := of_decide_eq_true heq
    obtain ⟨v, hv, hparse⟩ := List.mem_filterMap.mp hr
    obtain ⟨s, hs, hparse⟩ := Option.bind_eq_some_iff.mp hparse
    exact ⟨values, hvalues, v, hv, by rw [hs, RoomId.asStr_of_parse hparse]⟩
  · intro ⟨values', hvalues', v, hv, hs⟩
    obtain rfl : values = values' := by simpa using hvalues.symm.trans hvalues'
    exact ⟨room, List.mem_filterMap.mpr ⟨v, hv, by rw [hs, Option.bind_some, RoomId.parse_asStr]⟩,
      decide_eq_true rfl⟩

/-- The server takes the class of the first override of a tool. -/
theorem head?_classesOf (h : ReadByServer content grant) (tool : Str) :
    (grant.overrides.find? fun o => o.1 = tool).map Prod.snd = (classesOf content tool).head? := by
  obtain ⟨values, hvalues, hoverrides⟩ := h.overrides
  rw [hoverrides, classesOf, hvalues, List.head?_map, List.head?_filter]
  rfl

/-! ## What the client decodes -/

@[simp] theorem asString_received (v : Value) : v.received.asString = v.asStr := by
  cases v with
  | u64 n =>
      rw [Value.received]
      split <;> rfl
  | str s => rfl
  | bool b => rfl
  | list values => rfl

theorem asList_received (v : Value) : v.received.asList = v.asList.map receivedAll := by
  cases v with
  | u64 n =>
      rw [Value.received]
      split <;> rfl
  | str s => rfl
  | bool b => rfl
  | list values => rfl

theorem mapM_asString_receivedAll {values : List Value} {read : List Str}
    (h : (receivedAll values).mapM Object.asString = some read) : read = values.filterMap Value.asStr := by
  induction values generalizing read with
  | nil => exact (Option.some.inj h).symm
  | cons v values ih =>
      rw [receivedAll, List.mapM_cons, Option.bind_eq_bind, Option.bind_eq_some_iff] at h
      obtain ⟨s, hs, h⟩ := h
      obtain ⟨rest, hrest, h⟩ := Option.bind_eq_some_iff.mp h
      rw [asString_received] at hs
      rw [List.filterMap_cons, hs, ← ih hrest]
      exact (Option.some.inj h).symm

theorem addOverride_received (overrides : SortedMap Str ActionClass) (v : Value) :
    addOverride overrides v.received = (overrideOf v).map fun o => overrides.insert o.1 o.2 := by
  cases v with
  | u64 n =>
      rw [Value.received]
      split <;> rfl
  | str s => rfl
  | bool b => rfl
  | list values =>
      match values with
      | [] => rfl
      | [_] => rfl
      | [tool, cls] =>
          show (tool.received.asString.bind fun tool =>
            (cls.received.asString.bind gaussActionClassFromWire).map fun cls =>
              overrides.insert tool cls) = _
          rw [asString_received, asString_received, overrideOf]
          cases tool.asStr with
          | none => rfl
          | some tool =>
              show (cls.asStr.bind ActionClass.parse).map _ = _
              cases cls.asStr.bind ActionClass.parse with
              | none => rfl
              | some cls => rfl
      | _ :: _ :: _ :: _ => rfl

/-- The map holds the class of the last override of a tool. -/
theorem get_foldlM_addOverride {values : List Value} {overrides filled : SortedMap Str ActionClass}
    (h : (receivedAll values).foldlM addOverride overrides = some filled) (tool : Str) :
    filled.get tool =
      (((values.filterMap overrideOf).filter fun o => o.1 = tool).map Prod.snd).getLast?.or
        (overrides.get tool) := by
  induction values generalizing overrides with
  | nil =>
      obtain rfl := Option.some.inj h
      rfl
  | cons v values ih =>
      rw [receivedAll, List.foldlM_cons, Option.bind_eq_bind, Option.bind_eq_some_iff] at h
      obtain ⟨next, hnext, h⟩ := h
      rw [addOverride_received] at hnext
      obtain ⟨o, ho, rfl⟩ := Option.map_eq_some_iff.mp hnext
      rw [ih h, List.filterMap_cons, ho]
      show _ = (((o :: values.filterMap overrideOf).filter fun o => o.1 = tool).map _).getLast?.or _
      by_cases htool : o.1 = tool
      · rw [List.filter_cons_of_pos (by simpa using htool), List.map_cons, List.getLast?_cons,
          ← htool, SortedMap.get_insert_self]
        cases (((values.filterMap overrideOf).filter fun o' => o'.1 = o.1).map Prod.snd).getLast? <;>
          rfl
      · rw [List.filter_cons_of_neg (by simpa using htool), SortedMap.get_insert_ne _ (Ne.symm htool)]

/-- The parts of a content that decide classes, and what the client reads of them. -/
structure ReadByClient (content : Content) (mirror : GaussCapabilityGrant) : Prop where
  defaultClass : ∃ s, content.get "default_class" = some (.str s) ∧
    ActionClass.parse s = some mirror.defaultClass
  allowedTools : ∃ values, content.get "allowed_tools" = some (.list values) ∧
    mirror.allowedTools = values.filterMap Value.asStr
  accessibleRooms : ∃ values, content.get "accessible_rooms" = some (.list values) ∧
    mirror.accessibleRooms = values.filterMap Value.asStr
  overrides : ∀ tool, mirror.overrides.get tool = (classesOf content tool).getLast?

theorem stringsOf_received {read : List Str} (h : (received content key).bind stringsOf = some read) :
    ∃ values, content.get key = some (.list values) ∧ read = values.filterMap Value.asStr := by
  obtain ⟨value, hvalue, h⟩ := Option.bind_eq_some_iff.mp h
  obtain ⟨v, hv, rfl⟩ := Option.map_eq_some_iff.mp hvalue
  obtain ⟨objects, hobjects, h⟩ := Option.bind_eq_some_iff.mp h
  rw [asList_received] at hobjects
  obtain ⟨values, hvalues, rfl⟩ := Option.map_eq_some_iff.mp hobjects
  rw [Value.asList_eq_some_iff.mp hvalues] at hv
  exact ⟨values, hv, mapM_asString_receivedAll h⟩

theorem readByClient_of_fromContent
    (h : GaussCapabilityGrant.fromContent (received content) = some mirror) :
    ReadByClient content mirror := by
  obtain ⟨agent, -, h⟩ := Option.bind_eq_some_iff.mp h
  obtain ⟨rate, -, h⟩ := Option.bind_eq_some_iff.mp h
  obtain ⟨s, hs, h⟩ := Option.bind_eq_some_iff.mp h
  obtain ⟨dailyCallLimit, -, h⟩ := Option.bind_eq_some_iff.mp h
  obtain ⟨dailyTokenBudget, -, h⟩ := Option.bind_eq_some_iff.mp h
  obtain ⟨defaultClass, hdefault, h⟩ := Option.bind_eq_some_iff.mp h
  obtain ⟨tools, htools, h⟩ := Option.bind_eq_some_iff.mp h
  obtain ⟨rooms, hrooms, h⟩ := Option.bind_eq_some_iff.mp h
  obtain ⟨entries, hentries, h⟩ := Option.bind_eq_some_iff.mp h
  obtain ⟨overrides, hoverrides, h⟩ := Option.bind_eq_some_iff.mp h
  obtain rfl := Option.some.inj h
  constructor
  · obtain ⟨value, hvalue, hs⟩ := Option.bind_eq_some_iff.mp hs
    obtain ⟨v, hv, rfl⟩ := Option.map_eq_some_iff.mp hvalue
    rw [asString_received] at hs
    rw [Value.asStr_eq_some_iff.mp hs] at hv
    exact ⟨s, hv, hdefault⟩
  · exact stringsOf_received htools
  · exact stringsOf_received hrooms
  · intro tool
    obtain ⟨value, hvalue, hentries⟩ := Option.bind_eq_some_iff.mp hentries
    obtain ⟨v, hv, rfl⟩ := Option.map_eq_some_iff.mp hvalue
    rw [asList_received] at hentries
    obtain ⟨values, hvalues, rfl⟩ := Option.map_eq_some_iff.mp hentries
    show overrides.get tool = _
    rw [get_foldlM_addOverride hoverrides, classesOf, hv, Option.bind_some, hvalues]
    exact Option.or_none

theorem mem_strings_iff {values : List Value} {read : List Str}
    (hvalues : content.get key = some (.list values)) (hread : read = values.filterMap Value.asStr)
    (s : Str) : read.contains s = true ↔ Lists content key s := by
  rw [hread, List.contains_iff_mem, List.mem_filterMap]
  constructor
  · exact fun h => ⟨values, hvalues, h⟩
  · intro ⟨values', hvalues', h⟩
    obtain rfl : values = values' := by simpa using hvalues.symm.trans hvalues'
    exact h

end

/-! ## Agreement -/

/-- A tool may be used in a room by a content. -/
def Permits (content : Content) (tool : Str) (room : RoomId) : Prop :=
  Lists content "accessible_rooms" room.asStr ∧ Lists content "allowed_tools" tool

/-- For a content that both decode, the client gives a tool the class that the server gives it exactly
when the tool may not be used in the room or the first and the last override of the tool have the same
class. -/
theorem mirror_agrees_iff (content : Content) (grant : CapabilityGrant) (mirror : GaussCapabilityGrant)
    (hserver : CapabilityGrant.fromContent content = .ok grant)
    (hclient : GaussCapabilityGrant.fromContent (received content) = some mirror) (tool : Str)
    (room : RoomId) :
    mirror.classify tool room.asStr = grant.classify tool room ↔
      (Permits content tool room →
        (classesOf content tool).head? = (classesOf content tool).getLast?) := by
  have hs := readByServer_of_fromContent hserver
  have hc := readByClient_of_fromContent hclient
  have hdefault : mirror.defaultClass = grant.defaultClass := by
    obtain ⟨s, hvalue, hparse⟩ := hs.defaultClass
    obtain ⟨s', hvalue', hparse'⟩ := hc.defaultClass
    obtain rfl : s = s' := by simpa using hvalue.symm.trans hvalue'
    exact Option.some.inj (hparse'.symm.trans hparse)
  by_cases hpermits : Permits content tool room
  · have hserver : grant.classify tool room =
        ((classesOf content tool).head?).getD grant.defaultClass := by
      rw [CapabilityGrant.classify, (permitsRoom_iff hs room).mpr hpermits.1,
        (permitsTool_iff hs tool).mpr hpermits.2, ← head?_classesOf hs]
      rfl
    have hclient : mirror.classify tool room.asStr =
        ((classesOf content tool).getLast?).getD grant.defaultClass := by
      obtain ⟨rooms, hrooms, hread⟩ := hc.accessibleRooms
      obtain ⟨tools, htools, hread'⟩ := hc.allowedTools
      rw [GaussCapabilityGrant.classify, (mem_strings_iff hrooms hread _).mpr hpermits.1,
        (mem_strings_iff htools hread' _).mpr hpermits.2, ← hc.overrides, hdefault]
      rfl
    rw [hserver, hclient]
    -- a tool that has a first override has a last one
    cases hclasses : classesOf content tool with
    | nil => simp
    | cons first rest =>
        rw [List.head?_cons, List.getLast?_cons]
        simp only [Option.getD_some, Option.some.injEq, hpermits, true_implies]
        exact eq_comm
  · have hserver : grant.classify tool room = .forbidden := by
      rw [CapabilityGrant.classify, if_pos]
      by_contra h
      simp only [Bool.or_eq_true, Bool.not_eq_true', not_or, Bool.not_eq_false] at h
      exact hpermits ⟨(permitsRoom_iff hs room).mp h.1, (permitsTool_iff hs tool).mp h.2⟩
    have hclient : mirror.classify tool room.asStr = .forbidden := by
      obtain ⟨rooms, hrooms, hread⟩ := hc.accessibleRooms
      obtain ⟨tools, htools, hread'⟩ := hc.allowedTools
      rw [GaussCapabilityGrant.classify, if_pos]
      by_contra h
      simp only [Bool.or_eq_true, Bool.not_eq_true', not_or, Bool.not_eq_false] at h
      exact hpermits ⟨(mem_strings_iff hrooms hread _).mp h.1, (mem_strings_iff htools hread' _).mp h.2⟩
    simp [hserver, hclient, hpermits]

namespace SampleContents

def override (cls : Str) : Value := .list [.str "send".toList, .str cls]

/-- The content of a grant of one tool in one room. -/
def contentWith (overrides : List Value) : Content :=
  SortedMap.empty.insertAll
    [("agent".toList, .str "@a:x".toList), ("rate_limit_per_min".toList, .u64 0),
      ("default_class".toList, .str "forbidden".toList),
      ("allowed_tools".toList, .list [.str "send".toList]),
      ("accessible_rooms".toList, .list [.str "!r:x".toList]), ("overrides".toList, .list overrides)]

def room : RoomId := ⟨"!r:x", valid_room⟩

/-- The class of the tool on the server, and on the client. -/
def serverClass (content : Content) : Option ActionClass :=
  (CapabilityGrant.fromContent content).toOption.map fun grant => grant.classify "send" room

def clientClass (content : Content) : Option ActionClass :=
  (GaussCapabilityGrant.fromContent (received content)).map fun mirror =>
    mirror.classify "send" room.asStr

theorem exists_grant {content : Content} {cls : ActionClass} (h : serverClass content = some cls) :
    ∃ grant, CapabilityGrant.fromContent content = .ok grant ∧ grant.classify "send" room = cls := by
  obtain ⟨grant, hgrant, hcls⟩ := Option.map_eq_some_iff.mp h
  cases hdecoded : CapabilityGrant.fromContent content with
  | error e =>
      rw [hdecoded] at hgrant
      cases hgrant
  | ok decoded =>
      rw [hdecoded] at hgrant
      obtain rfl : decoded = grant := Option.some.inj hgrant
      exact ⟨decoded, rfl, hcls⟩

end SampleContents

open SampleContents in
/-- An override that is given twice with one class reads the same on both sides. -/
theorem mirror_agrees_sample :
    ∃ grant mirror,
      CapabilityGrant.fromContent (contentWith [override "review", override "review"]) = .ok grant ∧
      GaussCapabilityGrant.fromContent
        (received (contentWith [override "review", override "review"])) = some mirror ∧
      mirror.classify "send" room.asStr = grant.classify "send" room := by
  have hserver : serverClass (contentWith [override "review", override "review"]) = some .review := by
    decide +kernel
  have hclient : clientClass (contentWith [override "review", override "review"]) = some .review := by
    decide +kernel
  obtain ⟨grant, hgrant, -⟩ := exists_grant hserver
  obtain ⟨mirror, hmirror, -⟩ := Option.map_eq_some_iff.mp hclient
  have hends : (classesOf (contentWith [override "review", override "review"]) "send".toList).head? =
      (classesOf (contentWith [override "review", override "review"]) "send".toList).getLast? := by
    decide +kernel
  exact ⟨grant, mirror, hgrant, hmirror,
    (mirror_agrees_iff _ grant mirror hgrant hmirror "send".toList room).mpr fun _ => hends⟩

open SampleContents in
/-- A tool is overridden to review and then to auto: the server holds its calls for review, and the
client shows them as automatic. -/
theorem mirror_shows_another_class :
    ¬ ∀ (content : Content) (grant : CapabilityGrant) (mirror : GaussCapabilityGrant),
      CapabilityGrant.fromContent content = .ok grant →
      GaussCapabilityGrant.fromContent (received content) = some mirror →
        ∀ (tool : Str) (room : RoomId), mirror.classify tool room.asStr = grant.classify tool room := by
  intro h
  have hserver : serverClass (contentWith [override "review", override "auto"]) = some .review := by
    decide +kernel
  have hclient : clientClass (contentWith [override "review", override "auto"]) = some .auto := by
    decide +kernel
  obtain ⟨grant, hgrant, hreview⟩ := exists_grant hserver
  obtain ⟨mirror, hmirror, hauto⟩ := Option.map_eq_some_iff.mp hclient
  have hsame := h _ grant mirror hgrant hmirror "send" room
  rw [hauto, hreview] at hsame
  exact absurd hsame (by decide)

end GaussMatrix.Agent
