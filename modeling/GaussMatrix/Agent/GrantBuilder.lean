import GaussMatrix.Agent.Discovery

/-!
# Building a grant

`allow_tool` and `allow_room` append to the lists of a grant, and a class is recorded unless it is
`forbidden`. The classifier takes the first class recorded for a tool, so a later declaration shows
only where no earlier one is in its way.
-/

namespace GaussMatrix.Agent

open Library Util

/-! ## The builder -/

inductive GrantCall
  | allowTool (tool : Str) (cls : ActionClass)
  | allowRoom (room : RoomId)

def GrantCall.apply (grant : CapabilityGrant) : GrantCall → CapabilityGrant
  | .allowTool tool cls => grant.allowTool tool cls
  | .allowRoom room => grant.allowRoom room

/-- The grant after the calls, with its default class set. -/
def buildGrant (agent : AgentId) (calls : List GrantCall) (defaultClass : ActionClass) :
    CapabilityGrant :=
  { calls.foldl GrantCall.apply (CapabilityGrant.denyAll agent) with defaultClass }

/-- The class a call declares for a tool. -/
def GrantCall.declares (tool : Str) : GrantCall → Option ActionClass
  | .allowTool name cls => if name = tool then some cls else none
  | .allowRoom _ => none

/-- The classes declared for a tool, in the order of the calls. -/
def declared (calls : List GrantCall) (tool : Str) : List ActionClass :=
  calls.filterMap (GrantCall.declares tool)

section

/-! ## What a grant holds after some calls -/

variable {agent : AgentId} {calls : List GrantCall} {defaultClass cls : ActionClass} {tool : Str}
  {room : RoomId}

theorem declared_cons (call : GrantCall) (calls : List GrantCall) (tool : Str) :
    declared (call :: calls) tool = (call.declares tool).toList ++ declared calls tool := by
  rw [declared, List.filterMap_cons]
  cases call.declares tool <;> rfl

/-- The class the overrides give a tool, if any. -/
def CapabilityGrant.override (grant : CapabilityGrant) (tool : Str) : Option ActionClass :=
  (grant.overrides.find? fun o => o.1 = tool).map Prod.snd

/-- A class that is recorded already is kept. -/
theorem override_apply (grant : CapabilityGrant) (call : GrantCall) :
    (call.apply grant).override tool =
      (grant.override tool).or ((call.declares tool).filter fun cls => cls ≠ .forbidden) := by
  cases call with
  | allowRoom room => simp [GrantCall.apply, CapabilityGrant.allowRoom, CapabilityGrant.override,
      GrantCall.declares]
  | allowTool name cls =>
      simp only [GrantCall.apply, CapabilityGrant.allowTool, CapabilityGrant.override,
        GrantCall.declares]
      by_cases hcls : cls = .forbidden
      · -- the tool is allowed, but no class is recorded for it
        rw [if_neg (not_not.mpr hcls)]
        by_cases hname : name = tool <;> simp [hname, hcls, Option.filter]
      · -- the class goes to the end, behind one that is recorded already
        rw [if_pos hcls, List.find?_append, List.find?_singleton]
        generalize grant.overrides.find? (fun o => decide (o.1 = tool)) = found
        by_cases hname : name = tool <;> cases found <;> simp [hname, hcls, Option.filter]

/-- The class recorded first is the one that counts. -/
theorem override_foldl (calls : List GrantCall) (grant : CapabilityGrant) :
    (calls.foldl GrantCall.apply grant).override tool =
      (grant.override tool).or ((declared calls tool).find? fun cls => cls ≠ .forbidden) := by
  induction calls generalizing grant with
  | nil => simp [declared]
  | cons call calls ih =>
      rw [List.foldl_cons, ih, override_apply, Option.or_assoc]
      congr 1
      rw [declared_cons, List.find?_append]
      cases call.declares tool with
      | none => rfl
      | some cls => by_cases hcls : cls = .forbidden <;> simp [hcls, Option.filter]

theorem permitsTool_foldl (calls : List GrantCall) (grant : CapabilityGrant) :
    (calls.foldl GrantCall.apply grant).permitsTool tool = true ↔
      grant.permitsTool tool = true ∨ declared calls tool ≠ [] := by
  induction calls generalizing grant with
  | nil => simp [declared]
  | cons call calls ih =>
      have hcall : (call.apply grant).permitsTool tool = true ↔
          grant.permitsTool tool = true ∨ (call.declares tool).isSome := by
        cases call with
        | allowRoom room => simp [GrantCall.apply, CapabilityGrant.allowRoom,
            CapabilityGrant.permitsTool, GrantCall.declares]
        | allowTool name cls =>
            by_cases hname : name = tool <;> simp [GrantCall.apply, CapabilityGrant.allowTool,
              CapabilityGrant.permitsTool, GrantCall.declares, hname]
      rw [List.foldl_cons, ih, hcall, declared_cons, or_assoc]
      cases call.declares tool <;> simp

theorem permitsRoom_foldl (calls : List GrantCall) (grant : CapabilityGrant) :
    (calls.foldl GrantCall.apply grant).permitsRoom room = true ↔
      grant.permitsRoom room = true ∨ .allowRoom room ∈ calls := by
  induction calls generalizing grant with
  | nil => simp
  | cons call calls ih =>
      have hcall : (call.apply grant).permitsRoom room = true ↔
          grant.permitsRoom room = true ∨ .allowRoom room = call := by
        cases call with
        | allowTool name cls => simp [GrantCall.apply, CapabilityGrant.allowTool,
            CapabilityGrant.permitsRoom]
        | allowRoom other => simp [GrantCall.apply, CapabilityGrant.allowRoom,
            CapabilityGrant.permitsRoom, @eq_comm _ room other]
      rw [List.foldl_cons, ih, hcall, List.mem_cons, or_assoc]

/-- The class of a tool that was declared, in a room that was allowed. -/
theorem classify_buildGrant (hroom : .allowRoom room ∈ calls) (htool : declared calls tool ≠ []) :
    (buildGrant agent calls defaultClass).classify tool room =
      ((declared calls tool).find? fun cls => cls ≠ .forbidden).getD defaultClass := by
  have hpermitsRoom : (buildGrant agent calls defaultClass).permitsRoom room = true :=
    (permitsRoom_foldl calls (CapabilityGrant.denyAll agent)).mpr (.inr hroom)
  have hpermitsTool : (buildGrant agent calls defaultClass).permitsTool tool = true :=
    (permitsTool_foldl calls (CapabilityGrant.denyAll agent)).mpr (.inr htool)
  have hoverride : (buildGrant agent calls defaultClass).override tool =
      (declared calls tool).find? fun cls => cls ≠ .forbidden := by
    rw [← Option.none_or (o := List.find? _ (declared calls tool))]
    exact override_foldl calls (CapabilityGrant.denyAll agent)
  rw [classify_of_permitsRoom hpermitsRoom, if_pos hpermitsTool, ← hoverride]
  rfl

end

/-! ## The last declaration -/

/-- Nothing is in the way of the class declared last: if it is `forbidden`, no other class was ever
declared and the default is `forbidden` too; otherwise it is the first declared that is not. -/
def LastCounts (calls : List GrantCall) (defaultClass : ActionClass) (tool : Str)
    (last : ActionClass) : Prop :=
  if last = .forbidden then (∀ cls ∈ declared calls tool, cls = .forbidden) ∧ defaultClass = .forbidden
  else (declared calls tool).find? (fun cls => cls ≠ .forbidden) = some last

/-- A tool has the class declared last for it exactly when nothing is in its way. -/
theorem classify_last_iff (agent : AgentId) (calls : List GrantCall) (defaultClass : ActionClass)
    {tool : Str} {room : RoomId} {last : ActionClass} (hroom : .allowRoom room ∈ calls)
    (hlast : (declared calls tool).getLast? = some last) :
    (buildGrant agent calls defaultClass).classify tool room = last ↔
      LastCounts calls defaultClass tool last := by
  have hmem : last ∈ declared calls tool := List.mem_of_getLast? hlast
  rw [classify_buildGrant hroom (List.ne_nil_of_mem hmem), LastCounts]
  by_cases hforbidden : last = .forbidden
  · rw [if_pos hforbidden, hforbidden]
    cases hfind : (declared calls tool).find? fun cls => cls ≠ .forbidden with
    | none =>
        rw [List.find?_eq_none] at hfind
        exact ⟨fun h => ⟨fun cls hcls => by simpa using hfind cls hcls, h⟩, fun h => h.2⟩
    | some cls =>
        have hcls : cls ≠ .forbidden := by simpa using List.find?_some hfind
        exact iff_of_false hcls fun h => hcls (h.1 cls (List.mem_of_find?_eq_some hfind))
  · rw [if_neg hforbidden]
    cases hfind : (declared calls tool).find? fun cls => cls ≠ .forbidden with
    | none =>
        rw [List.find?_eq_none] at hfind
        exact absurd hforbidden (by simpa using hfind last hmem)
    | some cls => simp

namespace SampleBuilder

open SampleGateway

/-- `read` is allowed in the room at once, and then declared once more. -/
def redeclared (cls : ActionClass) : List GrantCall :=
  [.allowRoom room, .allowTool "read".toList .auto, .allowTool "read".toList cls]

end SampleBuilder

open SampleGateway SampleBuilder in
/-- From `auto` to `review` the second declaration does not count. -/
theorem classify_redeclared_review :
    (buildGrant worker (redeclared .review) .forbidden).classify "read".toList room = .review ↔
      LastCounts (redeclared .review) .forbidden "read".toList .review :=
  classify_last_iff worker (redeclared .review) .forbidden List.mem_cons_self (by decide)

open SampleGateway SampleBuilder in
/-- A tool declared `forbidden` last is still executed without asking. -/
theorem classify_redeclared_forbidden :
    ¬ ∀ (agent : AgentId) (calls : List GrantCall) (defaultClass : ActionClass) (tool : Str)
      (room : RoomId) (last : ActionClass), .allowRoom room ∈ calls →
        (declared calls tool).getLast? = some last →
          (buildGrant agent calls defaultClass).classify tool room = last := by
  intro h
  have hlast := h worker (redeclared .forbidden) .forbidden "read".toList room .forbidden
    List.mem_cons_self (by decide)
  exact absurd hlast (by decide)

end GaussMatrix.Agent
