import GaussMatrix.Agent.Gateway

/-!
# Tool discovery

What an agent is shown of a catalog: the tools that its grant allows, each with the class that the
grant gives it.  The class may be that of a tool which is never permitted, and the tool is shown all
the same.
-/

namespace GaussMatrix.Agent

open Library Util Audit Obs

/-- A tool that a deployment offers. -/
structure ToolSpec where
  name : Str
  description : Str
  advisedClass : ActionClass

/-- A tool that an agent may discover, with its class. -/
structure DiscoverableTool where
  name : Str
  description : Str
  cls : ActionClass
  deriving DecidableEq

/-- The tools of a deployment, each under its own name. -/
structure ToolCatalog where
  tools : SortedMap Str ToolSpec
  keyed : ∀ name spec, tools.get name = some spec → spec.name = name

namespace CapabilityGrant

/-- The class that the grant gives a tool: its first override, or the default. -/
def assigned (grant : CapabilityGrant) (tool : Str) : ActionClass :=
  ((grant.overrides.find? fun o => o.1 = tool).map Prod.snd).getD grant.defaultClass

/-- The class of a tool in whatever room; none if the agent may not use it at all. -/
def toolClass (grant : CapabilityGrant) (tool : Str) : Option ActionClass :=
  if !grant.permitsTool tool then none else some (grant.assigned tool)

/-- A grant that denies all. -/
def denyAll (agent : AgentId) : CapabilityGrant where
  agent
  allowedTools := []
  accessibleRooms := []
  rateLimitPerMin := 0
  dailyCallLimit := 0
  dailyTokenBudget := 0
  defaultClass := .forbidden
  overrides := []

/-- Allow a tool; a forbidden one gets no override. -/
def allowTool (grant : CapabilityGrant) (tool : Str) (cls : ActionClass) : CapabilityGrant :=
  { grant with
    overrides := if cls ≠ .forbidden then grant.overrides ++ [(tool, cls)] else grant.overrides
    allowedTools := grant.allowedTools ++ [tool] }

def allowRoom (grant : CapabilityGrant) (room : RoomId) : CapabilityGrant :=
  { grant with accessibleRooms := grant.accessibleRooms ++ [room] }

end CapabilityGrant

namespace ToolCatalog

def new : ToolCatalog := ⟨SortedMap.empty, fun _ _ h => nomatch h⟩

/-- Register a tool, or replace it. -/
def withTool (catalog : ToolCatalog) (spec : ToolSpec) : ToolCatalog where
  tools := catalog.tools.insert spec.name spec
  keyed := by
    intro name spec' h
    rw [SortedMap.get_insert] at h
    split at h
    · rename_i hname
      rw [hname, Option.some_inj.mp h]
    · exact catalog.keyed name spec' h

def all (catalog : ToolCatalog) : List ToolSpec := catalog.tools.values

/-- The tools that a grant lets its agent discover. -/
def listFor (catalog : ToolCatalog) (grant : CapabilityGrant) : List DiscoverableTool :=
  catalog.tools.values.filterMap fun spec =>
    (grant.toolClass spec.name).map fun cls => ⟨spec.name, spec.description, cls⟩

end ToolCatalog

/-- List the tools for an agent: what is shown, and the gateway; none when a counter overflows. -/
def Gateway.listTools (env : GatewayEnv) (g : Gateway) (grant : CapabilityGrant)
    (catalog : ToolCatalog) : Option (List DiscoverableTool × Gateway) :=
  let tools := catalog.listFor grant
  let store := append env.digest g.store grant.agent.asStr
    ("tools_listed: ".toList ++ decimal tools.length)
  (g.metrics.incCounter env.overflowChecks "gm_agent_tool_lists_total" []).map fun metrics =>
    (tools, { g with store, metrics })

/-! ## What is shown and what may be done -/

section

variable {catalog : ToolCatalog} {grant : CapabilityGrant} {room : RoomId} {tool : Str}

theorem mem_listFor_iff {shown : DiscoverableTool} : shown ∈ catalog.listFor grant ↔
    ∃ spec ∈ catalog.all, grant.permitsTool spec.name = true ∧
      shown = ⟨spec.name, spec.description, grant.assigned spec.name⟩ := by
  rw [ToolCatalog.listFor, List.mem_filterMap]
  apply exists_congr
  intro spec
  apply and_congr_right
  intro _
  unfold CapabilityGrant.toolClass
  cases grant.permitsTool spec.name with
  | false => simp
  | true => simp [eq_comm]

/-- In a room that the grant permits the class of a tool is the assigned one, where it is allowed. -/
theorem classify_of_permitsRoom (hroom : grant.permitsRoom room = true) (tool : Str) :
    grant.classify tool room =
      if grant.permitsTool tool = true then grant.assigned tool else .forbidden := by
  unfold CapabilityGrant.classify CapabilityGrant.assigned
  rw [hroom]
  cases grant.permitsTool tool <;> rfl

/-- Of the catalog's tools those are shown that may be used in the room, each with its class there. -/
def ShowsWhatMayBeDone (catalog : ToolCatalog) (grant : CapabilityGrant) (room : RoomId) : Prop :=
  ∀ spec ∈ catalog.all,
    ((∃ shown ∈ catalog.listFor grant, shown.name = spec.name) ↔
      grant.classify spec.name room ≠ .forbidden) ∧
    ∀ shown ∈ catalog.listFor grant, shown.name = spec.name →
      shown.cls = grant.classify spec.name room

/-- Discovery shows what may be done exactly when the grant gives no tool of the catalog that it
allows the class of what is never permitted. -/
theorem discovery_shows_what_may_be_done_iff (catalog : ToolCatalog) (grant : CapabilityGrant)
    (room : RoomId) (hroom : grant.permitsRoom room = true) :
    ShowsWhatMayBeDone catalog grant room ↔
      ∀ spec ∈ catalog.all, grant.permitsTool spec.name = true →
        grant.assigned spec.name ≠ .forbidden := by
  constructor
  · intro h spec hspec hallowed
    have hshown : ∃ shown ∈ catalog.listFor grant, shown.name = spec.name :=
      ⟨_, mem_listFor_iff.mpr ⟨spec, hspec, hallowed, rfl⟩, rfl⟩
    have hclass := (h spec hspec).1.mp hshown
    rw [classify_of_permitsRoom hroom, if_pos hallowed] at hclass
    exact hclass
  · intro h spec hspec
    rw [classify_of_permitsRoom hroom]
    constructor
    · constructor
      · intro ⟨shown, hshown, hname⟩
        obtain ⟨spec', hspec', hallowed, heq⟩ := mem_listFor_iff.mp hshown
        -- the spec that is shown may be another one, but it has the name
        have hsame : spec'.name = spec.name := by rw [← hname, heq]
        rw [hsame] at hallowed
        rw [if_pos hallowed]
        exact h spec hspec hallowed
      · intro hclass
        by_cases hallowed : grant.permitsTool spec.name = true
        · exact ⟨_, mem_listFor_iff.mpr ⟨spec, hspec, hallowed, rfl⟩, rfl⟩
        · rw [if_neg hallowed] at hclass
          exact absurd rfl hclass
    · intro shown hshown hname
      obtain ⟨spec', hspec', hallowed, heq⟩ := mem_listFor_iff.mp hshown
      have hsame : spec'.name = spec.name := by rw [← hname, heq]
      rw [hsame] at hallowed
      rw [if_pos hallowed, heq, ← hsame]

end

namespace SampleGateway

/-- A catalog of one tool. -/
def catalog : ToolCatalog := ToolCatalog.new.withTool ⟨"read".toList, [], .auto⟩

end SampleGateway

open SampleGateway in
/-- The worker may use the tool of the catalog, and is shown it. -/
theorem discovery_shows_what_may_be_done_sample :
    ShowsWhatMayBeDone catalog (grant .auto) room ↔
      ∀ spec ∈ catalog.all, (grant .auto).permitsTool spec.name = true →
        (grant .auto).assigned spec.name ≠ .forbidden :=
  discovery_shows_what_may_be_done_iff catalog (grant .auto) room (by decide)

open SampleGateway in
/-- A tool that was allowed as one that is never permitted is shown. -/
theorem discovery_shows_forbidden_tool : ¬ ShowsWhatMayBeDone catalog
    (((CapabilityGrant.denyAll worker).allowRoom room).allowTool "read".toList .forbidden) room := by
  intro h
  have hclass : (((CapabilityGrant.denyAll worker).allowRoom room).allowTool "read".toList
      .forbidden).classify "read".toList room = .forbidden := by decide
  have hshown : ⟨"read".toList, [], .forbidden⟩ ∈ catalog.listFor
      (((CapabilityGrant.denyAll worker).allowRoom room).allowTool "read".toList .forbidden) := by decide
  exact (h ⟨"read".toList, [], .auto⟩ List.mem_cons_self).1.mp ⟨_, hshown, rfl⟩ hclass

end GaussMatrix.Agent
