import GaussMatrix.Library.SortedMap
import GaussMatrix.Util.Ids

/-!
# Capability grants

What an agent may do: its grant, the policy rules that tighten it, the roster of a room's agents and
the namespace of the agents that a registration provisions.
-/

namespace GaussMatrix.Agent

open Library Util

/-- The identity of an agent, a user id. -/
abbrev AgentId := UserId

/-- How an action of an agent is classified. -/
inductive ActionClass
  | auto
  | review
  | forbidden
  deriving DecidableEq

structure CapabilityGrant where
  agent : AgentId
  allowedTools : List Str
  accessibleRooms : List RoomId
  /-- 0 is unlimited, here and in the two limits below. -/
  rateLimitPerMin : UInt32
  dailyCallLimit : UInt32
  dailyTokenBudget : UInt64
  defaultClass : ActionClass
  overrides : List (Str × ActionClass)

namespace CapabilityGrant

def permitsTool (grant : CapabilityGrant) (tool : Str) : Bool := grant.allowedTools.any (· = tool)

def permitsRoom (grant : CapabilityGrant) (room : RoomId) : Bool :=
  grant.accessibleRooms.any (· = room)

/-- The class of a tool in a room; what is not allowed is forbidden. -/
def classify (grant : CapabilityGrant) (tool : Str) (room : RoomId) : ActionClass :=
  if !grant.permitsRoom room || !grant.permitsTool tool then .forbidden
  else ((grant.overrides.find? fun o => o.1 = tool).map Prod.snd).getD grant.defaultClass

end CapabilityGrant

/-! ## Policies -/

/-- What a policy rule does when it matches a call. -/
inductive Effect
  | allow
  | requireReview
  | deny
  deriving DecidableEq

/-- The class under a policy effect, which only tightens. -/
def refine (cls : ActionClass) (effect : Effect) : ActionClass :=
  match cls with
  | .forbidden => .forbidden
  | _ =>
      match effect with
      | .deny => .forbidden
      | .requireReview => .review
      | .allow => cls

/-- A rule; an absent matcher matches anything. -/
structure PolicyRule where
  effect : Effect
  tool : Option Str
  room : Option Str
  argsContains : Option Str

/-- Whether the text has the other in it. -/
def contains (text part : Str) : Bool := decide (part <:+: text)

def PolicyRule.matches (rule : PolicyRule) (tool room argsSummary : Str) : Bool :=
  rule.tool.all (· = tool) && rule.room.all (· = room) && rule.argsContains.all (contains argsSummary)

structure PolicySet where
  rules : List PolicyRule
  defaultEffect : Effect

/-- The effect of the first rule that matches. -/
def PolicySet.evaluate (policy : PolicySet) (tool room argsSummary : Str) : Effect :=
  ((policy.rules.find? fun rule => rule.matches tool room argsSummary).map PolicyRule.effect).getD
    policy.defaultEffect

/-! ## Rosters -/

/-- A room's agents, each with its own grant. -/
structure AgentRoster where
  grants : SortedMap Str CapabilityGrant
  keyed : ∀ agent grant, grants.get agent = some grant → grant.agent.asStr = agent

namespace AgentRoster

def empty : AgentRoster := ⟨SortedMap.empty, fun _ _ h => nomatch h⟩

/-- Admit an agent, or replace its grant. -/
def insert (roster : AgentRoster) (grant : CapabilityGrant) : AgentRoster where
  grants := roster.grants.insert grant.agent.asStr grant
  keyed := by
    intro agent grant' h
    rw [SortedMap.get_insert] at h
    split at h
    · rename_i hagent
      rw [hagent, Option.some_inj.mp h]
    · exact roster.keyed agent grant' h

def grantFor (roster : AgentRoster) (agent : AgentId) : Option CapabilityGrant :=
  roster.grants.get agent.asStr

def contains (roster : AgentRoster) (agent : AgentId) : Bool := (roster.grantFor agent).isSome

theorem agent_of_grantFor {roster : AgentRoster} {agent : AgentId} {grant : CapabilityGrant}
    (h : roster.grantFor agent = some grant) : grant.agent = agent :=
  UserId.ext (roster.keyed agent.asStr grant h)

end AgentRoster

/-! ## Registrations -/

/-- The namespace that agent identities live in. -/
structure AgentNamespace where
  serverName : Str
  localpartPrefix : Str

/-- The part of a user id between the sigil and the first colon. -/
def localpart (user : UserId) : Str :=
  (((stripPrefix ['@'] user.asStr).bind (splitOnce ':')).map Prod.fst).getD []

def AgentNamespace.contains (ns : AgentNamespace) (user : UserId) : Bool :=
  user.serverName = ns.serverName && startsWith ns.localpartPrefix (localpart user)

/-- A registration, as far as mediation reads it. -/
structure AppserviceRegistration where
  agentNamespace : AgentNamespace

/-- Whether the user is an agent that the registration provisions. -/
def AppserviceRegistration.manages (registration : AppserviceRegistration) (user : UserId) : Bool :=
  registration.agentNamespace.contains user

end GaussMatrix.Agent
