import GaussMatrix.Agent.Capability
import GaussMatrix.Agent.Events
import GaussMatrix.Library.Runs
import GaussMatrix.Obs.Metrics
import GaussMatrix.Store.Audit

/-!
# The agentic gateway

Tool calls of agents, mediated: refused by scope or by a budget, executed at once, or held until a
human decides.  Every decision goes to the audit log.
-/

namespace GaussMatrix.Agent

open Library Util Audit Obs

/-! ## Calls and outcomes -/

/-- A tool invocation of an agent. -/
structure ToolCall where
  agent : AgentId
  room : RoomId
  tool : Str
  argsSummary : Str
  deriving DecidableEq

/-- What executing a tool gave. -/
structure ToolOutcome where
  ok : Bool
  summary : Str
  tokens : UInt64

/-- The executor that a call is handed, as it answers during this call. -/
abbrev ToolExecutor := ToolCall → ToolOutcome

/-- An action that waits for a human decision. -/
structure PendingApproval where
  requestId : UInt64
  callId : Str
  call : ToolCall
  deriving DecidableEq

inductive GatewayError
  | unknownRequest (id : UInt64)
  | unknownAgent (agent : Str)
  deriving DecidableEq

/-- What became of a call or of an approval, with the events for the room. -/
inductive Outcome
  | executed (events : List ReflectedEvent)
  | awaitingApproval (requestId : UInt64) (event : ReflectedEvent)
  | denied (reason : Str) (events : List ReflectedEvent)

/-! ## Audit lines -/

/-- What the gateway writes to the audit log. -/
inductive AuditLine
  | unmanagedAgent (agent : AgentId)
  | unknownAgent (agent : AgentId)
  | delegatedBy (orchestrator : AgentId) (tool : Str)
  | policyDenied (tool : Str) (room : RoomId)
  | deniedByScope (tool : Str) (room : RoomId)
  | rateLimited (tool : Str)
  | dailyBudgetExceeded (tool : Str)
  | tokenBudgetExceeded (tool : Str)
  | autoAllowed (tool : Str)
  | approvalRequested (tool : Str)
  | approvedBy (decidedBy tool : Str)
  | deniedBy (decidedBy tool : Str)
  | executed (tool : Str) (ok : Bool) (tokens : UInt64)
  deriving DecidableEq

/-- The text of a line. -/
def AuditLine.text : AuditLine → Str
  | unmanagedAgent agent => "unmanaged_agent: ".toList ++ agent.asStr
  | unknownAgent agent => "unknown_agent: ".toList ++ agent.asStr
  | delegatedBy orchestrator tool =>
      "delegated_by ".toList ++ orchestrator.asStr ++ ": ".toList ++ tool
  | policyDenied tool room => "policy_denied: ".toList ++ tool ++ " in ".toList ++ room.asStr
  | deniedByScope tool room => "denied_by_scope: ".toList ++ tool ++ " in ".toList ++ room.asStr
  | rateLimited tool => "rate_limited: ".toList ++ tool
  | dailyBudgetExceeded tool => "daily_budget_exceeded: ".toList ++ tool
  | tokenBudgetExceeded tool => "token_budget_exceeded: ".toList ++ tool
  | autoAllowed tool => "auto_allowed: ".toList ++ tool
  | approvalRequested tool => "approval_requested: ".toList ++ tool
  | approvedBy decidedBy tool => "approved_by ".toList ++ decidedBy ++ ": ".toList ++ tool
  | deniedBy decidedBy tool => "denied_by ".toList ++ decidedBy ++ ": ".toList ++ tool
  | executed tool ok tokens =>
      "executed: ".toList ++ tool ++ " ok=".toList ++ (if ok then "true" else "false").toList ++
        " tokens=".toList ++ decimal tokens.toNat

/-! ## The gateway -/

/-- The usage of an agent on the day of its entry. -/
structure Usage where
  day : UInt64
  calls : UInt32
  tokens : UInt64
  deriving DecidableEq

structure Gateway where
  nextRequestId : UInt64
  nextCallSeq : UInt64
  pending : List PendingApproval
  store : Store Bytes
  /-- The number of clock readings taken. -/
  ticks : Nat
  /-- The admitted calls in the rate window: agent and seconds. -/
  recentCalls : List (Str × UInt64)
  dailyUsage : SortedMap Str Usage
  metrics : Metrics

/-- What the gateway's code takes from its environment. -/
structure GatewayEnv where
  digest : Digest
  /-- The readings of the clock, in seconds. -/
  clock : Nat → UInt64
  /-- Whether the build checks integer overflow; the call then panics instead of wrapping. -/
  overflowChecks : Bool

namespace Gateway

variable (env : GatewayEnv) (g : Gateway)

/-- An empty gateway over a store. -/
def withStore (store : Store Bytes) : Gateway where
  nextRequestId := 0
  nextCallSeq := 0
  pending := []
  store
  ticks := 0
  recentCalls := []
  dailyUsage := SortedMap.empty
  metrics := Metrics.empty

/-- Read the clock. -/
def nowUnixSecs : UInt64 × Gateway := (env.clock g.ticks, { g with ticks := g.ticks + 1 })

def audit (agent : AgentId) (line : AuditLine) : Gateway :=
  { g with store := append env.digest g.store agent.asStr line.text }

/-- Count an outcome and refresh the gauge of pending approvals; none on overflow. -/
def recordOutcome (outcome : Str) : Option Gateway :=
  (g.metrics.incCounter env.overflowChecks "gm_agent_actions_total" [("outcome".toList, outcome)]).map
    fun metrics =>
      { g with metrics := metrics.setGauge "gm_agent_pending_approvals" [] g.pending.length }

/-! ### Budgets -/

def rateWindowSecs : UInt64 := 60

def secsPerDay : UInt64 := 86400

/-- Whether the agent has used up its rate; the calls outside the window are dropped. -/
def isRateLimited (agent : Str) (limitPerMin : UInt32) : Bool × Gateway :=
  if limitPerMin = 0 then (false, g)
  else
    let (now, g) := g.nowUnixSecs env
    let cutoff := if now < rateWindowSecs then 0 else now - rateWindowSecs
    let recentCalls := g.recentCalls.filter fun c => cutoff < c.2
    let count := (recentCalls.filter fun c => c.1 = agent).length
    (limitPerMin.toNat ≤ count, { g with recentCalls })

def noteCall (agent : Str) : Gateway :=
  let (now, g) := g.nowUnixSecs env
  { g with recentCalls := g.recentCalls ++ [(agent, now)] }

/-- The agent's usage today: an entry of another day starts over. -/
def dailyEntry (agent : Str) : Usage × Gateway :=
  let (now, g) := g.nowUnixSecs env
  let day := now / secsPerDay
  let usage := match g.dailyUsage.get agent with
    | some usage => if usage.day = day then usage else ⟨day, 0, 0⟩
    | none => ⟨day, 0, 0⟩
  (usage, { g with dailyUsage := g.dailyUsage.insert agent usage })

def isOverDailyBudget (agent : Str) (dailyLimit : UInt32) : Bool × Gateway :=
  if dailyLimit = 0 then (false, g)
  else
    let (usage, g) := g.dailyEntry env agent
    (dailyLimit ≤ usage.calls, g)

def isOverTokenBudget (agent : Str) (tokenBudget : UInt64) : Bool × Gateway :=
  if tokenBudget = 0 then (false, g)
  else
    let (usage, g) := g.dailyEntry env agent
    (tokenBudget ≤ usage.tokens, g)

/-- Count a call of today; whether it could be counted, and the gateway. -/
def noteDailyCall (agent : Str) : Bool × Gateway :=
  let (usage, g) := g.dailyEntry env agent
  if env.overflowChecks ∧ usage.calls.toNat + 1 = 2 ^ 32 then (false, g)
  else
    (true,
      { g with dailyUsage := g.dailyUsage.insert agent { usage with calls := usage.calls + 1 } })

/-- Count tokens of today, up to the largest number. -/
def noteTokens (agent : Str) (tokens : UInt64) : Gateway :=
  let (usage, g) := g.dailyEntry env agent
  let sum := if usage.tokens.toNat + tokens.toNat < 2 ^ 64 then usage.tokens + tokens else -1
  { g with dailyUsage := g.dailyUsage.insert agent { usage with tokens := sum } }

/-- The next number of a counter; none on overflow. -/
def increment (n : UInt64) : Option UInt64 :=
  if env.overflowChecks ∧ n.toNat + 1 = 2 ^ 64 then none else some (n + 1)

/-- Take the next call id; none on overflow. -/
def nextCallId : Option (Str × Gateway) :=
  (increment env g.nextCallSeq).map fun next =>
    ("call-".toList ++ decimal g.nextCallSeq.toNat, { g with nextCallSeq := next })

end Gateway

/-! ## Mediation -/

/-- What a call leaves: the gateway, what was written to the audit log, what the executor was given
and the gateway at that moment, and the answer; none when the call panics. -/
structure Reply where
  gateway : Gateway
  audited : List (AgentId × AuditLine)
  invoked : List (Gateway × ToolCall)
  answer : Option (Except GatewayError Outcome)

/-- A refusal: its audit line, its name in the metrics, and the reason given. -/
structure Refusal where
  line : AuditLine
  outcome : Str
  reason : Str

namespace Gateway

variable (env : GatewayEnv) (g : Gateway)

/-- The reply of a call that panics. -/
def panicked (audited : List (AgentId × AuditLine)) (invoked : List (Gateway × ToolCall)) : Reply :=
  { gateway := g, audited, invoked, answer := none }

/-- Record the outcome and answer. -/
def conclude (audited : List (AgentId × AuditLine)) (invoked : List (Gateway × ToolCall))
    (outcome : Str) (answer : Except GatewayError Outcome) : Reply :=
  match g.recordOutcome env outcome with
  | none => g.panicked audited invoked
  | some g => { gateway := g, audited, invoked, answer := some answer }

/-- Write a line, record the outcome and answer. -/
def dismiss (agent : AgentId) (line : AuditLine) (outcome : Str)
    (answer : Except GatewayError Outcome) : Reply :=
  (g.audit env agent line).conclude env [(agent, line)] [] outcome answer

def refuse (agent : AgentId) (refusal : Refusal) : Reply :=
  g.dismiss env agent refusal.line refusal.outcome (.ok (.denied refusal.reason []))

def scopeRefusal (call : ToolCall) : Refusal where
  line := .deniedByScope call.tool call.room
  outcome := "denied_scope"
  reason := call.tool ++ " is not permitted in ".toList ++ call.room.asStr

def rateRefusal (grant : CapabilityGrant) (call : ToolCall) : Refusal where
  line := .rateLimited call.tool
  outcome := "rate_limited"
  reason := "rate limit of ".toList ++ decimal grant.rateLimitPerMin.toNat ++
    "/min exceeded for ".toList ++ call.agent.asStr

def dailyRefusal (grant : CapabilityGrant) (call : ToolCall) : Refusal where
  line := .dailyBudgetExceeded call.tool
  outcome := "budget_exceeded"
  reason := "daily budget of ".toList ++ decimal grant.dailyCallLimit.toNat ++
    " calls exceeded for ".toList ++ call.agent.asStr

def tokenRefusal (grant : CapabilityGrant) (call : ToolCall) : Refusal where
  line := .tokenBudgetExceeded call.tool
  outcome := "token_budget_exceeded"
  reason := "daily token budget of ".toList ++ decimal grant.dailyTokenBudget.toNat ++
    " exceeded for ".toList ++ call.agent.asStr

/-- Check the rate, the daily calls and the daily tokens, in this order. -/
def checkBudgets (grant : CapabilityGrant) (call : ToolCall) : Option Refusal × Gateway :=
  let (limited, g) := g.isRateLimited env call.agent.asStr grant.rateLimitPerMin
  if limited then (some (rateRefusal grant call), g)
  else
    let (exceeded, g) := g.isOverDailyBudget env call.agent.asStr grant.dailyCallLimit
    if exceeded then (some (dailyRefusal grant call), g)
    else
      let (exceeded, g) := g.isOverTokenBudget env call.agent.asStr grant.dailyTokenBudget
      if exceeded then (some (tokenRefusal grant call), g) else (none, g)

/-- Execute a call and account for it, after what was audited and with the event of the call or of
its approval. -/
def execute (call : ToolCall) (executor : ToolExecutor) (callId : Str)
    (audited : List (AgentId × AuditLine)) (event : ReflectedEvent) : Reply :=
  let outcome := executor call
  let line := AuditLine.executed call.tool outcome.ok outcome.tokens
  let audited := audited ++ [(call.agent, line)]
  let after := (g.noteTokens env call.agent.asStr outcome.tokens).audit env call.agent line
  match after.metrics.addCounter env.overflowChecks "gm_agent_tokens_total"
      [("agent".toList, call.agent.asStr)] outcome.tokens with
  | none => after.panicked audited [(g, call)]
  | some metrics =>
      let resultEvent := ReflectedEvent.toolResult callId call.tool outcome.ok outcome.summary
      ({ after with metrics } : Gateway).conclude env audited [(g, call)] "executed"
        (.ok (.executed [event, resultEvent]))

/-- Execute an admitted call at once. -/
def executeNow (call : ToolCall) (executor : ToolExecutor) : Reply :=
  match g.nextCallId env with
  | none => g.panicked [] []
  | some (callId, g) =>
      (g.audit env call.agent (.autoAllowed call.tool)).execute env call executor callId
        [(call.agent, .autoAllowed call.tool)]
        (ReflectedEvent.toolCall callId call.tool call.argsSummary)

/-- Hold an admitted call for a human decision. -/
def queueForReview (call : ToolCall) : Reply :=
  match g.nextCallId env with
  | none => g.panicked [] []
  | some (callId, g) =>
      let requestId := g.nextRequestId
      match increment env requestId with
      | none => g.panicked [] []
      | some next =>
          let line := AuditLine.approvalRequested call.tool
          let g := ({ g with nextRequestId := next } : Gateway).audit env call.agent line
          let request : PendingApproval := { requestId, callId, call }
          ({ g with pending := g.pending ++ [request] } : Gateway).conclude env
            [(call.agent, line)] [] "review"
            (.ok (.awaitingApproval requestId
              (ReflectedEvent.toolCall callId call.tool call.argsSummary)))

/-- Take an admitted call: count it, and execute or hold it. -/
def takeCall (call : ToolCall) (cls : ActionClass) (executor : ToolExecutor) : Reply :=
  let (counted, g) := (g.noteCall env call.agent.asStr).noteDailyCall env call.agent.asStr
  if counted then
    match cls with
    | .auto => g.executeNow env call executor
    | .review => g.queueForReview env call
    -- a forbidden call is refused before
    | .forbidden => g.panicked [] []
  else g.panicked [] []

/-- The mediation of a call with its class. -/
def mediate (grant : CapabilityGrant) (call : ToolCall) (cls : ActionClass) (executor : ToolExecutor) :
    Reply :=
  if cls = .forbidden then g.refuse env call.agent (scopeRefusal call)
  else
    match g.checkBudgets env grant call with
    | (some refusal, g) => g.refuse env call.agent refusal
    | (none, g) => g.takeCall env call cls executor

/-! ## The entry points -/

def handle (grant : CapabilityGrant) (call : ToolCall) (executor : ToolExecutor) : Reply :=
  g.mediate env grant call (grant.classify call.tool call.room) executor

/-- Mediate a call of an agent that the registration provisions. -/
def handleManaged (registration : AppserviceRegistration) (grant : CapabilityGrant)
    (call : ToolCall) (executor : ToolExecutor) : Reply :=
  if registration.manages call.agent then g.handle env grant call executor
  else
    g.refuse env call.agent
      { line := .unmanagedAgent call.agent
        outcome := "unmanaged"
        reason := call.agent.asStr ++ " is not a managed agent identity".toList }

def refuseUnknown (agent : AgentId) : Reply :=
  g.dismiss env agent (.unknownAgent agent) "unknown_agent" (.error (.unknownAgent agent.asStr))

/-- Mediate a call in a room with several agents, under the caller's grant on the roster. -/
def handleInRoom (roster : AgentRoster) (call : ToolCall) (executor : ToolExecutor) : Reply :=
  match roster.grantFor call.agent with
  | some grant => g.mediate env grant call (grant.classify call.tool call.room) executor
  | none => g.refuseUnknown env call.agent

/-- Mediate a call that one agent delegates to another, under the worker's own grant. -/
def handleDelegated (roster : AgentRoster) (orchestrator : AgentId) (call : ToolCall)
    (executor : ToolExecutor) : Reply :=
  if !roster.contains orchestrator then g.refuseUnknown env orchestrator
  else
    match roster.grantFor call.agent with
    | none => g.refuseUnknown env call.agent
    | some grant =>
        let line := AuditLine.delegatedBy orchestrator call.tool
        let reply := (g.audit env call.agent line).mediate env grant call
          (grant.classify call.tool call.room) executor
        { reply with audited := (call.agent, line) :: reply.audited }

/-- Mediate a call under a grant and a policy that tightens it. -/
def handleWithPolicy (grant : CapabilityGrant) (policy : PolicySet) (call : ToolCall)
    (executor : ToolExecutor) : Reply :=
  let base := grant.classify call.tool call.room
  if base = .forbidden then g.mediate env grant call .forbidden executor
  else
    let effect := policy.evaluate call.tool call.room.asStr call.argsSummary
    if effect = .deny then
      g.refuse env call.agent
        { line := .policyDenied call.tool call.room
          outcome := "denied_policy"
          reason := call.tool ++ " denied by policy in ".toList ++ call.room.asStr }
    else g.mediate env grant call (refine base effect) executor

/-- Carry out a human decision on a pending approval. -/
def resolve (requestId : UInt64) (approved : Bool) (decidedBy : Str) (executor : ToolExecutor) :
    Reply :=
  match g.pending.find? fun p => p.requestId = requestId with
  | none =>
      { gateway := g, audited := [], invoked := [], answer := some (.error (.unknownRequest requestId)) }
  | some pending =>
      let call := pending.call
      let g : Gateway := { g with pending := g.pending.eraseP fun p => p.requestId = requestId }
      let receipt := ReflectedEvent.approval pending.callId decidedBy approved
      if approved then
        let line := AuditLine.approvedBy decidedBy call.tool
        (g.audit env call.agent line).execute env call executor pending.callId
          [(call.agent, line)] receipt
      else
        g.dismiss env call.agent (.deniedBy decidedBy call.tool) "denied_human"
          (.ok (.denied (call.tool ++ " denied by ".toList ++ decidedBy) [receipt]))

end Gateway

/-! ## Runs -/

/-- A call of the gateway, with the executor it is handed. -/
inductive GatewayCall
  | handle (grant : CapabilityGrant) (call : ToolCall) (executor : ToolExecutor)
  | handleManaged (registration : AppserviceRegistration) (grant : CapabilityGrant)
      (call : ToolCall) (executor : ToolExecutor)
  | handleInRoom (roster : AgentRoster) (call : ToolCall) (executor : ToolExecutor)
  | handleDelegated (roster : AgentRoster) (orchestrator : AgentId) (call : ToolCall)
      (executor : ToolExecutor)
  | handleWithPolicy (grant : CapabilityGrant) (policy : PolicySet) (call : ToolCall)
      (executor : ToolExecutor)
  | resolve (requestId : UInt64) (approved : Bool) (decidedBy : Str) (executor : ToolExecutor)

def perform (env : GatewayEnv) (g : Gateway) : GatewayCall → Reply
  | .handle grant call executor => g.handle env grant call executor
  | .handleManaged registration grant call executor =>
      g.handleManaged env registration grant call executor
  | .handleInRoom roster call executor => g.handleInRoom env roster call executor
  | .handleDelegated roster orchestrator call executor =>
      g.handleDelegated env roster orchestrator call executor
  | .handleWithPolicy grant policy call executor =>
      g.handleWithPolicy env grant policy call executor
  | .resolve requestId approved decidedBy executor =>
      g.resolve env requestId approved decidedBy executor

/-- The gateway after a call. -/
def gatewayStep (env : GatewayEnv) (g : Gateway) (op : GatewayCall) : Gateway :=
  (perform env g op).gateway

namespace SampleGateway

/-- A clock that stands still, and a build without overflow checks. -/
def env : GatewayEnv where
  digest := fun actor event prevHash => UInt64.ofNat (actor.length + event.length) + prevHash
  clock := fun _ => 1000
  overflowChecks := false

def room : RoomId := ⟨"!room:host".toList, by decide⟩

def worker : AgentId := ⟨"@worker:host".toList, by decide⟩

def stranger : AgentId := ⟨"@stranger:host".toList, by decide⟩

/-- The worker's grant: one tool in one room, two calls and ten tokens. -/
def grant (cls : ActionClass) : CapabilityGrant where
  agent := worker
  allowedTools := ["read"]
  accessibleRooms := [room]
  rateLimitPerMin := 2
  dailyCallLimit := 2
  dailyTokenBudget := 10
  defaultClass := cls
  overrides := []

def call (agent : AgentId) : ToolCall := ⟨agent, room, "read", []⟩

/-- An executor that takes ten tokens. -/
def executor : ToolExecutor := fun _ => ⟨true, [], 10⟩

end SampleGateway

end GaussMatrix.Agent
