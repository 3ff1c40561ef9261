import GaussMatrix.Agent.AuditTrail

/-!
# The ways into mediation

A call under a policy and a call that was delegated go the way of a direct call, under a class that is
no laxer than the grant's, and against the same budgets.
-/

namespace GaussMatrix.Agent

open Library Util Audit Obs Gateway

/-! ## What became of a call -/

/-- The executor was given the call, and an answer says so. -/
structure Executed (r : Reply) (call : ToolCall) : Prop where
  invoked : r.invoked.map Prod.snd = [call]
  answer : ∀ a, r.answer = some a → ∃ events, a = .ok (.executed events)

/-- The call waits for a decision, and an answer says so. -/
structure Queued (g : Gateway) (r : Reply) (call : ToolCall) : Prop where
  invoked : r.invoked = []
  pending : ∃ requestId callId, r.gateway.pending = g.pending ++ [⟨requestId, callId, call⟩]
  answer : ∀ a, r.answer = some a → ∃ requestId event, a = .ok (.awaitingApproval requestId event)

/-- The call was refused: nothing was executed or queued, and an answer says so. -/
structure Denied (g : Gateway) (r : Reply) : Prop where
  invoked : r.invoked = []
  pending : r.gateway.pending = g.pending
  answer : ∀ a, r.answer = some a → ∃ reason events, a = .ok (.denied reason events)

section

variable {env : GatewayEnv} {g : Gateway} {grant : CapabilityGrant} {call : ToolCall}
  {executor : ToolExecutor} {r r' : Reply}

theorem not_executed_of_invoked (h : r.invoked = []) : ¬ Executed r call := by
  intro hexecuted
  have hone := hexecuted.invoked
  rw [h] at hone
  exact List.cons_ne_nil _ _ hone.symm

theorem not_queued_of_pending (h : r.gateway.pending = g.pending) : ¬ Queued g r call := by
  intro hqueued
  obtain ⟨requestId, callId, hpending⟩ := hqueued.pending
  rw [h] at hpending
  exact List.cons_ne_nil _ _ (List.self_eq_append_right.mp hpending)

theorem denied_dismiss (agent : AgentId) (line : AuditLine) (outcome reason : Str)
    (events : List ReflectedEvent) :
    Denied g (g.dismiss env agent line outcome (.ok (.denied reason events))) := by
  obtain ⟨store, metrics, hgateway⟩ :=
    dismiss_gateway env g agent line outcome (.ok (.denied reason events))
  constructor
  · exact dismiss_invoked env g agent line outcome _
  · rw [hgateway]
  · intro a ha
    exact ⟨reason, events, (of_dismiss_answer ha).1⟩

/-! ## Turns by their class -/

/-- A forbidden call is refused. -/
theorem Gateway.Turn.denied (h : Turn env g ⟨grant, call, .forbidden⟩ r) : Denied g r := by
  cases h with
  | refused g' store metrics hchecked hgateway hinvoked hanswer =>
      have hsame : g' = g := by
        rcases hchecked with ⟨-, hsame⟩ | ⟨hcls, -⟩
        · exact hsame
        · exact absurd rfl hcls
      constructor
      · exact hinvoked
      · rw [hgateway, hsame]
      · intro a ha
        obtain ⟨⟨reason, heq⟩, -⟩ := hanswer a ha
        exact ⟨reason, [], heq⟩
  | panicked store seq hpassed => exact absurd rfl hpassed.1
  | executed store store' metrics seq tokens hpassed => exact nomatch hpassed.1
  | queued store metrics seq request hpassed => exact nomatch hpassed.1

/-- A call for review is not executed. -/
theorem Gateway.Turn.not_executed (h : Turn env g ⟨grant, call, .review⟩ r) : ¬ Executed r call := by
  cases h with
  | refused g' store metrics hchecked hgateway hinvoked => exact not_executed_of_invoked hinvoked
  | panicked store seq hpassed hoverflow hseq hgateway hinvoked =>
      exact not_executed_of_invoked hinvoked
  | executed store store' metrics seq tokens hpassed => exact nomatch hpassed.1
  | queued store metrics seq request hpassed hcounted hseq hrequest hgateway hinvoked =>
      exact not_executed_of_invoked hinvoked

/-- A call that is queued for review is executed where its class allows it at once. -/
theorem Gateway.Turn.executed_of_queued (hreview : Turn env g ⟨grant, call, .review⟩ r)
    (hqueued : Queued g r call) (hauto : Turn env g ⟨grant, call, .auto⟩ r') :
    Executed r' call := by
  -- the call that was queued passed the budgets and could be counted, and both are the same here
  have hpassed : (g.checkBudgets env grant call).1 = none ∧
      (g.counted env ⟨grant, call, .auto⟩).1 = true ∧ increment env g.nextCallSeq ≠ none := by
    cases hreview with
    | refused g' store metrics hchecked hgateway =>
        rcases hchecked with ⟨hcls, -⟩ | ⟨-, -, hsame⟩
        · exact nomatch hcls
        · obtain ⟨ticks, recentCalls, dailyUsage, hfields⟩ := checkBudgets_eq env g grant call
          exact absurd hqueued (not_queued_of_pending (by rw [hgateway, hsame, hfields]))
    | panicked store seq hpassed hoverflow hseq hgateway =>
        obtain ⟨ticks, recentCalls, dailyUsage, hfields⟩ :=
          counted_eq env g ⟨grant, call, .review⟩
        exact absurd hqueued (not_queued_of_pending (by rw [hgateway, hfields]))
    | executed store store' metrics seq tokens hpassed => exact nomatch hpassed.1
    | queued store metrics seq request hpassed hcounted hseq =>
        refine ⟨hpassed.2, hcounted, ?_⟩
        rw [hseq]
        exact Option.some_ne_none seq
  obtain ⟨hcheck, hcounted, hseq⟩ := hpassed
  cases hauto with
  | refused g' store metrics hchecked =>
      rcases hchecked with ⟨hcls, -⟩ | ⟨-, hsome, -⟩
      · exact nomatch hcls
      · exact absurd hcheck hsome
  | panicked store seq hpassed hoverflow =>
      rcases hoverflow with hfalse | hnone | ⟨hcls, -⟩
      · rw [hcounted] at hfalse
        exact nomatch hfalse
      · exact absurd hnone hseq
      · exact nomatch hcls
  | executed store store' metrics seq tokens hpassed hcounted hseq hgateway hinvoked hanswer =>
      constructor
      · rw [hinvoked]
        rfl
      · intro a ha
        obtain ⟨⟨events, heq⟩, -⟩ := hanswer a ha
        exact ⟨_, heq⟩
  | queued store metrics seq request hpassed => exact nomatch hpassed.1

theorem handleWithPolicy_forbidden {policy : PolicySet}
    (hbase : grant.classify call.tool call.room = .forbidden) :
    g.handleWithPolicy env grant policy call executor = g.handle env grant call executor := by
  unfold handleWithPolicy handle
  simp only [hbase, if_true]

theorem handleWithPolicy_deny {policy : PolicySet}
    (hbase : grant.classify call.tool call.room ≠ .forbidden)
    (heffect : policy.evaluate call.tool call.room.asStr call.argsSummary = .deny) :
    Denied g (g.handleWithPolicy env grant policy call executor) := by
  unfold handleWithPolicy
  simp only [if_neg hbase, if_pos heffect]
  exact denied_dismiss _ _ _ _ _

theorem handleWithPolicy_refine {policy : PolicySet} {effect : Effect}
    (hbase : grant.classify call.tool call.room ≠ .forbidden)
    (heffect : policy.evaluate call.tool call.room.asStr call.argsSummary = effect)
    (hdeny : effect ≠ .deny) : g.handleWithPolicy env grant policy call executor =
      g.mediate env grant call (refine (grant.classify call.tool call.room) effect) executor := by
  unfold handleWithPolicy
  simp only [if_neg hbase, heffect, if_neg hdeny]

/-- Under a policy a call goes the direct way, or for review, or is refused. -/
theorem handleWithPolicy_cases (env : GatewayEnv) (g : Gateway) (grant : CapabilityGrant)
    (policy : PolicySet) (call : ToolCall) (executor : ToolExecutor) :
    let policed := g.handleWithPolicy env grant policy call executor
    policed = g.handle env grant call executor ∨
      (grant.classify call.tool call.room = .auto ∧
        Turn env g ⟨grant, call, .review⟩ policed) ∨
      (grant.classify call.tool call.room ≠ .forbidden ∧ Denied g policed) := by
  by_cases hbase : grant.classify call.tool call.room = .forbidden
  · exact .inl (handleWithPolicy_forbidden hbase)
  · cases heffect : policy.evaluate call.tool call.room.asStr call.argsSummary with
    | deny => exact .inr (.inr ⟨hbase, handleWithPolicy_deny hbase heffect⟩)
    | allow =>
        left
        rw [handleWithPolicy_refine hbase heffect (by decide)]
        cases hclass : grant.classify call.tool call.room with
        | forbidden => exact absurd hclass hbase
        | auto | review =>
            unfold handle
            rw [hclass]
            rfl
    | requireReview =>
        have hpoliced := @handleWithPolicy_refine env g grant call executor policy _ hbase heffect
          (by decide)
        cases hclass : grant.classify call.tool call.room with
        | forbidden => exact absurd hclass hbase
        | auto =>
            rw [hclass] at hpoliced
            rw [hpoliced]
            exact .inr (.inl ⟨rfl, turn_mediate ⟨grant, call, .review⟩⟩)
        | review =>
            rw [hclass] at hpoliced
            left
            rw [hpoliced]
            unfold handle
            rw [hclass]
            rfl

/-! ## Delegated calls -/

/-- The two replies say the same, and leave gateways that differ in their stores at most. -/
structure SameButStore (r r' : Reply) : Prop where
  gateway : r'.gateway = { r.gateway with store := r'.gateway.store }
  audited : r'.audited = r.audited
  invoked : r'.invoked.map Prod.snd = r.invoked.map Prod.snd
  answer : r'.answer = r.answer

variable {g' : Gateway} {store : Store Bytes}

theorem sameButStore_panicked (hgateway : g' = { g with store := g'.store })
    {audited : List (AgentId × AuditLine)} {invoked invoked' : List (Gateway × ToolCall)}
    (hinvoked : invoked'.map Prod.snd = invoked.map Prod.snd) :
    SameButStore (g.panicked audited invoked) (g'.panicked audited invoked') :=
  ⟨hgateway, rfl, hinvoked, rfl⟩

theorem sameButStore_conclude (hgateway : g' = { g with store := g'.store })
    {audited : List (AgentId × AuditLine)} {invoked invoked' : List (Gateway × ToolCall)}
    (hinvoked : invoked'.map Prod.snd = invoked.map Prod.snd) (outcome : Str)
    (answer : Except GatewayError Outcome) :
    SameButStore (g.conclude env audited invoked outcome answer)
      (g'.conclude env audited invoked' outcome answer) := by
  -- the second gateway is the first one with another store
  generalize g'.store = store at hgateway
  subst hgateway
  unfold conclude recordOutcome
  cases g.metrics.incCounter env.overflowChecks "gm_agent_actions_total"
      [("outcome".toList, outcome)] with
  | none => exact sameButStore_panicked rfl hinvoked
  | some metrics => exact ⟨rfl, rfl, hinvoked, rfl⟩

theorem sameButStore_refuse (agent : AgentId) (refusal : Refusal) :
    SameButStore (g.refuse env agent refusal)
      (({ g with store } : Gateway).refuse env agent refusal) :=
  sameButStore_conclude rfl rfl _ _

theorem sameButStore_execute (callId : Str) (audited : List (AgentId × AuditLine))
    (event : ReflectedEvent) :
    SameButStore (g.execute env call executor callId audited event)
      (({ g with store } : Gateway).execute env call executor callId audited event) := by
  have hmetrics : ∀ line, ((({ g with store } : Gateway).noteTokens env call.agent.asStr
      (executor call).tokens).audit env call.agent line).metrics = g.metrics := fun _ => rfl
  have hmetrics' : ∀ line, ((g.noteTokens env call.agent.asStr (executor call).tokens).audit env
      call.agent line).metrics = g.metrics := fun _ => rfl
  unfold execute
  simp only [hmetrics, hmetrics']
  cases g.metrics.addCounter env.overflowChecks "gm_agent_tokens_total"
      [("agent".toList, call.agent.asStr)] (executor call).tokens with
  | none =>
      apply sameButStore_panicked
      · rfl
      · rfl
  | some metrics =>
      apply sameButStore_conclude
      · rfl
      · rfl

theorem sameButStore_executeNow :
    SameButStore (g.executeNow env call executor)
      (({ g with store } : Gateway).executeNow env call executor) := by
  unfold executeNow nextCallId
  cases increment env g.nextCallSeq with
  | none => exact sameButStore_panicked rfl rfl
  | some next => exact sameButStore_execute _ _ _

theorem sameButStore_queueForReview :
    SameButStore (g.queueForReview env call)
      (({ g with store } : Gateway).queueForReview env call) := by
  unfold queueForReview nextCallId
  cases increment env g.nextCallSeq with
  | none => exact sameButStore_panicked rfl rfl
  | some seq =>
      simp only [Option.map_some]
      cases increment env g.nextRequestId with
      | none => exact sameButStore_panicked rfl rfl
      | some next =>
          apply sameButStore_conclude
          · rfl
          · rfl

theorem sameButStore_takeCall (cls : ActionClass) :
    SameButStore (g.takeCall env call cls executor)
      (({ g with store } : Gateway).takeCall env call cls executor) := by
  have hcounted : (({ g with store } : Gateway).noteCall env call.agent.asStr).noteDailyCall env
      call.agent.asStr =
        (((g.noteCall env call.agent.asStr).noteDailyCall env call.agent.asStr).1,
          { ((g.noteCall env call.agent.asStr).noteDailyCall env call.agent.asStr).2 with store }) :=
    noteDailyCall_store env (g.noteCall env call.agent.asStr) call.agent.asStr store
  unfold takeCall
  rw [hcounted]
  cases (g.noteCall env call.agent.asStr).noteDailyCall env call.agent.asStr with
  | mk counted g' =>
      cases counted with
      | false => exact sameButStore_panicked rfl rfl
      | true =>
          cases cls with
          | auto => exact sameButStore_executeNow
          | review => exact sameButStore_queueForReview
          | forbidden => exact sameButStore_panicked rfl rfl

theorem sameButStore_mediate (cls : ActionClass) :
    SameButStore (g.mediate env grant call cls executor)
      (({ g with store } : Gateway).mediate env grant call cls executor) := by
  unfold mediate
  rw [checkBudgets_store env g grant call store]
  by_cases hcls : cls = .forbidden
  · rw [if_pos hcls, if_pos hcls]
    exact sameButStore_refuse _ _
  · rw [if_neg hcls, if_neg hcls]
    cases hcheck : g.checkBudgets env grant call with
    | mk refusal g' =>
        cases refusal with
        | some refusal => exact sameButStore_refuse _ _
        | none => exact sameButStore_takeCall cls

/-- What a delegated call does beyond the direct one is to say in the log who delegated it. -/
theorem handleDelegated_of_contains {roster : AgentRoster} {orchestrator : AgentId}
    (horchestrator : roster.contains orchestrator = true) (hworker : roster.contains call.agent = true) :
    ∃ direct delegated : Reply, g.handleInRoom env roster call executor = direct ∧
      g.handleDelegated env roster orchestrator call executor =
        { delegated with
          audited := (call.agent, .delegatedBy orchestrator call.tool) :: delegated.audited } ∧
      SameButStore direct delegated ∧
      direct.gateway.store = appendAll env.digest g.store (direct.audited.map record) ∧
      delegated.gateway.store = appendAll env.digest g.store
        (record (call.agent, .delegatedBy orchestrator call.tool) :: direct.audited.map record) := by
  obtain ⟨grant, hgrant⟩ := Option.isSome_iff_exists.mp hworker
  let m := Mediation.ofGrant call grant
  let delegated := (g.audit env call.agent (.delegatedBy orchestrator call.tool)).mediate env grant
    call (grant.classify call.tool call.room) executor
  have hsame : SameButStore (g.mediate env grant call (grant.classify call.tool call.room) executor)
      delegated := sameButStore_mediate _
  have hdirect : Audits env g.store 2 call.texts (some ⟨call.agent, call.tool, none⟩)
      (g.mediate env grant call (grant.classify call.tool call.room) executor) :=
    audits_mediate m rfl fun _ h => h
  have hdelegated : Audits env
      (g.audit env call.agent (.delegatedBy orchestrator call.tool)).store 2 call.texts
      (some ⟨call.agent, call.tool, none⟩) delegated := audits_mediate m rfl fun _ h => h
  refine ⟨_, delegated, rfl, ?_, ?_, ?_, ?_⟩
  · unfold handleDelegated
    rw [horchestrator, hgrant]
    rfl
  · unfold handleInRoom
    rw [hgrant]
    exact hsame
  · unfold handleInRoom
    rw [hgrant]
    exact hdirect.written
  · unfold handleInRoom
    rw [hgrant, hdelegated.written, hsame.audited]
    rfl

/-- A call under a policy is executed or queued only where the direct call gets as far, and a call
that the grant forbids is denied by both.  A call that is delegated between agents on the roster gets
the same answer as a direct one and leaves the same, with one more line in the log. -/
theorem no_entry_point_is_laxer (env : GatewayEnv) (g : Gateway) (grant : CapabilityGrant)
    (policy : PolicySet) (call : ToolCall) (executor : ToolExecutor) (roster : AgentRoster)
    (orchestrator : AgentId) :
    (Executed (g.handleWithPolicy env grant policy call executor) call →
        Executed (g.handle env grant call executor) call) ∧
      (Queued g (g.handleWithPolicy env grant policy call executor) call →
        Executed (g.handle env grant call executor) call ∨
          Queued g (g.handle env grant call executor) call) ∧
      (grant.classify call.tool call.room = .forbidden →
        Denied g (g.handleWithPolicy env grant policy call executor) ∧
          Denied g (g.handle env grant call executor)) ∧
      (roster.contains orchestrator = true → roster.contains call.agent = true →
        let direct := g.handleInRoom env roster call executor
        let delegated := g.handleDelegated env roster orchestrator call executor
        delegated.answer = direct.answer ∧
          delegated.invoked.map Prod.snd = direct.invoked.map Prod.snd ∧
          delegated.gateway = { direct.gateway with store := delegated.gateway.store } ∧
          ∃ lines, direct.gateway.store = appendAll env.digest g.store lines ∧
            delegated.gateway.store = appendAll env.digest g.store
              ((call.agent.asStr, (AuditLine.delegatedBy orchestrator call.tool).text) :: lines)) := by
  have hcases := handleWithPolicy_cases env g grant policy call executor
  refine ⟨?_, ?_, ?_, ?_⟩
  · -- a policy that adds a review or a denial executes nothing
    intro hexecuted
    rcases hcases with heq | ⟨-, hreview⟩ | ⟨-, hdenied⟩
    · rw [← heq]
      exact hexecuted
    · exact absurd hexecuted hreview.not_executed
    · exact absurd hexecuted (not_executed_of_invoked hdenied.invoked)
  · -- what a policy puts on the queue is executed or queued without it
    intro hqueued
    rcases hcases with heq | ⟨hauto, hreview⟩ | ⟨-, hdenied⟩
    · rw [← heq]
      exact .inr hqueued
    · left
      have hturn : Turn env g ⟨grant, call, .auto⟩ (g.handle env grant call executor) := by
        unfold handle
        rw [hauto]
        exact turn_mediate ⟨grant, call, .auto⟩
      exact hreview.executed_of_queued hqueued hturn
    · exact absurd hqueued (not_queued_of_pending hdenied.pending)
  · -- no policy changes a forbidden class
    intro hforbidden
    have hdirect : Denied g (g.handle env grant call executor) := by
      have hturn : Turn env g ⟨grant, call, .forbidden⟩ (g.handle env grant call executor) := by
        unfold handle
        rw [hforbidden]
        exact turn_mediate ⟨grant, call, .forbidden⟩
      exact hturn.denied
    rw [handleWithPolicy_forbidden hforbidden]
    exact ⟨hdirect, hdirect⟩
  · -- a delegated call writes one line more
    intro horchestrator hworker
    obtain ⟨direct, delegated, hdirect, hdelegated, hsame, hwritten, hwritten'⟩ :=
      @handleDelegated_of_contains env g call executor roster orchestrator horchestrator hworker
    rw [hdirect, hdelegated]
    exact ⟨hsame.answer, hsame.invoked, hsame.gateway, _, hwritten, hwritten'⟩

end

end GaussMatrix.Agent
