import GaussMatrix.Agent.CallLimits
import GaussMatrix.Store.AuditComplete

/-!
# The audit trail of the gateway

Each call writes its lines to the store in order, and one of them is its decision.  What the log shows
of a run is what was written, unless a text in it has a separator.
-/

namespace GaussMatrix.Agent

open Library Util Audit Obs Gateway

/-- A decision on a call of an agent: the tool, and who decided if it was not the gateway. -/
structure Decision where
  agent : AgentId
  tool : Str
  decidedBy : Option Str

/-- The tool and the decider of a line, if the line is a decision. -/
def AuditLine.decides : AuditLine → Option (Str × Option Str)
  | policyDenied tool _ => some (tool, none)
  | deniedByScope tool _ => some (tool, none)
  | rateLimited tool => some (tool, none)
  | dailyBudgetExceeded tool => some (tool, none)
  | tokenBudgetExceeded tool => some (tool, none)
  | autoAllowed tool => some (tool, none)
  | approvalRequested tool => some (tool, none)
  | approvedBy decidedBy tool => some (tool, some decidedBy)
  | deniedBy decidedBy tool => some (tool, some decidedBy)
  | unmanagedAgent _ | unknownAgent _ | delegatedBy _ _ | executed _ _ _ => none

/-- The decision that a line about an agent is. -/
def decisionOf (line : AgentId × AuditLine) : Option Decision :=
  line.2.decides.map fun d => ⟨line.1, d.1, d.2⟩

/-- The decision that a call asks for. -/
def decisionFor (g : Gateway) : GatewayCall → Option Decision
  | .resolve requestId _ decidedBy _ =>
      (requestOf g requestId).map fun p => ⟨p.call.agent, p.call.tool, some decidedBy⟩
  | .handleWithPolicy _ _ call _ => some ⟨call.agent, call.tool, none⟩
  | op => op.mediated.map fun m => ⟨m.call.agent, m.call.tool, none⟩

/-- The record of a line. -/
def record (line : AgentId × AuditLine) : Str × Str := (line.1.asStr, line.2.text)

/-- The texts that a line is made from. -/
def AuditLine.texts : AuditLine → List Str
  | unmanagedAgent agent => [agent.asStr]
  | unknownAgent agent => [agent.asStr]
  | delegatedBy orchestrator tool => [orchestrator.asStr, tool]
  | policyDenied tool room => [tool, room.asStr]
  | deniedByScope tool room => [tool, room.asStr]
  | rateLimited tool => [tool]
  | dailyBudgetExceeded tool => [tool]
  | tokenBudgetExceeded tool => [tool]
  | autoAllowed tool => [tool]
  | approvalRequested tool => [tool]
  | approvedBy decidedBy tool => [decidedBy, tool]
  | deniedBy decidedBy tool => [decidedBy, tool]
  | executed tool _ _ => [tool]

def ToolCall.texts (call : ToolCall) : List Str := [call.agent.asStr, call.tool, call.room.asStr]

/-- The texts of a call of the gateway that may be written to the log. -/
def GatewayCall.texts : GatewayCall → List Str
  | .handle _ call _ => call.texts
  | .handleManaged _ _ call _ => call.texts
  | .handleInRoom _ call _ => call.texts
  | .handleDelegated _ orchestrator call _ => orchestrator.asStr :: call.texts
  | .handleWithPolicy _ _ call _ => call.texts
  | .resolve _ _ decidedBy _ => [decidedBy]

/-- The texts that a call may write to the log: its own, and those of the request it settles. -/
def textsOf (g : Gateway) (op : GatewayCall) : List Str :=
  op.texts ++ match op with
    | .resolve requestId _ _ _ => ((requestOf g requestId).map fun p => p.call.texts).getD []
    | _ => []

/-- How a reply is audited: its lines go to the store in order, a reply that returns has the one
decision among them, and they are no more than a number and made from given texts. -/
structure Audits (env : GatewayEnv) (store : Store Bytes) (most : Nat) (texts : List Str)
    (d : Option Decision) (r : Reply) : Prop where
  written : r.gateway.store = appendAll env.digest store (r.audited.map record)
  decided : r.answer ≠ none → r.audited.filterMap decisionOf = d.toList
  few : r.audited.length ≤ most
  named : ∀ line ∈ r.audited, ∀ text ∈ line.1.asStr :: line.2.texts, text ∈ texts

section

variable {env : GatewayEnv} {g : Gateway} {op : GatewayCall} {m : Mediation} {texts : List Str}
  {d : Option Decision} {call : ToolCall} {executor : ToolExecutor} {agent : AgentId}
  {line : AuditLine} {store : Store Bytes}

/-! ## Lines of one call -/

theorem conclude_store (env : GatewayEnv) (g : Gateway) (audited : List (AgentId × AuditLine))
    (invoked : List (Gateway × ToolCall)) (outcome : Str) (answer : Except GatewayError Outcome) :
    (g.conclude env audited invoked outcome answer).gateway.store = g.store := by
  obtain ⟨metrics, h⟩ := conclude_gateway env g
  rw [h]

theorem audits_dismiss (outcome : Str) (answer : Except GatewayError Outcome)
    (hd : decisionOf (agent, line) = d) (htexts : ∀ text ∈ agent.asStr :: line.texts, text ∈ texts) :
    Audits env g.store 2 texts d (g.dismiss env agent line outcome answer) := by
  have haudited : (g.dismiss env agent line outcome answer).audited = [(agent, line)] :=
    conclude_audited
  constructor
  · rw [haudited]
    exact conclude_store env _ _ _ _ _
  · intro _
    rw [haudited, ← hd, List.filterMap_cons]
    cases decisionOf (agent, line) <;> rfl
  · rw [haudited]
    exact Nat.le_succ 1
  · rw [haudited]
    intro l hl
    rw [List.mem_singleton.mp hl]
    exact htexts

theorem audits_panicked (hstore : g.store = store) (invoked : List (Gateway × ToolCall)) :
    Audits env store 2 texts d (g.panicked [] invoked) :=
  ⟨hstore, fun h => absurd rfl h, Nat.zero_le _, fun _ h => absurd h List.not_mem_nil⟩

theorem execute_store (env : GatewayEnv) (g : Gateway) (call : ToolCall) (executor : ToolExecutor)
    (callId : Str) (audited : List (AgentId × AuditLine)) (event : ReflectedEvent) :
    (g.execute env call executor callId audited event).gateway.store =
      append env.digest g.store call.agent.asStr
        (AuditLine.executed call.tool (executor call).ok (executor call).tokens).text := by
  unfold execute
  simp only []
  split
  · rfl
  · exact conclude_store env _ _ _ _ _

/-- An execution after its decision was written adds the line about the execution. -/
theorem audits_execute (callId : Str) (event : ReflectedEvent)
    (hstore : g.store = append env.digest store call.agent.asStr line.text)
    (hd : decisionOf (call.agent, line) = d)
    (htexts : ∀ text ∈ call.agent.asStr :: line.texts, text ∈ texts) (htool : call.tool ∈ texts) :
    Audits env store 2 texts d (g.execute env call executor callId [(call.agent, line)] event) := by
  constructor
  · rw [execute_audited, execute_store, hstore]
    rfl
  · intro _
    rw [execute_audited, List.filterMap_append, ← hd]
    show [(call.agent, line)].filterMap decisionOf ++ [] = _
    rw [List.append_nil, List.filterMap_cons]
    cases decisionOf (call.agent, line) <;> rfl
  · rw [execute_audited]
    exact le_rfl
  · rw [execute_audited]
    intro l hl
    rcases List.mem_append.mp hl with hl | hl
    · rw [List.mem_singleton.mp hl]
      exact htexts
    · rw [List.mem_singleton.mp hl]
      intro text htext
      rcases List.mem_cons.mp htext with rfl | htext
      · exact htexts _ List.mem_cons_self
      · rw [List.mem_singleton.mp htext]
        exact htool

theorem audits_executeNow (hd : d = some ⟨call.agent, call.tool, none⟩) (htexts : call.texts ⊆ texts) :
    Audits env g.store 2 texts d (g.executeNow env call executor) := by
  have hagent : call.agent.asStr ∈ texts := htexts (by simp [ToolCall.texts])
  have htool : call.tool ∈ texts := htexts (by simp [ToolCall.texts])
  unfold executeNow
  cases hid : g.nextCallId env with
  | none => exact audits_panicked rfl []
  | some next =>
      obtain ⟨callId, g'⟩ := next
      obtain ⟨seq, -, -, rfl⟩ := nextCallId_eq_some hid
      apply audits_execute callId _ rfl
      · exact hd.symm
      · intro text htext
        rcases List.mem_cons.mp htext with rfl | htext
        · exact hagent
        · rw [List.mem_singleton.mp htext]
          exact htool
      · exact htool

theorem audits_queueForReview (hd : d = some ⟨call.agent, call.tool, none⟩)
    (htexts : call.texts ⊆ texts) : Audits env g.store 2 texts d (g.queueForReview env call) := by
  have hagent : call.agent.asStr ∈ texts := htexts (by simp [ToolCall.texts])
  have htool : call.tool ∈ texts := htexts (by simp [ToolCall.texts])
  unfold queueForReview
  cases hid : g.nextCallId env with
  | none => exact audits_panicked rfl []
  | some next =>
      obtain ⟨callId, g'⟩ := next
      obtain ⟨seq, -, -, rfl⟩ := nextCallId_eq_some hid
      simp only []
      split
      · apply audits_panicked
        rfl
      · constructor
        · rw [conclude_audited, conclude_store]
          rfl
        · intro _
          rw [conclude_audited, hd]
          rfl
        · rw [conclude_audited]
          exact Nat.le_succ 1
        · rw [conclude_audited]
          intro l hl
          rw [List.mem_singleton.mp hl]
          intro text htext
          rcases List.mem_cons.mp htext with rfl | htext
          · exact hagent
          · rw [List.mem_singleton.mp htext]
            exact htool

/-- What a budget refuses is written with the tool. -/
theorem line_of_checkBudgets {grant : CapabilityGrant} {refusal : Refusal}
    (h : (g.checkBudgets env grant call).1 = some refusal) :
    refusal.line.decides = some (call.tool, none) ∧ refusal.line.texts = [call.tool] := by
  unfold checkBudgets at h
  simp only [] at h
  split at h
  · obtain rfl := Option.some_inj.mp h
    exact ⟨rfl, rfl⟩
  · split at h
    · obtain rfl := Option.some_inj.mp h
      exact ⟨rfl, rfl⟩
    · split at h
      · obtain rfl := Option.some_inj.mp h
        exact ⟨rfl, rfl⟩
      · exact nomatch h

theorem audits_mediate (m : Mediation) (hd : d = some ⟨m.call.agent, m.call.tool, none⟩)
    (htexts : m.call.texts ⊆ texts) :
    Audits env g.store 2 texts d (g.mediate env m.grant m.call m.cls executor) := by
  unfold mediate
  split
  · apply audits_dismiss
    · exact hd.symm
    · exact htexts
  · obtain ⟨ticks, recentCalls, dailyUsage, hchecked⟩ := checkBudgets_eq env g m.grant m.call
    have hstore : (g.checkBudgets env m.grant m.call).2.store = g.store := by rw [hchecked]
    cases hcheck : (g.checkBudgets env m.grant m.call).1 with
    | some refusal =>
        have hpair : g.checkBudgets env m.grant m.call =
            (some refusal, (g.checkBudgets env m.grant m.call).2) := by rw [← hcheck]
        obtain ⟨hdecides, hline⟩ := line_of_checkBudgets hcheck
        rw [hpair, ← hstore]
        apply audits_dismiss
        · rw [decisionOf, hdecides, hd]
          rfl
        · rw [hline]
          exact fun text htext => htexts (by simp only [ToolCall.texts, List.mem_cons] at htext ⊢; tauto)
    | none =>
        have hpair : g.checkBudgets env m.grant m.call =
            (none, (g.checkBudgets env m.grant m.call).2) := by rw [← hcheck]
        obtain ⟨ticks', recentCalls', dailyUsage', hcounted⟩ := counted_eq env g m
        have hstore' : (g.counted env m).2.store = g.store := by rw [hcounted]
        rw [hpair]
        unfold takeCall
        show Audits env g.store 2 texts d (if (g.counted env m).1 then _ else _)
        rw [← hstore']
        split
        · split
          · exact audits_executeNow hd htexts
          · exact audits_queueForReview hd htexts
          · exact audits_panicked rfl []
        · exact audits_panicked rfl []

theorem subset_textsOf {texts : List Str} (h : texts ⊆ op.texts) : texts ⊆ textsOf g op :=
  fun _ ht => List.mem_append_left _ (h ht)

/-- A caller who is not on the roster is refused without a decision. -/
theorem audits_refuseUnknown (agent : AgentId) (hd : d = none) (hagent : agent.asStr ∈ texts) :
    Audits env g.store 2 texts d (g.refuseUnknown env agent) := by
  apply audits_dismiss
  · exact hd.symm
  · intro text htext
    rcases List.mem_cons.mp htext with rfl | htext
    · exact hagent
    · rw [List.mem_singleton.mp htext]
      exact hagent

/-- A line that is no decision may come first. -/
theorem Audits.cons (hd : decisionOf (agent, line) = none) (hagent : agent.asStr ∈ texts)
    (htexts : line.texts ⊆ texts) {r : Reply} {most : Nat}
    (h : Audits env (append env.digest store agent.asStr line.text) most texts d r) :
    Audits env store (most + 1) texts d { r with audited := (agent, line) :: r.audited } := by
  constructor
  · exact h.written
  · intro hanswer
    rw [List.filterMap_cons, hd]
    exact h.decided hanswer
  · exact Nat.succ_le_succ h.few
  · intro l hl
    rcases List.mem_cons.mp hl with rfl | hl
    · intro text htext
      rcases List.mem_cons.mp htext with rfl | htext
      · exact hagent
      · exact htexts htext
    · exact h.named l hl

theorem Audits.weaken {r : Reply} {most : Nat} (h : Audits env store most texts d r) :
    Audits env store (most + 1) texts d r :=
  ⟨h.written, h.decided, Nat.le_succ_of_le h.few, h.named⟩

/-- Each call of the gateway is audited with its decision. -/
theorem audits_perform (env : GatewayEnv) (g : Gateway) (op : GatewayCall) :
    Audits env g.store 3 (textsOf g op) (decisionFor g op) (perform env g op) := by
  cases op with
  | handle grant call executor =>
      apply Audits.weaken
      exact audits_mediate (.ofGrant call grant) rfl (subset_textsOf fun _ h => h)
  | handleManaged registration grant call executor =>
      have hagent : call.agent.asStr ∈ textsOf g (.handleManaged registration grant call executor) :=
        List.mem_append_left _ List.mem_cons_self
      show Audits env g.store 3 _ (Option.map _ (if registration.manages call.agent then _ else none))
        (g.handleManaged env registration grant call executor)
      rw [Gateway.handleManaged]
      apply Audits.weaken
      split
      · exact audits_mediate (.ofGrant call grant) rfl (subset_textsOf fun _ h => h)
      · apply audits_dismiss
        · rfl
        · exact List.forall_mem_cons.mpr ⟨hagent, List.forall_mem_singleton.mpr hagent⟩
  | handleInRoom roster call executor =>
      show Audits env g.store 3 _ (Option.map _ (Option.map _ (roster.grantFor call.agent)))
        (g.handleInRoom env roster call executor)
      rw [Gateway.handleInRoom]
      apply Audits.weaken
      cases roster.grantFor call.agent with
      | some grant => exact audits_mediate (.ofGrant call grant) rfl (subset_textsOf fun _ h => h)
      | none => exact audits_refuseUnknown call.agent rfl (List.mem_append_left _ List.mem_cons_self)
  | handleDelegated roster orchestrator call executor =>
      have htexts : call.texts ⊆ textsOf g (.handleDelegated roster orchestrator call executor) :=
        subset_textsOf fun _ h => List.mem_cons_of_mem _ h
      have horchestrator : orchestrator.asStr ∈
          textsOf g (.handleDelegated roster orchestrator call executor) :=
        List.mem_append_left _ List.mem_cons_self
      have hagent := htexts List.mem_cons_self
      have htool := htexts (List.mem_cons_of_mem _ List.mem_cons_self)
      show Audits env g.store 3 _
        (Option.map _ (if roster.contains orchestrator then Option.map _ (roster.grantFor call.agent)
          else none))
        (g.handleDelegated env roster orchestrator call executor)
      rw [Gateway.handleDelegated]
      cases roster.contains orchestrator with
      | false => exact (audits_refuseUnknown orchestrator rfl horchestrator).weaken
      | true =>
          cases roster.grantFor call.agent with
          | none => exact (audits_refuseUnknown call.agent rfl hagent).weaken
          | some grant =>
              -- the line about the delegation comes before the decision of the mediation
              apply Audits.cons rfl hagent
              · intro text htext
                rcases List.mem_cons.mp htext with rfl | htext
                · exact horchestrator
                · rw [List.mem_singleton.mp htext]
                  exact htool
              · exact audits_mediate (g := g.audit env call.agent (.delegatedBy orchestrator call.tool))
                  (.ofGrant call grant) rfl htexts
  | handleWithPolicy grant policy call executor =>
      show Audits env g.store 3 _ _ (g.handleWithPolicy env grant policy call executor)
      unfold Gateway.handleWithPolicy
      have hdecision : decisionFor g (.handleWithPolicy grant policy call executor) =
          some ⟨call.agent, call.tool, none⟩ := rfl
      apply Audits.weaken
      simp only []
      split
      · exact audits_mediate ⟨grant, call, .forbidden⟩ hdecision (subset_textsOf fun _ h => h)
      · split
        · apply audits_dismiss
          · exact hdecision.symm
          · exact subset_textsOf fun _ h => h
        · exact audits_mediate ⟨grant, call, refine _ _⟩ hdecision (subset_textsOf fun _ h => h)
  | resolve requestId approved decidedBy executor =>
      cases hp : requestOf g requestId with
      | none =>
          rw [perform_resolve_unknown hp]
          have hdecision : decisionFor g (.resolve requestId approved decidedBy executor) = none := by
            rw [decisionFor, hp]
            rfl
          rw [hdecision]
          exact ⟨rfl, fun _ => rfl, Nat.zero_le _, fun _ h => absurd h List.not_mem_nil⟩
      | some p =>
          have hdecision : decisionFor g (.resolve requestId approved decidedBy executor) =
              some ⟨p.call.agent, p.call.tool, some decidedBy⟩ := by
            rw [decisionFor, hp]
            rfl
          have htexts : textsOf g (.resolve requestId approved decidedBy executor) =
              decidedBy :: p.call.texts := by
            rw [textsOf, hp]
            rfl
          have hline : ∀ text ∈ [p.call.agent.asStr, decidedBy, p.call.tool],
              text ∈ decidedBy :: p.call.texts := by
            simp [ToolCall.texts]
          rw [htexts, hdecision]
          apply Audits.weaken
          cases approved with
          | true =>
              rw [perform_resolve_approved hp]
              apply audits_execute
              · rfl
              · rfl
              · exact hline
              · exact hline _ (by simp)
          | false =>
              rw [perform_resolve_denied hp]
              exact audits_dismiss (g := withoutRequest g requestId) _ _ rfl hline

end

/-! ## Lines of a run -/

/-- The lines that a run writes, in order. -/
def auditedOver (env : GatewayEnv) (store : Store Bytes) (ops : List GatewayCall) :
    List (AgentId × AuditLine) :=
  (gatewayTrace env store ops).flatMap fun x => (perform env x.1 x.2).audited

/-- The log shows every line of the run and verifies, and a call that returns has its one decision
among its lines. -/
def RunAudited (env : GatewayEnv) (store : Store Bytes) (ops : List GatewayCall) : Prop :=
  Complete env.digest (run (gatewayStep env) (withStore store) ops).store
    ((auditedOver env store ops).map record) ∧
  ∀ x ∈ gatewayTrace env store ops, (perform env x.1 x.2).answer ≠ none →
    (perform env x.1 x.2).audited.filterMap decisionOf = (decisionFor x.1 x.2).toList

section

variable {env : GatewayEnv} {store : Store Bytes} {ops : List GatewayCall} {op : GatewayCall}
  {m : Mediation}

theorem auditedOver_append (env : GatewayEnv) (store : Store Bytes) (ops : List GatewayCall)
    (op : GatewayCall) :
    auditedOver env store (ops ++ [op]) = auditedOver env store ops ++
      (perform env (run (gatewayStep env) (withStore store) ops) op).audited := by
  have htrace : gatewayTrace env store (ops ++ [op]) = gatewayTrace env store ops ++
      [(run (gatewayStep env) (withStore store) ops, op)] := trace_append _ _ _
  rw [auditedOver, htrace, List.flatMap_append, ← auditedOver, List.flatMap_singleton]

/-- The log of a run is what its lines, appended in order, give. -/
theorem store_run (env : GatewayEnv) (store : Store Bytes) (ops : List GatewayCall) :
    (run (gatewayStep env) (withStore store) ops).store =
      appendAll env.digest store ((auditedOver env store ops).map record) := by
  induction ops using List.reverseRecOn with
  | nil => rfl
  | append_singleton ops op ih =>
      have hstep := (audits_perform env (run (gatewayStep env) (withStore store) ops) op).written
      rw [ih] at hstep
      rw [run_append, run_cons, run_nil, auditedOver_append, List.map_append, appendAll,
        List.foldl_append]
      exact hstep

theorem length_auditedOver_le (env : GatewayEnv) (store : Store Bytes) (ops : List GatewayCall) :
    (auditedOver env store ops).length ≤ 3 * ops.length := by
  induction ops using List.reverseRecOn with
  | nil => exact le_rfl
  | append_singleton ops op ih =>
      have hstep := (audits_perform env (run (gatewayStep env) (withStore store) ops) op).few
      rw [auditedOver_append, List.length_append, List.length_append, List.length_singleton]
      omega

theorem sep_not_mem_append {s t : Str} (hs : sep ∉ s) (ht : sep ∉ t) : sep ∉ s ++ t := by
  rw [List.mem_append, not_or]
  exact ⟨hs, ht⟩

/-- The fixed parts of a line have no separator. -/
theorem sep_not_mem_text {line : AuditLine} (h : ∀ text ∈ line.texts, sep ∉ text) :
    sep ∉ line.text := by
  -- a fixed text, then one of the line's, or two with a fixed text between them
  have hone : ∀ (fixed : String) (text : Str), sep ∉ fixed.toList → text ∈ line.texts →
      sep ∉ fixed.toList ++ text :=
    fun fixed text hfixed htext => sep_not_mem_append hfixed (h text htext)
  have htwo : ∀ (first second : String) (text other : Str), sep ∉ first.toList →
      sep ∉ second.toList → text ∈ line.texts → other ∈ line.texts →
        sep ∉ first.toList ++ text ++ second.toList ++ other :=
    fun first second text other hfirst hsecond htext hother =>
      sep_not_mem_append (sep_not_mem_append (hone first text hfirst htext) hsecond) (h other hother)
  have hhead : ∀ (text : Str) (texts : List Str), text ∈ text :: texts :=
    fun _ _ => List.mem_cons_self
  have hnext : ∀ text other : Str, other ∈ [text, other] :=
    fun _ _ => List.mem_cons_of_mem _ List.mem_cons_self
  cases line with
  | unmanagedAgent agent => exact hone _ _ (by decide) (hhead _ _)
  | unknownAgent agent => exact hone _ _ (by decide) (hhead _ _)
  | delegatedBy orchestrator tool => exact htwo _ _ _ _ (by decide) (by decide) (hhead _ _) (hnext _ _)
  | policyDenied tool room => exact htwo _ _ _ _ (by decide) (by decide) (hhead _ _) (hnext _ _)
  | deniedByScope tool room => exact htwo _ _ _ _ (by decide) (by decide) (hhead _ _) (hnext _ _)
  | rateLimited tool => exact hone _ _ (by decide) (hhead _ _)
  | dailyBudgetExceeded tool => exact hone _ _ (by decide) (hhead _ _)
  | tokenBudgetExceeded tool => exact hone _ _ (by decide) (hhead _ _)
  | autoAllowed tool => exact hone _ _ (by decide) (hhead _ _)
  | approvalRequested tool => exact hone _ _ (by decide) (hhead _ _)
  | approvedBy decidedBy tool => exact htwo _ _ _ _ (by decide) (by decide) (hhead _ _) (hnext _ _)
  | deniedBy decidedBy tool => exact htwo _ _ _ _ (by decide) (by decide) (hhead _ _) (hnext _ _)
  | executed tool ok tokens =>
      have hok : sep ∉ (if ok then "true" else "false").toList := by cases ok <;> decide
      have htool := hone "executed: " tool (by decide) (hhead _ _)
      exact sep_not_mem_append (sep_not_mem_append (sep_not_mem_append (sep_not_mem_append htool
        (by decide)) hok) (by decide)) (sep_not_mem_decimal tokens.toNat)

theorem plainRecord_record {line : AgentId × AuditLine}
    (h : ∀ text ∈ line.1.asStr :: line.2.texts, sep ∉ text) : PlainRecord (record line) := by
  rw [List.forall_mem_cons] at h
  exact ⟨h.1, sep_not_mem_text h.2⟩

/-- What goes into mediation has the texts of the call. -/
theorem texts_of_mediated (hm : op.mediated = some m) : m.call.texts ⊆ op.texts := by
  cases op with
  | handle grant call executor =>
      obtain rfl := Option.some_inj.mp hm
      exact fun _ h => h
  | handleManaged registration grant call executor =>
      by_cases hmanaged : registration.manages call.agent = true
      · rw [GatewayCall.mediated, if_pos hmanaged] at hm
        obtain rfl := Option.some_inj.mp hm
        exact fun _ h => h
      · rw [GatewayCall.mediated, if_neg hmanaged] at hm
        cases hm
  | handleInRoom roster call executor =>
      obtain ⟨grant, -, rfl⟩ := Option.map_eq_some_iff.mp hm
      exact fun _ h => h
  | handleDelegated roster orchestrator call executor =>
      by_cases hknown : roster.contains orchestrator = true
      · rw [GatewayCall.mediated, if_pos hknown] at hm
        obtain ⟨grant, -, rfl⟩ := Option.map_eq_some_iff.mp hm
        exact fun _ h => List.mem_cons_of_mem _ h
      · rw [GatewayCall.mediated, if_neg hknown] at hm
        cases hm
  | handleWithPolicy grant policy call executor =>
      simp only [GatewayCall.mediated] at hm
      split at hm
      · cases hm
      · obtain rfl := Option.some_inj.mp hm
        exact fun _ h => h
  | resolve requestId approved decidedBy executor => cases hm

/-- A run of calls whose texts have no separator writes plain records. -/
theorem plainRecord_of_plain_calls (h : ∀ op ∈ ops, ∀ text ∈ op.texts, sep ∉ text)
    {line : AgentId × AuditLine} (hline : line ∈ auditedOver env store ops) :
    PlainRecord (record line) := by
  obtain ⟨x, hx, hline⟩ := List.mem_flatMap.mp hline
  obtain ⟨before, after, hops, hstate⟩ := exists_prefix_of_mem_trace hx
  apply plainRecord_record
  intro text htext
  have hnamed := (audits_perform env x.1 x.2).named line hline text htext
  rcases List.mem_append.mp hnamed with hown | hpending
  · exact h x.2 (mem_of_mem_trace hx) text hown
  · split at hpending
    · rename_i requestId approved decidedBy executor hop
      cases hp : requestOf x.1 requestId with
      | none =>
          rw [hp] at hpending
          exact absurd hpending List.not_mem_nil
      | some p =>
          rw [hp] at hpending
          have hmem := (requestOf_eq_some hp).1
          rw [hstate] at hmem
          -- the request was put there by an earlier call of the run, with its texts
          obtain ⟨y, hy, -, m, hm, hcall, -⟩ := putByReview_of_pending before hmem
          have hyops : y.2 ∈ ops := by
            rw [hops]
            exact List.mem_append_left _ (mem_of_mem_trace hy)
          apply h y.2 hyops text
          apply texts_of_mediated hm
          rw [hcall]
          exact hpending
    · exact absurd hpending List.not_mem_nil

end

/-- A log that starts empty shows the records that are appended, and that of a gateway the lines of its
run with the decision of each call, exactly when no separator is in them; so it does where the calls'
texts have none. -/
theorem audit_complete_iff (env : GatewayEnv) (store : Store Bytes)
    (hempty : store.scan .auditLog = []) :
    (∀ records : List (Str × Str), records.length < 2 ^ 64 →
      (Complete env.digest (appendAll env.digest store records) records ↔
        ∀ r ∈ records, PlainRecord r)) ∧
    ∀ ops : List GatewayCall, ops.length < 2 ^ 64 →
      (RunAudited env store ops ↔ ∀ line ∈ auditedOver env store ops, PlainRecord (record line)) ∧
      ((∀ op ∈ ops, ∀ text ∈ op.texts, sep ∉ text) → RunAudited env store ops) := by
  have hrun : ∀ ops : List GatewayCall, ops.length < 2 ^ 64 →
      (RunAudited env store ops ↔
        ∀ line ∈ auditedOver env store ops, PlainRecord (record line)) := by
    intro ops hlen
    have hlines := length_auditedOver_le env store ops
    have hlen : ((auditedOver env store ops).map record).length < 10 ^ 20 := by
      rw [List.length_map]
      omega
    rw [RunAudited, store_run, complete_appendAll_iff hempty hlen, List.forall_mem_map]
    exact and_iff_left fun x _ => (audits_perform env x.1 x.2).decided
  constructor
  · exact fun records hlen => complete_appendAll_iff hempty (by omega)
  · exact fun ops hlen => ⟨hrun ops hlen, fun h =>
      (hrun ops hlen).mpr fun line hline => plainRecord_of_plain_calls h hline⟩

open SampleGateway in
theorem audit_complete_empty :
    (Store.empty : Store Bytes).scan .auditLog = [] ∧
    (∀ records : List (Str × Str), records.length < 2 ^ 64 →
      (Complete env.digest (appendAll env.digest Store.empty records) records ↔
        ∀ r ∈ records, PlainRecord r)) ∧
    ∀ ops : List GatewayCall, ops.length < 2 ^ 64 →
      (RunAudited env Store.empty ops ↔
        ∀ line ∈ auditedOver env Store.empty ops, PlainRecord (record line)) ∧
      ((∀ op ∈ ops, ∀ text ∈ op.texts, sep ∉ text) → RunAudited env Store.empty ops) :=
  ⟨rfl, audit_complete_iff env Store.empty rfl⟩

open SampleGateway in
/-- A record with a separator in its event is not shown. -/
theorem record_with_separator_lost :
    ¬ ∀ (digest : Digest) (records : List (Str × Str)), records.length < 2 ^ 64 →
      Complete digest (appendAll digest Store.empty records) records := by
  intro h
  have hcomplete := h env.digest [("a", "x".toList ++ sep :: "y".toList)] (by simp)
  have hshown : shown (appendAll env.digest Store.empty [("a", "x".toList ++ sep :: "y".toList)]) = [] := by
    decide +kernel
  exact nomatch hshown.symm.trans hcomplete.1

end GaussMatrix.Agent
