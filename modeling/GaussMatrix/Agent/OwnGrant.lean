import GaussMatrix.Agent.Executions

/-!
# Whose grant a call is mediated under

On a roster each agent has its own grant.  The calls that are handed a grant do not compare its agent
with the caller, so another agent's call is stopped only by what would stop the grant's own.
-/

namespace GaussMatrix.Agent

open Library Util Audit Obs Gateway

/-- The grant that a call of the gateway is handed, and the tool call. -/
def GatewayCall.underGrant : GatewayCall → Option (CapabilityGrant × ToolCall)
  | .handle grant call _ => some (grant, call)
  | .handleManaged _ grant call _ => some (grant, call)
  | .handleWithPolicy grant _ call _ => some (grant, call)
  | _ => none

/-- The grant is the caller's own. -/
def OwnGrant (op : GatewayCall) : Prop :=
  ∀ grant call, op.underGrant = some (grant, call) → call.agent = grant.agent

/-- The call neither invokes the executor nor queues an approval. -/
def NoAct (env : GatewayEnv) (g : Gateway) (op : GatewayCall) : Prop :=
  (perform env g op).invoked = [] ∧ (perform env g op).gateway.pending = g.pending

/-- No agent acts under another agent's grant. -/
def KeepsToOwnGrant (env : GatewayEnv) (g : Gateway) (op : GatewayCall) : Prop :=
  ¬ OwnGrant op → NoAct env g op

/-- The calls of today that an admitted call adds one to. -/
def callsToday (env : GatewayEnv) (g : Gateway) (m : Mediation) : UInt32 :=
  (((g.checkBudgets env m.grant m.call).2.noteCall env m.call.agent.asStr).dailyEntry env
    m.call.agent.asStr).1.calls

/-- A build that checks overflow panics on one of the counters of an admitted call. -/
def Overflows (env : GatewayEnv) (g : Gateway) (m : Mediation) : Prop :=
  env.overflowChecks = true ∧ ((callsToday env g m).toNat + 1 = 2 ^ 32 ∨
    g.nextCallSeq.toNat + 1 = 2 ^ 64 ∨ (m.cls = .review ∧ g.nextRequestId.toNat + 1 = 2 ^ 64))

/-- The call does not get to mediation, or is refused by its class or a budget, or overflows. -/
def Stopped (env : GatewayEnv) (g : Gateway) (op : GatewayCall) : Prop :=
  ∀ m, op.mediated = some m →
    m.cls = .forbidden ∨ (g.checkBudgets env m.grant m.call).1 ≠ none ∨ Overflows env g m

section

variable {env : GatewayEnv} {g : Gateway} {op : GatewayCall} {m : Mediation}

theorem increment_eq_none_iff {n : UInt64} :
    increment env n = none ↔ env.overflowChecks = true ∧ n.toNat + 1 = 2 ^ 64 := by
  unfold increment
  split
  · exact iff_of_true rfl ‹_›
  · exact iff_of_false (by simp) ‹_›

theorem counted_eq_false_iff :
    (g.counted env m).1 = false ↔
      env.overflowChecks = true ∧ (callsToday env g m).toNat + 1 = 2 ^ 32 := by
  unfold counted noteDailyCall
  simp only []
  split
  · exact iff_of_true rfl ‹_›
  · exact iff_of_false (by simp) ‹_›

theorem overflows_iff : Overflows env g m ↔
    (g.counted env m).1 = false ∨ increment env g.nextCallSeq = none ∨
      (m.cls = .review ∧ increment env g.nextRequestId = none) := by
  rw [counted_eq_false_iff, increment_eq_none_iff, increment_eq_none_iff, Overflows]
  tauto

/-- What reaches mediation acts unless it is stopped. -/
theorem noAct_iff_of_mediated (hm : op.mediated = some m) :
    NoAct env g op ↔
      m.cls = .forbidden ∨ (g.checkBudgets env m.grant m.call).1 ≠ none ∨ Overflows env g m := by
  obtain ⟨ticks, recentCalls, dailyUsage, hcounted⟩ := counted_eq env g m
  rw [NoAct, overflows_iff]
  cases turn_perform env g hm with
  | refused g' store metrics hchecked hgateway hinvoked _ =>
      apply iff_of_true
      · refine ⟨hinvoked, ?_⟩
        rw [hgateway]
        rcases hchecked with ⟨-, rfl⟩ | ⟨-, -, rfl⟩
        · rfl
        · obtain ⟨ticks', recentCalls', dailyUsage', hcheck⟩ := checkBudgets_eq env g m.grant m.call
          rw [hcheck]
      · rcases hchecked with ⟨hcls, -⟩ | ⟨-, hrefused, -⟩
        · exact .inl hcls
        · exact .inr (.inl hrefused)
  | panicked store seq _ hoverflow _ hgateway hinvoked _ =>
      apply iff_of_true
      · refine ⟨hinvoked, ?_⟩
        rw [hgateway, hcounted]
      · exact .inr (.inr hoverflow)
  | executed store store' metrics seq tokens hpassed hok hseq _ hinvoked _ =>
      apply iff_of_false
      · intro hact
        exact absurd (hinvoked.symm.trans hact.1) (by simp)
      · simp [hpassed.1, hpassed.2, hok, hseq]
  | queued store metrics seq request hpassed hok hseq hrequest hgateway _ _ =>
      apply iff_of_false
      · intro hact
        have hpending := hact.2
        rw [hgateway] at hpending
        exact absurd hpending (by simp)
      · simp [hpassed.1, hpassed.2, hok, hseq, hrequest]

/-- A call in a room goes under the grant of its own agent. -/
theorem own_grant_of_roster (hm : op.mediated = some m) (hroster : op.underGrant = none) :
    m.grant.agent = m.call.agent := by
  cases op with
  | handleInRoom roster call executor =>
      obtain ⟨grant, hgrant, rfl⟩ := Option.map_eq_some_iff.mp hm
      exact AgentRoster.agent_of_grantFor hgrant
  | handleDelegated roster orchestrator call executor =>
      by_cases hknown : roster.contains orchestrator = true
      · rw [GatewayCall.mediated, if_pos hknown] at hm
        obtain ⟨grant, hgrant, rfl⟩ := Option.map_eq_some_iff.mp hm
        exact AgentRoster.agent_of_grantFor hgrant
      · rw [GatewayCall.mediated, if_neg hknown] at hm
        exact absurd hm (by simp)
  | resolve requestId approved decidedBy executor => exact absurd hm (by simp [GatewayCall.mediated])
  | _ => exact absurd hroster (by simp [GatewayCall.underGrant])

end

/-- A call under another agent's grant does nothing exactly when it is stopped as the grant's own
calls are. -/
theorem keepsToOwnGrant_iff (env : GatewayEnv) (g : Gateway) (op : GatewayCall) :
    KeepsToOwnGrant env g op ↔ OwnGrant op ∨ Stopped env g op := by
  have hnoAct : ¬ OwnGrant op → (NoAct env g op ↔ Stopped env g op) := by
    intro hforeign
    cases course env g op with
    | turn m hm hturn =>
        rw [noAct_iff_of_mediated hm, Stopped, hm]
        simp
    | dismissed agent line outcome answer hm _ hperform =>
        apply iff_of_true
        · obtain ⟨store, metrics, hgateway⟩ := dismiss_gateway env g agent line outcome answer
          rw [NoAct, hperform, dismiss_invoked, hgateway]
          exact ⟨rfl, rfl⟩
        · intro m hm'
          exact absurd (hm.symm.trans hm') (by simp)
    | unknown requestId approved decidedBy executor hop _ _ =>
        exact absurd (fun grant call h => by rw [hop] at h; exact nomatch h) hforeign
    | settled requestId approved decidedBy executor p hop _ _ _ _ =>
        exact absurd (fun grant call h => by rw [hop] at h; exact nomatch h) hforeign
  constructor
  · intro h
    by_cases hown : OwnGrant op
    · exact .inl hown
    · exact .inr ((hnoAct hown).mp (h hown))
  · intro h hforeign
    rcases h with hown | hstopped
    · exact absurd hown hforeign
    · exact (hnoAct hforeign).mpr hstopped

open SampleGateway in
/-- A stranger's call is executed under the worker's grant. -/
theorem executed_under_another_grant :
    ¬ KeepsToOwnGrant env (withStore Store.empty)
      (.handle (grant .auto) (call stranger) executor) := by
  intro h
  have hforeign : ¬ OwnGrant (.handle (grant .auto) (call stranger) executor) := by
    intro hown
    exact absurd (hown _ _ rfl) (by decide)
  have hinvoked := (h hforeign).1
  have hlength : ((perform env (withStore Store.empty)
      (.handle (grant .auto) (call stranger) executor)).invoked).length = 1 := by decide +kernel
  rw [hinvoked] at hlength
  exact absurd hlength (by decide)

end GaussMatrix.Agent
