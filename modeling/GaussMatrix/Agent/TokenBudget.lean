import GaussMatrix.Agent.OwnGrant

/-!
# The daily token budget

A call that executes at once passes the check of the tokens just before.  A call that was queued passed
it when it was queued, and its approval does not check again.
-/

namespace GaussMatrix.Agent

open Library Util Audit Obs Gateway

/-- The clock does not go back. -/
def NondecreasingClock (env : GatewayEnv) : Prop := ∀ i j, i ≤ j → env.clock i ≤ env.clock j

/-- The tokens recorded for an agent on a day. -/
def tokensOn (g : Gateway) (agent : Str) (day : UInt64) : UInt64 :=
  match g.dailyUsage.get agent with
  | some usage => if usage.day = day then usage.tokens else 0
  | none => 0

/-- A day that the clock may show between the last reading and the next. -/
def CurrentDay (env : GatewayEnv) (g : Gateway) (day : UInt64) : Prop :=
  (∀ i < g.ticks, env.clock i / secsPerDay ≤ day) ∧ day ≤ env.clock g.ticks / secsPerDay

/-- The agent's tokens of the current day are below the budget. -/
def WithinTokenBudget (env : GatewayEnv) (agent : AgentId) (budget : UInt64) (g : Gateway) : Prop :=
  ∀ day, CurrentDay env g day → tokensOn g agent.asStr day < budget

/-- No execution of a call of the agent starts with its budget used up. -/
def StartsWithinBudget (env : GatewayEnv) (agent : AgentId) (budget : UInt64) (g : Gateway)
    (op : GatewayCall) : Prop :=
  ∀ y ∈ (perform env g op).invoked, y.2.agent = agent → WithinTokenBudget env agent budget y.1

/-- A request of the agent is approved only while its budget is not used up. -/
def ApprovesWithinBudget (env : GatewayEnv) (agent : AgentId) (budget : UInt64) (g : Gateway)
    (op : GatewayCall) : Prop :=
  ∀ requestId decidedBy executor p, op = .resolve requestId true decidedBy executor →
    requestOf g requestId = some p → p.call.agent = agent → WithinTokenBudget env agent budget g

section

variable {env : GatewayEnv} {g : Gateway} {op : GatewayCall} {m : Mediation} {agent : AgentId}
  {budget : UInt64}

/-- What is below the budget stays so as the day of the entry rolls over. -/
theorem dailyEntry_tokens_lt (env : GatewayEnv) (hbudget : 0 < budget) {name : Str}
    (h : ∀ usage, g.dailyUsage.get name = some usage → usage.tokens < budget) :
    (g.dailyEntry env name).1.tokens < budget := by
  rcases dailyEntry_cases env g name with ⟨hget, -⟩ | hnew
  · exact h _ hget
  · rw [hnew]
    exact hbudget

/-- A call that passes the checks leaves an entry with fewer tokens than the budget. -/
theorem tokens_lt_of_checkBudgets (hbudget : 0 < m.grant.dailyTokenBudget)
    (h : (g.checkBudgets env m.grant m.call).1 = none) {usage : Usage}
    (hget : (g.checkBudgets env m.grant m.call).2.dailyUsage.get m.call.agent.asStr = some usage) :
    usage.tokens < m.grant.dailyTokenBudget := by
  obtain ⟨-, -, htoken, hgateway⟩ := of_checkBudgets_none h
  rw [hgateway] at hget
  have hlimited : m.grant.dailyTokenBudget ≠ 0 := fun h => absurd hbudget (by simp [h])
  unfold isOverTokenBudget at htoken hget
  rw [if_neg hlimited] at htoken hget
  simp only [dailyEntry_eq, SortedMap.get_insert_self, Option.some_inj, decide_eq_false_iff_not] at htoken hget
  rw [← hget]
  exact UInt64.not_le.mp htoken

/-- A call that executes at once starts below its budget. -/
theorem tokensOn_counted_lt (hbudget : 0 < m.grant.dailyTokenBudget)
    (h : (g.checkBudgets env m.grant m.call).1 = none) (day : UInt64) :
    tokensOn (g.counted env m).2 m.call.agent.asStr day < m.grant.dailyTokenBudget := by
  have hbefore : ∀ usage, ((g.checkBudgets env m.grant m.call).2.noteCall env
      m.call.agent.asStr).dailyUsage.get m.call.agent.asStr = some usage →
        usage.tokens < m.grant.dailyTokenBudget :=
    fun usage hget => tokens_lt_of_checkBudgets hbudget h hget
  have hentry := dailyEntry_tokens_lt env hbudget hbefore
  have hget : ∃ calls, (g.counted env m).2.dailyUsage.get m.call.agent.asStr = some
      { (((g.checkBudgets env m.grant m.call).2.noteCall env m.call.agent.asStr).dailyEntry env
        m.call.agent.asStr).1 with calls } := by
    unfold counted noteDailyCall
    simp only [dailyEntry_eq]
    split
    · exact ⟨_, SortedMap.get_insert_self _ _ _⟩
    · exact ⟨_, SortedMap.get_insert_self _ _ _⟩
  obtain ⟨calls, hget⟩ := hget
  rw [tokensOn, hget]
  simp only []
  split
  · exact hentry
  · exact hbudget

/-- A call starts an execution within the budget unless it approves one beyond it. -/
theorem startsWithinBudget_iff (hbudget : 0 < budget)
    (hgrant : ∀ m, op.mediated = some m → m.call.agent = agent → m.grant.dailyTokenBudget = budget) :
    StartsWithinBudget env agent budget g op ↔ ApprovesWithinBudget env agent budget g op := by
  rw [StartsWithinBudget]
  cases course env g op with
  | turn m hm hturn =>
      -- a mediated call is checked before it starts
      apply iff_of_true
      · intro y hy hagent day _
        cases hturn with
        | executed store store' metrics seq tokens hpassed hcounted hseq hgateway hinvoked _ =>
            rw [hinvoked, List.mem_singleton] at hy
            rw [hy] at hagent ⊢
            have heq := hgrant m hm hagent
            rw [← heq] at hbudget ⊢
            rw [← hagent]
            exact tokensOn_counted_lt hbudget hpassed.2 day
        | refused _ _ _ _ _ hinvoked _ =>
            rw [hinvoked] at hy
            exact absurd hy List.not_mem_nil
        | panicked _ _ _ _ _ _ hinvoked _ =>
            rw [hinvoked] at hy
            exact absurd hy List.not_mem_nil
        | queued _ _ _ _ _ _ _ _ _ hinvoked _ =>
            rw [hinvoked] at hy
            exact absurd hy List.not_mem_nil
      · intro requestId decidedBy executor p hop
        rw [hop] at hm
        exact nomatch hm
  | dismissed agent' line outcome answer _ hop hperform =>
      apply iff_of_true
      · rw [hperform, dismiss_invoked]
        simp
      · intro requestId decidedBy executor p hresolve
        exact absurd hresolve (hop requestId true decidedBy executor)
  | unknown requestId approved decidedBy executor hop hnone hperform =>
      apply iff_of_true
      · rw [hperform]
        simp
      · intro requestId' decidedBy' executor' p hop' hp
        obtain ⟨rfl, -⟩ := GatewayCall.resolve.inj (hop.symm.trans hop')
        exact nomatch hnone.symm.trans hp
  | settled requestId approved decidedBy executor p hop hp _ hinvoked _ =>
      -- an approval is not checked again, so the budget has to hold when it comes
      obtain ⟨store, hinvoked⟩ := hinvoked
      cases approved with
      | false =>
          apply iff_of_true
          · rw [hinvoked]
            simp
          · intro requestId' decidedBy' executor' p hop'
            obtain ⟨-, hfalse, -⟩ := GatewayCall.resolve.inj (hop.symm.trans hop')
            exact nomatch hfalse
      | true =>
          rw [hinvoked]
          constructor
          · intro h requestId' decidedBy' executor' p' hop' hp' hagent
            obtain ⟨rfl, -⟩ := GatewayCall.resolve.inj (hop.symm.trans hop')
            obtain rfl := Option.some_inj.mp (hp.symm.trans hp')
            exact h _ (List.mem_singleton_self _) hagent
          · intro h y hy hagent
            rw [if_pos rfl, List.mem_singleton] at hy
            rw [hy] at hagent ⊢
            exact h requestId decidedBy executor p hop hp hagent

end

/-- The executions of an agent's calls start below its budget exactly when its requests are approved
below it. -/
theorem tokenCeiling_iff (env : GatewayEnv) (store : Store Bytes) (ops : List GatewayCall)
    (agent : AgentId) (budget : UInt64) (hbudget : 0 < budget)
    (hgrants : ∀ op ∈ ops, ∀ m, op.mediated = some m → m.call.agent = agent →
      m.grant.dailyTokenBudget = budget) :
    (∀ x ∈ gatewayTrace env store ops, StartsWithinBudget env agent budget x.1 x.2) ↔
      ∀ x ∈ gatewayTrace env store ops, ApprovesWithinBudget env agent budget x.1 x.2 := by
  have hstep : ∀ x ∈ gatewayTrace env store ops, (StartsWithinBudget env agent budget x.1 x.2 ↔
      ApprovesWithinBudget env agent budget x.1 x.2) :=
    fun x hx => startsWithinBudget_iff hbudget (hgrants x.2 (mem_of_mem_trace hx))
  constructor
  · exact fun h x hx => (hstep x hx).mp (h x hx)
  · exact fun h x hx => (hstep x hx).mpr (h x hx)

open SampleGateway in
theorem tokenCeiling_approvedRun :
    (∀ x ∈ gatewayTrace env Store.empty approvedRun, StartsWithinBudget env worker 10 x.1 x.2) ↔
      ∀ x ∈ gatewayTrace env Store.empty approvedRun, ApprovesWithinBudget env worker 10 x.1 x.2 := by
  apply tokenCeiling_iff env Store.empty approvedRun worker 10 (by decide)
  intro op hop m hm _
  rw [approvedRun, List.mem_cons, List.mem_singleton] at hop
  rcases hop with rfl | rfl
  · obtain rfl := Option.some_inj.mp hm
    rfl
  · exact nomatch hm

namespace SampleGateway

/-- A call is queued, the budget is used up by another call, and the first call is approved. -/
def lateApproval : List GatewayCall :=
  [.handle (grant .review) (call worker) executor, .handle (grant .auto) (call worker) executor,
    .resolve 0 true "human" executor]

end SampleGateway

open SampleGateway in
/-- An approved call starts though the budget of the day is used up. -/
theorem approved_over_budget :
    ¬ ∀ (env : GatewayEnv) (store : Store Bytes) (ops : List GatewayCall) (agent : AgentId)
      (budget : UInt64), NondecreasingClock env → 0 < budget →
        (∀ op ∈ ops, ∀ m, op.mediated = some m → m.call.agent = agent →
          m.grant.dailyTokenBudget = budget) →
        ∀ x ∈ gatewayTrace env store ops, StartsWithinBudget env agent budget x.1 x.2 := by
  intro h
  have hgrants : ∀ op ∈ lateApproval, ∀ m, op.mediated = some m → m.call.agent = worker →
      m.grant.dailyTokenBudget = 10 := by
    intro op hop m hm _
    rw [lateApproval, List.mem_cons, List.mem_cons, List.mem_singleton] at hop
    rcases hop with rfl | rfl | rfl
    · obtain rfl := Option.some_inj.mp hm
      rfl
    · obtain rfl := Option.some_inj.mp hm
      rfl
    · exact nomatch hm
  have hrun := h env Store.empty lateApproval worker 10 (fun _ _ _ => UInt64.le_refl _) (by decide) hgrants
  -- the approval is the third step
  have hlast : (run (gatewayStep env) (withStore Store.empty) (lateApproval.take 2),
      GatewayCall.resolve 0 true "human" executor) ∈ gatewayTrace env Store.empty lateApproval :=
    List.mem_of_getElem? (i := 2) rfl
  have hinvoked : ∃ y ∈ (perform env (run (gatewayStep env) (withStore Store.empty)
      (lateApproval.take 2)) (.resolve 0 true "human" executor)).invoked,
        y.2.agent = worker ∧ ¬ tokensOn y.1 worker.asStr 0 < 10 := by
    decide +kernel
  obtain ⟨y, hy, hagent, htokens⟩ := hinvoked
  apply htokens
  apply hrun _ hlast y hy hagent 0
  constructor
  · intro i _
    show (1000 / 86400 : UInt64) ≤ 0
    decide
  · show (0 : UInt64) ≤ 1000 / 86400
    decide

end GaussMatrix.Agent
