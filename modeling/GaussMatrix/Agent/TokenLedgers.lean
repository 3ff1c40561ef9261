import GaussMatrix.Agent.Replay

/-!
# The three ledgers of tokens

The tokens of an execution go to the agent's usage of the day, to a counter and to the log.  The first
stops at the largest number, and the other two are plain sums.
-/

namespace GaussMatrix.Agent

open Library Util Audit Obs Gateway

/-- The counter of an outcome. -/
def outcomesCounted (g : Gateway) (outcome : Str) : UInt64 :=
  g.metrics.counter "gm_agent_actions_total" [("outcome".toList, outcome)]

/-- The counter of an agent's tokens. -/
def tokensCounted (g : Gateway) (agent : Str) : UInt64 :=
  g.metrics.counter "gm_agent_tokens_total" [("agent".toList, agent)]

/-- The agent whose call it is: the one mediated, or the one of the request that is decided. -/
def agentOf (g : Gateway) (op : GatewayCall) : Option AgentId :=
  match op with
  | .resolve requestId _ _ _ => (requestOf g requestId).map fun p => p.call.agent
  | op => op.mediated.map fun m => m.call.agent

/-- The day that the clock shows at a reading. -/
def dayOf (env : GatewayEnv) (i : Nat) : UInt64 := env.clock i / secsPerDay

/-- Whenever the clock is read for a call of the agent it shows the day. -/
def CallsOn (env : GatewayEnv) (store : Store Bytes) (ops : List GatewayCall) (agent : AgentId)
    (day : UInt64) : Prop :=
  ∀ x ∈ gatewayTrace env store ops, agentOf x.1 x.2 = some agent →
    ∀ i, x.1.ticks ≤ i → i < (gatewayStep env x.1 x.2).ticks → dayOf env i = day

/-- Some arithmetic of the call overflows: a build that checks it panics. -/
def PanicsIfChecked (env : GatewayEnv) (g : Gateway) (op : GatewayCall) : Prop :=
  (perform { env with overflowChecks := true } g op).answer = none

/-- The daily calls of an agent without a limit can be counted. -/
def CallsFit (g : Gateway) (op : GatewayCall) : Prop :=
  ∀ m, op.mediated = some m → m.grant.dailyCallLimit = 0 →
    ∀ usage, g.dailyUsage.get m.call.agent.asStr = some usage → usage.calls.toNat + 1 < 2 ^ 32

/-- The tokens of the agent's executions in a run. -/
def tokensReported (env : GatewayEnv) (store : Store Bytes) (ops : List GatewayCall)
    (agent : AgentId) : Nat :=
  ((executionsOf env store ops agent).map fun e => e.2.toNat).sum

/-- The ledgers agree after a run: no call overflows, and for each agent the replayed total is what its
counter shows, and what its usage shows where its calls fall on one day. -/
structure LedgersAgree (env : GatewayEnv) (store : Store Bytes) (ops : List GatewayCall) : Prop where
  calls : ∀ x ∈ gatewayTrace env store ops, ¬ PanicsIfChecked env x.1 x.2
  replayed : ∀ agent : AgentId,
    let g := run (gatewayStep env) (withStore store) ops
    (replaySession env.digest g.store agent.asStr).totalTokens true =
      some (tokensCounted g agent.asStr)
  daily : ∀ (agent : AgentId) (day : UInt64), CallsOn env store ops agent day →
    let g := run (gatewayStep env) (withStore store) ops
    tokensOn g agent.asStr day = tokensCounted g agent.asStr

section

variable {env : GatewayEnv} {g g' g'' : Gateway} {op : GatewayCall} {name : Str} {day : UInt64}
  {total : Nat}

/-! ## The usage of a day -/

/-- What the usage of an agent shows who has spent an amount on one day. -/
def Spent (g : Gateway) (name : Str) (day : UInt64) (total : Nat) : Prop :=
  match g.dailyUsage.get name with
  | none => total = 0
  | some usage => usage.day = day ∧ usage.tokens.toNat = total

theorem spent_iff : Spent g name day total ↔ (g.dailyUsage.get name = none ∧ total = 0) ∨
    ∃ usage, g.dailyUsage.get name = some usage ∧ usage.day = day ∧ usage.tokens.toNat = total := by
  unfold Spent
  cases g.dailyUsage.get name with
  | none => simp
  | some usage => simp

theorem Spent.tokensOn (h : Spent g name day total) : (tokensOn g name day).toNat = total := by
  rw [Agent.tokensOn]
  rcases spent_iff.mp h with ⟨hget, htotal⟩ | ⟨usage, hget, hday, htokens⟩
  · rw [hget, htotal]
    rfl
  · rw [hget]
    simp only [if_pos hday]
    exact htokens

/-- The entry of today has what was spent. -/
theorem Spent.dailyEntry (env : GatewayEnv) (h : Spent g name day total) (hday : dayOf env g.ticks = day) :
    (g.dailyEntry env name).1.day = day ∧ (g.dailyEntry env name).1.tokens.toNat = total := by
  rcases spent_iff.mp h with ⟨hget, htotal⟩ | ⟨usage, hget, husage, htokens⟩
  · rcases dailyEntry_cases env g name with ⟨hkept, -⟩ | hnew
    · exact nomatch hget.symm.trans hkept
    · rw [hnew, htotal]
      exact ⟨hday, rfl⟩
  · rw [dailyEntry_of_today hget (husage.trans hday.symm)]
    exact ⟨husage, htokens⟩

theorem spent_insert {usage : Usage} (hday : usage.day = day) (htokens : usage.tokens.toNat = total)
    (hget : g.dailyUsage.get name = some usage) : Spent g name day total :=
  spent_iff.mpr (.inr ⟨usage, hget, hday, htokens⟩)

/-- From one gateway to the other no tokens are booked: the metrics are as they were, and what an agent
has spent on one day stays as long as the clock shows this day when it is read for the agent. -/
structure Prepares (env : GatewayEnv) (name : Str) (g g' : Gateway) : Prop where
  metrics : g'.metrics = g.metrics
  ticks : g.ticks ≤ g'.ticks
  spent : ∀ other day total, Spent g other day total →
    (name = other → ∀ i, g.ticks ≤ i → i < g'.ticks → dayOf env i = day) → Spent g' other day total

theorem Prepares.refl (env : GatewayEnv) (name : Str) (g : Gateway) : Prepares env name g g :=
  ⟨rfl, le_rfl, fun _ _ _ h _ => h⟩

theorem Prepares.trans (h : Prepares env name g g') (h' : Prepares env name g' g'') :
    Prepares env name g g'' := by
  constructor
  · rw [h'.metrics, h.metrics]
  · exact h.ticks.trans h'.ticks
  · intro other day total hspent hdays
    apply h'.spent
    · apply h.spent _ _ _ hspent
      intro hname i hfrom hto
      exact hdays hname i hfrom (hto.trans_le h'.ticks)
    · intro hname i hfrom hto
      exact hdays hname i (h.ticks.trans hfrom) hto

/-- Only the usage of the agent is written, with an entry that has the day and the tokens of today's. -/
theorem prepares_insert {usage : Usage} (hmetrics : g'.metrics = g.metrics)
    (hticks : g'.ticks = g.ticks + 1) (hget : g'.dailyUsage.get name = some usage)
    (hothers : ∀ other, other ≠ name → g'.dailyUsage.get other = g.dailyUsage.get other)
    (hday : usage.day = (g.dailyEntry env name).1.day)
    (htokens : usage.tokens = (g.dailyEntry env name).1.tokens) : Prepares env name g g' := by
  constructor
  · exact hmetrics
  · omega
  · intro other day total hspent hdays
    by_cases hname : name = other
    · rw [← hname] at hspent ⊢
      obtain ⟨hentry, hentryTokens⟩ :=
        hspent.dailyEntry env (hdays hname g.ticks le_rfl (by omega))
      exact spent_insert (hday.trans hentry) (by rw [htokens, hentryTokens]) hget
    · rw [Spent, hothers other (Ne.symm hname)]
      exact hspent

theorem prepares_dailyEntry (env : GatewayEnv) (name : Str) (g : Gateway) :
    Prepares env name g (g.dailyEntry env name).2 := by
  apply prepares_insert
  · rfl
  · rfl
  · exact SortedMap.get_insert_self _ _ _
  · exact fun other hne => SortedMap.get_insert_ne _ hne _
  · rfl
  · rfl

theorem prepares_isRateLimited (limit : UInt32) :
    Prepares env name g (g.isRateLimited env name limit).2 := by
  unfold isRateLimited
  split
  · exact Prepares.refl env name g
  · exact ⟨rfl, Nat.le_succ _, fun _ _ _ h _ => h⟩

theorem prepares_isOverDailyBudget (limit : UInt32) :
    Prepares env name g (g.isOverDailyBudget env name limit).2 := by
  unfold isOverDailyBudget
  split
  · exact Prepares.refl env name g
  · exact prepares_dailyEntry env name g

theorem prepares_isOverTokenBudget (budget : UInt64) :
    Prepares env name g (g.isOverTokenBudget env name budget).2 := by
  unfold isOverTokenBudget
  split
  · exact Prepares.refl env name g
  · exact prepares_dailyEntry env name g

theorem prepares_noteDailyCall (env : GatewayEnv) (name : Str) (g : Gateway) :
    Prepares env name g (g.noteDailyCall env name).2 := by
  unfold noteDailyCall
  simp only []
  split
  · exact prepares_dailyEntry env name g
  · apply prepares_insert
    · rfl
    · rfl
    · exact SortedMap.get_insert_self _ _ _
    · intro other hne
      show ((g.dailyUsage.insert name _).insert name _).get other = _
      rw [SortedMap.get_insert_ne _ hne, SortedMap.get_insert_ne _ hne]
    · rfl
    · rfl

theorem prepares_checkBudgets (g : Gateway) (grant : CapabilityGrant) (call : ToolCall) :
    Prepares env call.agent.asStr g (g.checkBudgets env grant call).2 := by
  apply checkBudgets_of_checks
  · exact fun g' limit h => h.trans (prepares_isRateLimited limit)
  · exact fun g' limit h => h.trans (prepares_isOverDailyBudget limit)
  · exact fun g' budget h => h.trans (prepares_isOverTokenBudget budget)
  · exact Prepares.refl env _ g

theorem prepares_counted (env : GatewayEnv) (g : Gateway) (m : Mediation) :
    Prepares env m.call.agent.asStr g (g.counted env m).2 := by
  have hnote : ∀ g : Gateway, Prepares env m.call.agent.asStr g
      (g.noteCall env m.call.agent.asStr) :=
    fun g => ⟨rfl, Nat.le_succ _, fun _ _ _ h _ => h⟩
  exact ((prepares_checkBudgets g m.grant m.call).trans (hnote _)).trans
    (prepares_noteDailyCall env _ _)

/-! ## Counters with room -/

/-- An entry that starts over counts no calls, and one that is kept as many as before. -/
theorem calls_dailyEntry (h : ∀ usage, g.dailyUsage.get name = some usage →
      usage.calls.toNat + 1 < 2 ^ 32) : (g.dailyEntry env name).1.calls.toNat + 1 < 2 ^ 32 := by
  rcases dailyEntry_cases env g name with ⟨hkept, -⟩ | hnew
  · exact h _ hkept
  · rw [hnew]
    exact (by decide : (0 : UInt32).toNat + 1 < 2 ^ 32)

/-- A call that passes the checks is counted: the limit leaves room for it, or without one the count
of the day does. -/
theorem callsToday_lt {m : Mediation} (hpassed : (g.checkBudgets env m.grant m.call).1 = none)
    (hfit : m.grant.dailyCallLimit = 0 → ∀ usage,
      g.dailyUsage.get m.call.agent.asStr = some usage → usage.calls.toNat + 1 < 2 ^ 32) :
    (callsToday env g m).toNat + 1 < 2 ^ 32 := by
  apply calls_dailyEntry
  by_cases hlimit : m.grant.dailyCallLimit = 0
  · have hentry : ∀ g' : Gateway, (∀ usage, g'.dailyUsage.get m.call.agent.asStr = some usage →
        usage.calls.toNat + 1 < 2 ^ 32) → ∀ usage,
          (g'.dailyEntry env m.call.agent.asStr).2.dailyUsage.get m.call.agent.asStr = some usage →
            usage.calls.toNat + 1 < 2 ^ 32 := by
      intro g' hg' usage hget
      rw [dailyEntry_eq, SortedMap.get_insert_self] at hget
      rw [← Option.some_inj.mp hget]
      exact calls_dailyEntry hg'
    apply checkBudgets_of_checks (P := fun g' => ∀ usage,
      g'.dailyUsage.get m.call.agent.asStr = some usage → usage.calls.toNat + 1 < 2 ^ 32)
    · intro g' limit hg'
      unfold isRateLimited
      split <;> exact hg'
    · intro g' limit hg'
      unfold isOverDailyBudget
      split
      · exact hg'
      · exact hentry g' hg'
    · intro g' budget hg'
      unfold isOverTokenBudget
      split
      · exact hg'
      · exact hentry g' hg'
    · exact hfit hlimit
  · intro usage hget
    have hpos : 0 < m.grant.dailyCallLimit := UInt32.pos_iff_ne_zero.mpr hlimit
    have hlt := UInt32.lt_iff_toNat_lt.mp (calls_lt_of_checkBudgets hpos hpassed hget)
    have hmax := m.grant.dailyCallLimit.toNat_lt
    omega

/-- The counters of a gateway have room for one more call. -/
structure HasRoom (g : Gateway) : Prop where
  request : g.nextRequestId.toNat + 1 < 2 ^ 64
  seq : g.nextCallSeq.toNat + 1 < 2 ^ 64
  outcomes : ∀ outcome, (outcomesCounted g outcome).toNat + 1 < 2 ^ 64

theorem increment_of_lt {n : UInt64} (h : n.toNat + 1 < 2 ^ 64) : increment env n = some (n + 1) := by
  have hfits : ¬ (env.overflowChecks = true ∧ n.toNat + 1 = 2 ^ 64) := fun hmax => by omega
  exact if_neg hfits

/-! ## What a call books -/

/-- The tokens that an executor reports for the agent's calls that it was given. -/
def tokensSpent (executor : ToolExecutor) (agent : Str) (invoked : List (Gateway × ToolCall)) : Nat :=
  ((invoked.filter fun c => c.2.agent.asStr = agent).map fun c => (executor c.2).tokens.toNat).sum

/-- A call books what its executor reports: it returns, counts an outcome at most, and adds the tokens
to the counter and to the usage of the day. -/
structure Books (env : GatewayEnv) (name : Str) (executor : ToolExecutor) (g : Gateway) (r : Reply) :
    Prop where
  returns : r.answer ≠ none
  outcomes : ∀ outcome,
    (outcomesCounted r.gateway outcome).toNat ≤ (outcomesCounted g outcome).toNat + 1
  counter : ∀ agent, (tokensCounted r.gateway agent).toNat =
    (tokensCounted g agent).toNat + tokensSpent executor agent r.invoked
  ticks : g.ticks ≤ r.gateway.ticks
  spent : ∀ agent day total, Spent g agent day total →
    (name = agent → ∀ i, g.ticks ≤ i → i < r.gateway.ticks → dayOf env i = day) →
      total + tokensSpent executor agent r.invoked < 2 ^ 64 →
        Spent r.gateway agent day (total + tokensSpent executor agent r.invoked)

variable {executor : ToolExecutor} {r : Reply} {call : ToolCall}
  {audited : List (AgentId × AuditLine)} {invoked : List (Gateway × ToolCall)} {outcome : Str}
  {answer : Except GatewayError Outcome}

theorem Books.of_prepares (h : Books env name executor g' r) (hprepares : Prepares env name g g') :
    Books env name executor g r := by
  constructor
  · exact h.returns
  · intro outcome
    rw [outcomesCounted, outcomesCounted, ← hprepares.metrics]
    exact h.outcomes outcome
  · intro agent
    rw [tokensCounted, tokensCounted, ← hprepares.metrics]
    exact h.counter agent
  · exact hprepares.ticks.trans h.ticks
  · intro agent day total hspent hdays hfits
    apply h.spent _ _ _ _ _ hfits
    · apply hprepares.spent _ _ _ hspent
      intro hname i hfrom hto
      exact hdays hname i hfrom (hto.trans_le h.ticks)
    · intro hname i hfrom hto
      exact hdays hname i (hprepares.ticks.trans hfrom) hto

theorem series_tokens_ne_outcomes (labels labels' : List (Str × Str)) :
    Series.new "gm_agent_tokens_total" labels ≠ Series.new "gm_agent_actions_total" labels' := by
  intro h
  have hname : "gm_agent_tokens_total".toList = "gm_agent_actions_total".toList :=
    congrArg Series.name h
  exact absurd hname (by decide)

/-- A call with room concludes: it counts its outcome and answers. -/
theorem conclude_of_room (env : GatewayEnv) (g : Gateway) (audited : List (AgentId × AuditLine))
    (invoked : List (Gateway × ToolCall)) (answer : Except GatewayError Outcome)
    (hroom : (outcomesCounted g outcome).toNat + 1 < 2 ^ 64) : ∃ metrics,
    g.conclude env audited invoked outcome answer =
      { gateway := { g with metrics }, audited, invoked, answer := some answer } ∧
    (∀ other, (outcomesCounted { g with metrics } other).toNat ≤
      (outcomesCounted g other).toNat + 1) ∧
    ∀ agent, tokensCounted { g with metrics } agent = tokensCounted g agent := by
  obtain ⟨counted, hadd, hself, hothers⟩ :=
    Metrics.addCounter_of_lt (n := 1) env.overflowChecks hroom
  have hrecord : g.recordOutcome env outcome = some
      { g with metrics := counted.setGauge "gm_agent_pending_approvals" [] g.pending.length } := by
    rw [recordOutcome, Metrics.incCounter, hadd]
    rfl
  refine ⟨counted.setGauge "gm_agent_pending_approvals" [] g.pending.length, ?_, ?_, ?_⟩
  · unfold conclude
    rw [hrecord]
  · intro other
    rw [outcomesCounted, Metrics.counter_setGauge]
    by_cases hother : other = outcome
    · rw [hother, hself]
      exact le_rfl
    · rw [hothers]
      · exact Nat.le_succ _
      · intro h
        have hlabels := congrArg Series.labels h
        exact hother (congrArg Prod.snd (List.cons.inj hlabels).1)
  · intro agent
    rw [tokensCounted, Metrics.counter_setGauge, hothers]
    · rfl
    · exact series_tokens_ne_outcomes _ _

theorem books_dismiss (env : GatewayEnv) (name : Str) (executor : ToolExecutor)
    (hroom : ∀ outcome, (outcomesCounted g outcome).toNat + 1 < 2 ^ 64) (agent : AgentId)
    (line : AuditLine) (outcome : Str) (answer : Except GatewayError Outcome) :
    Books env name executor g (g.dismiss env agent line outcome answer) := by
  obtain ⟨metrics, hconclude, houtcomes, htokens⟩ :=
    conclude_of_room env (g.audit env agent line) [(agent, line)] [] answer (hroom outcome)
  rw [dismiss, hconclude]
  constructor
  · exact Option.some_ne_none _
  · exact houtcomes
  · intro other
    rw [htokens]
    rfl
  · exact le_rfl
  · exact fun _ _ _ hspent _ _ => hspent

theorem tokensSpent_singleton (executor : ToolExecutor) (agent : Str) (g : Gateway) (call : ToolCall) :
    tokensSpent executor agent [(g, call)] =
      if call.agent.asStr = agent then (executor call).tokens.toNat else 0 := by
  rw [tokensSpent, List.filter_cons]
  by_cases hagent : call.agent.asStr = agent
  · simp [hagent]
  · simp [hagent]

/-- Noting tokens adds them to what the agent spent, as long as the sum is a number of its size. -/
theorem spent_noteTokens {tokens : UInt64} (hspent : Spent g name day total)
    (hday : dayOf env g.ticks = day) (hfits : total + tokens.toNat < 2 ^ 64) :
    Spent (g.noteTokens env name tokens) name day (total + tokens.toNat) := by
  obtain ⟨hentry, htokens⟩ := hspent.dailyEntry env hday
  have hno : (g.dailyEntry env name).1.tokens.toNat + tokens.toNat < 2 ^ 64 := by
    rw [htokens]
    exact hfits
  have hnoted : (g.noteTokens env name tokens).dailyUsage.get name =
      some { (g.dailyEntry env name).1 with
        tokens := (g.dailyEntry env name).1.tokens + tokens } := by
    unfold noteTokens
    simp only [if_pos hno]
    exact SortedMap.get_insert_self _ _ _
  have hsum : ((g.dailyEntry env name).1.tokens + tokens).toNat = total + tokens.toNat := by
    rw [UInt64.toNat_add, htokens, Nat.mod_eq_of_lt hfits]
  apply spent_iff.mpr
  right
  exact ⟨_, hnoted, hentry, hsum⟩

theorem books_execute (env : GatewayEnv) (executor : ToolExecutor) (call : ToolCall)
    (hroom : ∀ outcome, (outcomesCounted g outcome).toNat + 1 < 2 ^ 64)
    (hfits : (tokensCounted g call.agent.asStr).toNat + (executor call).tokens.toNat < 2 ^ 64)
    (callId : Str) (audited : List (AgentId × AuditLine)) (event : ReflectedEvent) :
    Books env call.agent.asStr executor g
      (g.execute env call executor callId audited event) := by
  obtain ⟨metrics, hadd, hself, hothers⟩ := Metrics.addCounter_of_lt env.overflowChecks hfits
  let line := AuditLine.executed call.tool (executor call).ok (executor call).tokens
  let after := (g.noteTokens env call.agent.asStr (executor call).tokens).audit env call.agent line
  have hadd' : after.metrics.addCounter env.overflowChecks "gm_agent_tokens_total"
      [("agent".toList, call.agent.asStr)] (executor call).tokens = some metrics := hadd
  have houtcomes : ∀ outcome, outcomesCounted { after with metrics } outcome =
      outcomesCounted g outcome := by
    intro outcome
    apply hothers
    exact (series_tokens_ne_outcomes _ _).symm
  obtain ⟨metrics', hconclude, hcounted, htokens⟩ :=
    conclude_of_room env { after with metrics } (audited ++ [(call.agent, line)]) [(g, call)]
      (.ok (.executed [event, ReflectedEvent.toolResult callId call.tool
        (executor call).ok (executor call).summary])) (by
          rw [houtcomes]
          exact hroom "executed")
  have hexecute : g.execute env call executor callId audited event =
      { gateway := { after with metrics := metrics' }
        audited := audited ++ [(call.agent, line)]
        invoked := [(g, call)]
        answer := some (.ok (.executed [event, ReflectedEvent.toolResult callId call.tool
          (executor call).ok (executor call).summary])) } := by
    rw [← hconclude]
    unfold execute
    simp only []
    rw [hadd']
  rw [hexecute]
  constructor
  · exact Option.some_ne_none _
  · intro outcome
    rw [← houtcomes]
    exact hcounted outcome
  · -- the tokens go to the agent of the call alone
    intro agent
    rw [tokensSpent_singleton, htokens agent]
    by_cases hagent : call.agent.asStr = agent
    · rw [if_pos hagent, ← hagent]
      exact hself
    · rw [if_neg hagent]
      apply congrArg UInt64.toNat
      apply hothers
      intro h
      have hlabels := congrArg Series.labels h
      exact hagent (congrArg Prod.snd (List.cons.inj hlabels).1).symm
  · exact Nat.le_succ _
  · -- and so does what it has spent today
    intro agent day total hspent hdays hfits'
    rw [tokensSpent_singleton] at hfits' ⊢
    by_cases hagent : call.agent.asStr = agent
    · rw [if_pos hagent] at hfits' ⊢
      rw [← hagent] at hspent ⊢
      exact spent_noteTokens hspent (hdays hagent g.ticks le_rfl (Nat.lt_succ_self _)) hfits'
    · rw [if_neg hagent]
      show Spent (g.noteTokens env call.agent.asStr (executor call).tokens) agent day total
      have hget : (g.noteTokens env call.agent.asStr (executor call).tokens).dailyUsage.get agent =
          g.dailyUsage.get agent := by
        show ((g.dailyUsage.insert call.agent.asStr _).insert call.agent.asStr _).get agent = _
        rw [SortedMap.get_insert_ne _ (Ne.symm hagent), SortedMap.get_insert_ne _ (Ne.symm hagent)]
      rw [Spent, hget]
      exact hspent

theorem books_executeNow (hroom : HasRoom g)
    (hfits : ∀ c ∈ (g.executeNow env call executor).invoked,
      (tokensCounted g c.2.agent.asStr).toNat + (executor c.2).tokens.toNat < 2 ^ 64) :
    Books env call.agent.asStr executor g (g.executeNow env call executor) := by
  have hid : g.nextCallId env = some (callIdOf g.nextCallSeq,
      { g with nextCallSeq := g.nextCallSeq + 1 }) := by
    rw [nextCallId, increment_of_lt hroom.seq]
    rfl
  have hnow : g.executeNow env call executor =
      (({ g with nextCallSeq := g.nextCallSeq + 1 } : Gateway).audit env call.agent
        (.autoAllowed call.tool)).execute env call executor (callIdOf g.nextCallSeq)
          [(call.agent, .autoAllowed call.tool)]
          (ReflectedEvent.toolCall (callIdOf g.nextCallSeq) call.tool call.argsSummary) := by
    rw [executeNow, hid]
  rw [hnow] at hfits ⊢
  rw [execute_invoked] at hfits
  have hbooks := books_execute env executor call
    (g := ({ g with nextCallSeq := g.nextCallSeq + 1 } : Gateway).audit env call.agent
      (.autoAllowed call.tool)) hroom.outcomes (hfits _ (List.mem_singleton_self _))
    (callIdOf g.nextCallSeq) [(call.agent, .autoAllowed call.tool)]
    (ReflectedEvent.toolCall (callIdOf g.nextCallSeq) call.tool call.argsSummary)
  exact hbooks.of_prepares ⟨rfl, le_rfl, fun _ _ _ h _ => h⟩

theorem books_queueForReview (hroom : HasRoom g) :
    Books env name executor g (g.queueForReview env call) := by
  have hid : g.nextCallId env = some (callIdOf g.nextCallSeq,
      { g with nextCallSeq := g.nextCallSeq + 1 }) := by
    rw [nextCallId, increment_of_lt hroom.seq]
    rfl
  have hrequest : increment env g.nextRequestId = some (g.nextRequestId + 1) :=
    increment_of_lt hroom.request
  let queued : Gateway := { ({ g with nextCallSeq := g.nextCallSeq + 1
                                      nextRequestId := g.nextRequestId + 1 } : Gateway).audit env
    call.agent (.approvalRequested call.tool) with
      pending := g.pending ++ [⟨g.nextRequestId, callIdOf g.nextCallSeq, call⟩] }
  obtain ⟨metrics, hconclude, houtcomes, htokens⟩ :=
    conclude_of_room env queued [(call.agent, .approvalRequested call.tool)] []
      (.ok (.awaitingApproval g.nextRequestId
        (ReflectedEvent.toolCall (callIdOf g.nextCallSeq) call.tool call.argsSummary)))
      (hroom.outcomes "review")
  have hqueue : g.queueForReview env call =
      queued.conclude env [(call.agent, .approvalRequested call.tool)] [] "review"
        (.ok (.awaitingApproval g.nextRequestId
          (ReflectedEvent.toolCall (callIdOf g.nextCallSeq) call.tool call.argsSummary))) := by
    unfold queueForReview
    rw [hid]
    simp only [hrequest]
    rfl
  rw [hqueue, hconclude]
  constructor
  · exact Option.some_ne_none _
  · exact houtcomes
  · intro other
    rw [htokens]
    rfl
  · exact le_rfl
  · exact fun _ _ _ hspent _ _ => hspent

theorem HasRoom.of_fields (h : HasRoom g) (hrequest : g'.nextRequestId = g.nextRequestId)
    (hseq : g'.nextCallSeq = g.nextCallSeq) (hmetrics : g'.metrics = g.metrics) : HasRoom g' := by
  constructor
  · rw [hrequest]
    exact h.request
  · rw [hseq]
    exact h.seq
  · intro outcome
    rw [outcomesCounted, hmetrics]
    exact h.outcomes outcome

/-- The mediation of a call with room books what its executor reports. -/
theorem books_mediate (env : GatewayEnv) (m : Mediation) (hroom : HasRoom g)
    (hcalls : m.grant.dailyCallLimit = 0 → ∀ usage,
      g.dailyUsage.get m.call.agent.asStr = some usage → usage.calls.toNat + 1 < 2 ^ 32)
    (hfits : ∀ c ∈ (g.mediate env m.grant m.call m.cls executor).invoked,
      (tokensCounted g c.2.agent.asStr).toNat + (executor c.2).tokens.toNat < 2 ^ 64) :
    Books env m.call.agent.asStr executor g (g.mediate env m.grant m.call m.cls executor) := by
  by_cases hcls : m.cls = .forbidden
  · rw [mediate, if_pos hcls]
    exact books_dismiss env _ executor hroom.outcomes _ _ _ _
  · obtain ⟨ticks, recentCalls, dailyUsage, hchecked⟩ := checkBudgets_eq env g m.grant m.call
    cases hcheck : (g.checkBudgets env m.grant m.call).1 with
    | some refusal =>
        -- over budget: the call is dismissed after the checks
        have hpair : g.checkBudgets env m.grant m.call =
            (some refusal, (g.checkBudgets env m.grant m.call).2) := by rw [← hcheck]
        have hroom' : HasRoom (g.checkBudgets env m.grant m.call).2 :=
          hroom.of_fields (by rw [hchecked]) (by rw [hchecked]) (by rw [hchecked])
        rw [mediate, if_neg hcls, hpair]
        have hbooks := books_dismiss env m.call.agent.asStr executor hroom'.outcomes m.call.agent refusal.line refusal.outcome
          (.ok (.denied refusal.reason []))
        exact hbooks.of_prepares (prepares_checkBudgets g m.grant m.call)
    | none =>
        -- within the budgets there is room to count one more call
        have hpair : g.checkBudgets env m.grant m.call =
            (none, (g.checkBudgets env m.grant m.call).2) := by rw [← hcheck]
        obtain ⟨ticks', recentCalls', dailyUsage', hfields⟩ := counted_eq env g m
        have hroom' : HasRoom (g.counted env m).2 :=
          hroom.of_fields (by rw [hfields]) (by rw [hfields]) (by rw [hfields])
        have hmetrics : (g.counted env m).2.metrics = g.metrics := by rw [hfields]
        have hcounted : (g.counted env m).1 = true := by
          rw [← Bool.not_eq_false, counted_eq_false_iff]
          intro hmax
          have hlt := callsToday_lt hcheck hcalls
          omega
        have htake : g.mediate env m.grant m.call m.cls executor =
            (g.checkBudgets env m.grant m.call).2.takeCall env m.call m.cls executor := by
          rw [mediate, if_neg hcls, hpair]
        rw [htake] at hfits ⊢
        apply Books.of_prepares _ (prepares_counted env g m)
        cases hclass : m.cls with
        | auto =>
            have hnow : (g.checkBudgets env m.grant m.call).2.takeCall env m.call .auto executor =
                (g.counted env m).2.executeNow env m.call executor := if_pos hcounted
            rw [hclass, hnow] at hfits
            rw [hnow]
            apply books_executeNow hroom'
            intro c hc
            rw [tokensCounted, hmetrics]
            exact hfits c hc
        | review =>
            have hqueue : (g.checkBudgets env m.grant m.call).2.takeCall env m.call .review executor =
                (g.counted env m).2.queueForReview env m.call := if_pos hcounted
            rw [hqueue]
            exact books_queueForReview hroom'
        | forbidden => exact absurd hclass hcls

/-- A call that reaches mediation is mediated, after a line about its delegation if it has one. -/
theorem perform_of_mediated (env : GatewayEnv) (g : Gateway) {m : Mediation} (hm : op.mediated = some m) :
    perform env g op = g.mediate env m.grant m.call m.cls op.executor ∨
      ∃ line, perform env g op =
        { (g.audit env m.call.agent line).mediate env m.grant m.call m.cls op.executor with
          audited := (m.call.agent, line) :: ((g.audit env m.call.agent line).mediate env m.grant
            m.call m.cls op.executor).audited } := by
  cases op with
  | handle grant call executor =>
      obtain rfl := Option.some_inj.mp hm
      exact .inl rfl
  | handleManaged registration grant call executor =>
      by_cases hmanaged : registration.manages call.agent = true
      · rw [GatewayCall.mediated, if_pos hmanaged] at hm
        obtain rfl := Option.some_inj.mp hm
        exact .inl (if_pos hmanaged)
      · rw [GatewayCall.mediated, if_neg hmanaged] at hm
        cases hm
  | handleInRoom roster call executor =>
      obtain ⟨grant, hgrant, rfl⟩ := Option.map_eq_some_iff.mp hm
      left
      show g.handleInRoom env roster call executor = _
      rw [Gateway.handleInRoom, hgrant]
      rfl
  | handleDelegated roster orchestrator call executor =>
      by_cases hknown : roster.contains orchestrator = true
      · rw [GatewayCall.mediated, if_pos hknown] at hm
        obtain ⟨grant, hgrant, rfl⟩ := Option.map_eq_some_iff.mp hm
        right
        refine ⟨.delegatedBy orchestrator call.tool, ?_⟩
        show g.handleDelegated env roster orchestrator call executor = _
        rw [Gateway.handleDelegated, hknown, hgrant]
        rfl
      · rw [GatewayCall.mediated, if_neg hknown] at hm
        cases hm
  | handleWithPolicy grant policy call executor =>
      simp only [GatewayCall.mediated] at hm
      left
      show g.handleWithPolicy env grant policy call executor = _
      unfold Gateway.handleWithPolicy
      by_cases hbase : grant.classify call.tool call.room = .forbidden
      · rw [if_neg (fun h => h.1 hbase)] at hm
        obtain rfl := Option.some_inj.mp hm
        simp only [hbase, if_true]
        rfl
      · by_cases hdeny : policy.evaluate call.tool call.room.asStr call.argsSummary = .deny
        · rw [if_pos ⟨hbase, hdeny⟩] at hm
          cases hm
        · rw [if_neg (fun h => hdeny h.2)] at hm
          obtain rfl := Option.some_inj.mp hm
          simp only [if_neg hbase, if_neg hdeny]
          rfl
  | resolve requestId approved decidedBy executor => cases hm

theorem agentOf_of_mediated {m : Mediation} (hm : op.mediated = some m) :
    agentOf g op = some m.call.agent := by
  cases op with
  | resolve requestId approved decidedBy executor => exact nomatch hm
  | _ => exact congrArg (Option.map fun m => m.call.agent) hm

/-- Every call with room books what its executor reports, for the agent whose call it is. -/
theorem books_perform (hroom : HasRoom g) (hcalls : CallsFit g op)
    (hfits : ∀ c ∈ (perform env g op).invoked,
      (tokensCounted g c.2.agent.asStr).toNat + (op.executor c.2).tokens.toNat < 2 ^ 64)
    (hname : ∀ agent, agentOf g op = some agent → name = agent.asStr) :
    Books env name op.executor g (perform env g op) := by
  cases hm : op.mediated with
  | some m =>
      rw [hname _ (agentOf_of_mediated hm)]
      rcases perform_of_mediated env g hm with hperform | ⟨line, hperform⟩
      · rw [hperform] at hfits ⊢
        exact books_mediate env m hroom (hcalls m hm) hfits
      · rw [hperform] at hfits ⊢
        have hbooks := books_mediate env (g := g.audit env m.call.agent line) m
          (hroom.of_fields rfl rfl rfl) (hcalls m hm) hfits
        have hhere := hbooks.of_prepares (g := g) ⟨rfl, le_rfl, fun _ _ _ h _ => h⟩
        exact ⟨hhere.returns, hhere.outcomes, hhere.counter, hhere.ticks, hhere.spent⟩
  | none =>
      by_cases hresolve : ∃ id approved decidedBy executor,
          op = .resolve id approved decidedBy executor
      · obtain ⟨requestId, approved, decidedBy, executor, rfl⟩ := hresolve
        cases hp : requestOf g requestId with
        | none =>
            rw [perform_resolve_unknown hp]
            exact ⟨Option.some_ne_none _, fun _ => Nat.le_succ _, fun _ => rfl, le_rfl,
              fun _ _ _ hspent _ _ => hspent⟩
        | some p =>
            -- the request is taken from the queue before the call is accounted for
            have hprepares : ∀ store, Prepares env p.call.agent.asStr g
                { withoutRequest g requestId with store } :=
              fun _ => ⟨rfl, le_rfl, fun _ _ _ h _ => h⟩
            have hagent : agentOf g (.resolve requestId approved decidedBy executor) =
                some p.call.agent := by
              rw [agentOf, hp]
              rfl
            rw [hname _ hagent]
            cases approved with
            | true =>
                rw [perform_resolve_approved hp] at hfits ⊢
                rw [execute_invoked] at hfits
                have hbooks := books_execute env executor p.call
                  (g := (withoutRequest g requestId).audit env p.call.agent
                    (.approvedBy decidedBy p.call.tool)) hroom.outcomes
                  (hfits _ (List.mem_singleton_self _)) p.callId
                  [(p.call.agent, .approvedBy decidedBy p.call.tool)]
                  (ReflectedEvent.approval p.callId decidedBy true)
                exact hbooks.of_prepares (hprepares _)
            | false =>
                rw [perform_resolve_denied hp]
                have hbooks := books_dismiss env p.call.agent.asStr executor
                  (g := withoutRequest g requestId) hroom.outcomes
                  p.call.agent (.deniedBy decidedBy p.call.tool) "denied_human"
                  (.ok (.denied (p.call.tool ++ " denied by ".toList ++ decidedBy)
                    [ReflectedEvent.approval p.callId decidedBy false]))
                exact hbooks.of_prepares (hprepares g.store)
      · have hop : ∀ id approved decidedBy executor, op ≠ .resolve id approved decidedBy executor :=
          fun id approved decidedBy executor h => hresolve ⟨id, approved, decidedBy, executor, h⟩
        obtain ⟨agent, line, outcome, answer, hperform⟩ := dismissed_of_not_mediated env g hm hop
        rw [hperform]
        exact books_dismiss env _ op.executor hroom.outcomes agent line outcome answer

/-- What a call with room is executed with does not depend on whether the build checks overflow. -/
theorem invoked_of_checked (hroom : HasRoom g) (hcalls : CallsFit g op) {c : Gateway × ToolCall}
    (hc : c ∈ (perform { env with overflowChecks := true } g op).invoked) :
    ∃ c' ∈ (perform env g op).invoked, c'.2 = c.2 := by
  cases course { env with overflowChecks := true } g op with
  | turn m hm hturn =>
      cases hturn with
      | executed _ _ _ _ _ hpassed _ _ _ hinvoked _ =>
          rw [hinvoked, List.mem_singleton] at hc
          have hpassed' : (g.checkBudgets env m.grant m.call).1 = none := hpassed.2
          -- without the overflow checks the call is executed too, as nothing overflows
          cases turn_perform env g hm with
          | executed _ _ _ _ _ _ _ _ _ hinvoked' _ =>
              rw [hinvoked', hc]
              exact ⟨_, List.mem_singleton_self _, rfl⟩
          | refused _ _ _ hchecked _ _ _ =>
              rcases hchecked with ⟨hcls, -⟩ | ⟨-, hrefused, -⟩
              · exact nomatch hcls.symm.trans hpassed.1
              · exact absurd hpassed' hrefused
          | panicked _ _ _ hoverflow _ _ _ _ =>
              rcases hoverflow with hcounted | hseq | ⟨hcls, -⟩
              · have hmax := (counted_eq_false_iff.mp hcounted).2
                have hlt := callsToday_lt hpassed' (hcalls m hm)
                omega
              · exact nomatch (increment_of_lt hroom.seq).symm.trans hseq
              · exact nomatch hcls.symm.trans hpassed.1
          | queued _ _ _ _ hqueued _ _ _ _ _ _ => exact nomatch hqueued.1.symm.trans hpassed.1
      | refused _ _ _ _ _ hinvoked _ =>
          rw [hinvoked] at hc
          exact absurd hc List.not_mem_nil
      | panicked _ _ _ _ _ _ hinvoked _ =>
          rw [hinvoked] at hc
          exact absurd hc List.not_mem_nil
      | queued _ _ _ _ _ _ _ _ _ hinvoked _ =>
          rw [hinvoked] at hc
          exact absurd hc List.not_mem_nil
  | dismissed _ _ _ _ _ _ hperform =>
      rw [hperform, dismiss_invoked] at hc
      exact absurd hc List.not_mem_nil
  | unknown _ _ _ _ _ _ hperform =>
      rw [hperform] at hc
      exact absurd hc List.not_mem_nil
  | settled requestId approved decidedBy executor p hop hp _ hinvoked _ =>
      obtain ⟨store, hinvoked⟩ := hinvoked
      rw [hinvoked] at hc
      cases approved with
      | false => exact absurd hc List.not_mem_nil
      | true =>
          obtain ⟨store', hinvoked'⟩ :=
            (@perform_resolve_known env g requestId true decidedBy executor p hp).2.1
          rw [hop, hinvoked', List.mem_singleton.mp hc]
          exact ⟨_, List.mem_singleton_self _, rfl⟩

end

/-! ## Runs -/

section

variable {env : GatewayEnv} {store : Store Bytes} {ops : List GatewayCall} {op : GatewayCall}
  {agent : AgentId}

/-- The tokens reported for an agent grow by what each call spends. -/
theorem tokensReported_concat (env : GatewayEnv) (store : Store Bytes) (ops : List GatewayCall)
    (op : GatewayCall) (agent : AgentId) :
    tokensReported env store (ops ++ [op]) agent = tokensReported env store ops agent +
      tokensSpent op.executor agent.asStr
        (perform env (run (gatewayStep env) (withStore store) ops) op).invoked := by
  have htrace : gatewayTrace env store (ops ++ [op]) = gatewayTrace env store ops ++
      [(run (gatewayStep env) (withStore store) ops, op)] := trace_append _ _ _
  have hsame : ∀ invoked : List (Gateway × ToolCall),
      (invoked.filter fun c => decide (c.2.agent = agent)) =
        invoked.filter fun c => decide (c.2.agent.asStr = agent.asStr) := by
    intro invoked
    congr 1
    funext c
    exact decide_eq_decide.mpr ⟨congrArg UserId.asStr, UserId.ext⟩
  rw [tokensReported, executionsOf, htrace, List.flatMap_append, List.flatMap_singleton,
    List.map_append, List.sum_append, List.map_map, tokensSpent, ← hsame]
  rfl

theorem le_tokensSpent (executor : ToolExecutor) {invoked : List (Gateway × ToolCall)}
    {c : Gateway × ToolCall} (hc : c ∈ invoked) :
    (executor c.2).tokens.toNat ≤ tokensSpent executor c.2.agent.asStr invoked := by
  apply List.single_le_sum
  · exact fun _ _ => Nat.zero_le _
  · apply List.mem_map_of_mem
    rw [List.mem_filter]
    exact ⟨hc, decide_eq_true rfl⟩

/-- The conditions under which a run keeps its ledgers: it is shorter than there are numbers, each of
its calls can be counted, and no agent's tokens exceed a number. -/
structure Accountable (env : GatewayEnv) (store : Store Bytes) (ops : List GatewayCall) : Prop where
  short : ops.length < 2 ^ 64
  calls : ∀ x ∈ gatewayTrace env store ops, CallsFit x.1 x.2
  tokens : ∀ agent, tokensReported env store ops agent < 2 ^ 64

theorem Accountable.of_concat (h : Accountable env store (ops ++ [op])) :
    Accountable env store ops := by
  constructor
  · have hlen := h.short
    rw [List.length_append, List.length_singleton] at hlen
    omega
  · intro x hx
    apply h.calls
    rw [gatewayTrace, trace_append]
    exact List.mem_append_left _ hx
  · intro agent
    have htokens := h.tokens agent
    rw [tokensReported_concat] at htokens
    omega

/-- What the ledgers of a gateway show after a run. -/
structure Kept (env : GatewayEnv) (store : Store Bytes) (ops : List GatewayCall) (g : Gateway) :
    Prop where
  request : g.nextRequestId.toNat ≤ ops.length
  seq : g.nextCallSeq.toNat ≤ ops.length
  outcomes : ∀ outcome, (outcomesCounted g outcome).toNat ≤ ops.length
  counter : ∀ agent : AgentId,
    (tokensCounted g agent.asStr).toNat = tokensReported env store ops agent
  spent : ∀ (agent : AgentId) day, CallsOn env store ops agent day →
    Spent g agent.asStr day (tokensReported env store ops agent)

theorem Kept.hasRoom {g : Gateway} (h : Kept env store ops g) (hlen : ops.length + 1 < 2 ^ 64) :
    HasRoom g := by
  constructor
  · have := h.request
    omega
  · have := h.seq
    omega
  · intro outcome
    have := h.outcomes outcome
    omega

/-- A call after a kept run has the room that it needs. -/
theorem Kept.fits {g : Gateway} (h : Kept env store ops g)
    (hg : g = run (gatewayStep env) (withStore store) ops)
    (hops : Accountable env store (ops ++ [op])) :
    HasRoom g ∧ CallsFit g op ∧ ∀ c ∈ (perform env g op).invoked,
      (tokensCounted g c.2.agent.asStr).toNat + (op.executor c.2).tokens.toNat < 2 ^ 64 := by
  refine ⟨?_, ?_, ?_⟩
  · apply h.hasRoom
    have hlen := hops.short
    rw [List.length_append, List.length_singleton] at hlen
    exact hlen
  · have hlast : (g, op) ∈ gatewayTrace env store (ops ++ [op]) := by
      rw [gatewayTrace, trace_append, hg]
      exact List.mem_append_right _ (List.mem_singleton_self _)
    exact hops.calls _ hlast
  · intro c hc
    have htokens := hops.tokens c.2.agent
    rw [tokensReported_concat, ← hg] at htokens
    have hle := le_tokensSpent op.executor hc
    rw [h.counter c.2.agent]
    omega

/-- A call that books keeps the ledgers of the run. -/
theorem Kept.concat {g : Gateway} (h : Kept env store ops g)
    (hg : g = run (gatewayStep env) (withStore store) ops)
    (hops : Accountable env store (ops ++ [op])) :
    Kept env store (ops ++ [op]) (gatewayStep env g op) := by
  obtain ⟨hroom, hcalls, hfits⟩ := h.fits hg hops
  have hbooks : ∀ agent : AgentId, ∃ name, (name = agent.asStr → agentOf g op = some agent) ∧
      Books env name op.executor g (perform env g op) := by
    intro agent
    cases hagent : agentOf g op with
    | none =>
        -- a name that is not the agent's
        refine ⟨' ' :: agent.asStr, fun hsame => absurd hsame (List.cons_ne_self _ _), ?_⟩
        apply books_perform hroom hcalls hfits
        intro other hother
        exact nomatch hagent.symm.trans hother
    | some other =>
        refine ⟨other.asStr, fun hsame => congrArg some (UserId.ext hsame), ?_⟩
        apply books_perform hroom hcalls hfits
        intro other' hother
        rw [Option.some_inj.mp (hagent.symm.trans hother)]
  have hlength : (ops ++ [op]).length = ops.length + 1 := List.length_append
  have htrace : gatewayTrace env store (ops ++ [op]) = gatewayTrace env store ops ++ [(g, op)] := by
    rw [hg]
    exact trace_append _ _ _
  have htokens : ∀ agent : AgentId, tokensReported env store (ops ++ [op]) agent =
      tokensReported env store ops agent +
        tokensSpent op.executor agent.asStr (perform env g op).invoked := by
    intro agent
    rw [tokensReported_concat, ← hg]
  constructor
  · have hstep := (counters_step env g op).1
    have hle := h.request
    omega
  · have hstep := (counters_step env g op).2
    have hle := h.seq
    omega
  · intro outcome
    obtain ⟨name, -, hname⟩ := hbooks SampleGateway.worker
    have hstep := hname.outcomes outcome
    have hle := h.outcomes outcome
    show (outcomesCounted (perform env g op).gateway outcome).toNat ≤ _
    omega
  · intro agent
    obtain ⟨name, -, hname⟩ := hbooks agent
    rw [htokens, ← h.counter]
    exact hname.counter agent.asStr
  · intro agent day hday
    obtain ⟨name, hmine, hname⟩ := hbooks agent
    have hfew := hops.tokens agent
    rw [htokens] at hfew ⊢
    apply hname.spent _ _ _ _ _ hfew
    · apply h.spent agent day
      intro x hx
      apply hday x
      rw [htrace]
      exact List.mem_append_left _ hx
    · intro hsame
      apply hday (g, op) _ (hmine hsame)
      rw [htrace]
      exact List.mem_append_right _ (List.mem_singleton_self _)

/-- A call after a kept run does not overflow. -/
theorem Kept.not_panics {g : Gateway} (h : Kept env store ops g)
    (hg : g = run (gatewayStep env) (withStore store) ops)
    (hops : Accountable env store (ops ++ [op])) : ¬ PanicsIfChecked env g op := by
  obtain ⟨hroom, hcalls, hfits⟩ := h.fits hg hops
  have hchecked : ∀ c ∈ (perform { env with overflowChecks := true } g op).invoked,
      (tokensCounted g c.2.agent.asStr).toNat + (op.executor c.2).tokens.toNat < 2 ^ 64 := by
    intro c hc
    obtain ⟨c', hc', hsame⟩ := invoked_of_checked hroom hcalls hc
    rw [← hsame]
    exact hfits c' hc'
  have hbooks : Books { env with overflowChecks := true } (((agentOf g op).map UserId.asStr).getD [])
      op.executor g (perform { env with overflowChecks := true } g op) := by
    apply books_perform hroom hcalls hchecked
    intro agent hagent
    rw [hagent]
    rfl
  exact hbooks.returns

/-- A run that can be accounted for keeps its ledgers, and none of its calls overflows. -/
theorem kept_run (hops : Accountable env store ops) :
    Kept env store ops (run (gatewayStep env) (withStore store) ops) ∧
      ∀ x ∈ gatewayTrace env store ops, ¬ PanicsIfChecked env x.1 x.2 := by
  induction ops using List.reverseRecOn with
  | nil =>
      refine ⟨?_, fun x hx => absurd hx List.not_mem_nil⟩
      exact ⟨le_rfl, le_rfl, fun _ => le_rfl, fun _ => rfl, fun _ _ _ => rfl⟩
  | append_singleton ops op ih =>
      obtain ⟨hkept, hnone⟩ := ih hops.of_concat
      have htrace : gatewayTrace env store (ops ++ [op]) = gatewayTrace env store ops ++
          [(run (gatewayStep env) (withStore store) ops, op)] := trace_append _ _ _
      constructor
      · rw [run_append]
        exact hkept.concat rfl hops
      · rw [htrace, List.forall_mem_append]
        exact ⟨hnone, List.forall_mem_singleton.mpr (hkept.not_panics rfl hops)⟩

/-- The replay after a run over an empty log sums up to what was reported. -/
theorem totalTokens_run (hempty : store.scan .auditLog = [])
    (hlen : ops.length < 2 ^ 64) (hcalls : ∀ x ∈ gatewayTrace env store ops, Replayable x.1 x.2)
    (agent : AgentId) (htokens : tokensReported env store ops agent < 2 ^ 64) :
    ∃ total, (replaySession env.digest (run (gatewayStep env) (withStore store) ops).store
        agent.asStr).totalTokens true = some total ∧
      total.toNat = tokensReported env store ops agent := by
  have hstore : Positioned store := by
    intro row hrow
    rw [hempty] at hrow
    exact absurd hrow List.not_mem_nil
  have hcount : store.count .auditLog = 0 := congrArg List.length hempty
  have hlines : ∀ line ∈ auditedOver env store ops,
      PlainRecord (record line) ∧ line.2.Unmarked := by
    intro line hline
    obtain ⟨x, hx, hline⟩ := List.mem_flatMap.mp hline
    exact (hcalls x hx).lines hline
  have hbefore : (replaySession env.digest store agent.asStr).steps = [] := by
    have hentries : entries store = [] := by rw [entries, hempty, List.filterMap_nil]
    rw [replaySession, hentries]
    rfl
  have hkinds : (replaySession env.digest (run (gatewayStep env) (withStore store) ops).store
      agent.asStr).steps.map SessionStep.kind = kindsOf agent (auditedOver env store ops) := by
    rw [kinds_run hstore (by omega) hlen hlines, hbefore, List.map_nil, List.nil_append]
  generalize (replaySession env.digest (run (gatewayStep env) (withStore store) ops).store
    agent.asStr) = after' at hkinds ⊢
  have hsum : ((after'.steps.map fun s => s.kind.tokens).map UInt64.toNat).sum =
      tokensReported env store ops agent := by
    have hafter : (after'.steps.map fun s => s.kind.tokens).map UInt64.toNat =
        (after'.steps.map SessionStep.kind).map fun k => k.tokens.toNat := by
      rw [List.map_map, List.map_map]
      rfl
    rw [hafter, hkinds, sum_tokens, executions_auditedOver, tokensReported]
  rw [← hsum] at htokens
  obtain ⟨total, htotal, hnat⟩ := foldlM_tokens true _ 0 ((Nat.zero_add _).trans_lt htokens)
  refine ⟨total, htotal, ?_⟩
  rw [hnat, ← hsum]
  exact Nat.zero_add _

/-- The three ledgers agree and nothing overflows in every run from an empty log whose calls can be
counted and replayed, as long as no agent's tokens exceed a number. -/
theorem token_ledgers_agree (env : GatewayEnv) (store : Store Bytes) (ops : List GatewayCall)
    (hempty : store.scan .auditLog = [])
    (hcalls : ∀ x ∈ gatewayTrace env store ops, Replayable x.1 x.2)
    (hops : Accountable env store ops) : LedgersAgree env store ops := by
  obtain ⟨hkept, hnone⟩ := kept_run hops
  constructor
  · exact hnone
  · intro agent
    obtain ⟨total, htotal, hnat⟩ :=
      totalTokens_run hempty hops.short hcalls agent (hops.tokens agent)
    show (replaySession env.digest (run (gatewayStep env) (withStore store) ops).store
      agent.asStr).totalTokens true = some (tokensCounted _ agent.asStr)
    rw [htotal]
    congr 1
    apply UInt64.toNat_inj.mp
    rw [hnat, hkept.counter]
  · intro agent day hday
    show tokensOn (run (gatewayStep env) (withStore store) ops) agent.asStr day =
      tokensCounted _ agent.asStr
    apply UInt64.toNat_inj.mp
    rw [(hkept.spent agent day hday).tokensOn, hkept.counter]

end

open SampleGateway in
/-- A call that is queued, approved and executed is booked in the three ledgers. -/
theorem token_ledgers_agree_approvedRun : LedgersAgree env Store.empty approvedRun := by
  apply token_ledgers_agree env Store.empty approvedRun rfl
  · decide +kernel
  · constructor
    · decide
    · intro x hx m hm hlimit
      have hop := mem_of_mem_trace hx
      rw [approvedRun, List.mem_cons, List.mem_singleton] at hop
      rcases hop with hop | hop
      · rw [hop] at hm
        rw [← Option.some_inj.mp hm] at hlimit
        exact absurd hlimit (by decide)
      · rw [hop] at hm
        cases hm
    · intro agent
      by_cases hagent : agent = worker
      · rw [hagent]
        decide +kernel
      · -- only calls of the worker are executed
        have hworker : ∀ x ∈ gatewayTrace env Store.empty approvedRun,
            ∀ c ∈ (perform env x.1 x.2).invoked, c.2.agent = worker := by decide +kernel
        have hnone : executionsOf env Store.empty approvedRun agent = [] := by
          rw [executionsOf, List.flatMap_eq_nil_iff]
          intro x hx
          rw [List.map_eq_nil_iff, List.filter_eq_nil_iff]
          intro c hc
          rw [hworker x hx c hc]
          simpa using Ne.symm hagent
        rw [tokensReported, hnone]
        decide

namespace SampleLedgers

open SampleGateway

/-- An executor that reports as many tokens as there can be. -/
def greedy : ToolExecutor := fun _ => ⟨true, [], -1⟩

def greedyGrant : CapabilityGrant := { grant .auto with dailyTokenBudget := 0 }

def greedyRun : List GatewayCall :=
  [.handle greedyGrant (call worker) greedy, .handle greedyGrant (call worker) greedy]

end SampleLedgers

open SampleGateway SampleLedgers in
/-- The counter of an agent that reports twice as many tokens as there can be overflows. -/
theorem token_counter_overflows : ¬ ∀ (env : GatewayEnv) (store : Store Bytes)
    (ops : List GatewayCall), store.scan .auditLog = [] → LedgersAgree env store ops := by
  intro h
  have hrun := h env Store.empty greedyRun rfl
  -- the second call is the one that overflows
  have hsecond : (run (gatewayStep env) (withStore Store.empty) (greedyRun.take 1),
      GatewayCall.handle greedyGrant (call worker) greedy) ∈
        gatewayTrace env Store.empty greedyRun :=
    List.mem_of_getElem? (i := 1) rfl
  apply hrun.calls _ hsecond
  rw [PanicsIfChecked, ← Option.isNone_iff_eq_none]
  decide +kernel

end GaussMatrix.Agent
