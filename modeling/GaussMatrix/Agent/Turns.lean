import GaussMatrix.Agent.Gateway

/-!
# What a call of the gateway can do

Each helper changes a few fields, and a call as a whole is one of a few turns: it is refused, it
panics, it executes at once, it queues a request, or it settles one.
-/

namespace GaussMatrix.Agent

open Library Util Audit Obs

/-- A call that goes into mediation, with its class. -/
structure Mediation where
  grant : CapabilityGrant
  call : ToolCall
  cls : ActionClass

/-- The call as its grant classes it. -/
def Mediation.ofGrant (call : ToolCall) (grant : CapabilityGrant) : Mediation :=
  ⟨grant, call, grant.classify call.tool call.room⟩

/-- What a call of the gateway hands to mediation; the class is refined by the policy. -/
def GatewayCall.mediated : GatewayCall → Option Mediation
  | .handle grant call _ => some (.ofGrant call grant)
  | .handleManaged registration grant call _ =>
      if registration.manages call.agent then some (.ofGrant call grant) else none
  | .handleInRoom roster call _ => (roster.grantFor call.agent).map (.ofGrant call)
  | .handleDelegated roster orchestrator call _ =>
      if roster.contains orchestrator then (roster.grantFor call.agent).map (.ofGrant call) else none
  | .handleWithPolicy grant policy call _ =>
      let base := grant.classify call.tool call.room
      let effect := policy.evaluate call.tool call.room.asStr call.argsSummary
      if base ≠ .forbidden ∧ effect = .deny then none else some ⟨grant, call, refine base effect⟩
  | .resolve .. => none

namespace Gateway

variable {env : GatewayEnv} {g : Gateway} {grant : CapabilityGrant} {call : ToolCall}
  {executor : ToolExecutor} {agent : Str}

/-! ## Fields that change -/

theorem isRateLimited_eq (env : GatewayEnv) (g : Gateway) (agent : Str) (limit : UInt32) : ∃ ticks recentCalls,
    (g.isRateLimited env agent limit).2 = { g with ticks, recentCalls } := by
  unfold isRateLimited
  split
  · exact ⟨g.ticks, g.recentCalls, rfl⟩
  · exact ⟨_, _, rfl⟩

theorem dailyEntry_eq : (g.dailyEntry env agent).2 =
    { g with
      ticks := g.ticks + 1
      dailyUsage := g.dailyUsage.insert agent (g.dailyEntry env agent).1 } :=
  rfl

/-- An entry of today stays. -/
theorem dailyEntry_of_today {usage : Usage} (hget : g.dailyUsage.get agent = some usage)
    (hday : usage.day = env.clock g.ticks / secsPerDay) : (g.dailyEntry env agent).1 = usage := by
  simp only [dailyEntry, nowUnixSecs, hget]
  exact if_pos hday

/-- The entry is the agent's of today, or a new one. -/
theorem dailyEntry_cases (env : GatewayEnv) (g : Gateway) (agent : Str) :
    (g.dailyUsage.get agent = some (g.dailyEntry env agent).1 ∧
      (g.dailyEntry env agent).1.day = env.clock g.ticks / secsPerDay) ∨
    (g.dailyEntry env agent).1 = ⟨env.clock g.ticks / secsPerDay, 0, 0⟩ := by
  cases hget : g.dailyUsage.get agent with
  | none =>
      right
      simp only [dailyEntry, nowUnixSecs, hget]
  | some usage =>
      by_cases hday : usage.day = env.clock g.ticks / secsPerDay
      · left
        rw [dailyEntry_of_today hget hday]
        exact ⟨rfl, hday⟩
      · right
        simp only [dailyEntry, nowUnixSecs, hget]
        exact if_neg hday

theorem isOverDailyBudget_eq (env : GatewayEnv) (g : Gateway) (agent : Str) (limit : UInt32) : ∃ ticks dailyUsage,
    (g.isOverDailyBudget env agent limit).2 = { g with ticks, dailyUsage } := by
  unfold isOverDailyBudget
  split
  · exact ⟨g.ticks, g.dailyUsage, rfl⟩
  · exact ⟨_, _, rfl⟩

theorem isOverTokenBudget_eq (env : GatewayEnv) (g : Gateway) (agent : Str) (budget : UInt64) : ∃ ticks dailyUsage,
    (g.isOverTokenBudget env agent budget).2 = { g with ticks, dailyUsage } := by
  unfold isOverTokenBudget
  split
  · exact ⟨g.ticks, g.dailyUsage, rfl⟩
  · exact ⟨_, _, rfl⟩

theorem noteDailyCall_eq (env : GatewayEnv) (g : Gateway) (agent : Str) : ∃ dailyUsage,
    (g.noteDailyCall env agent).2 = { g with ticks := g.ticks + 1, dailyUsage } := by
  unfold noteDailyCall
  simp only []
  split
  · exact ⟨_, rfl⟩
  · exact ⟨_, rfl⟩

theorem noteTokens_eq {tokens : UInt64} : ∃ dailyUsage,
    g.noteTokens env agent tokens = { g with ticks := g.ticks + 1, dailyUsage } :=
  ⟨_, rfl⟩

theorem checkBudgets_eq (env : GatewayEnv) (g : Gateway) (grant : CapabilityGrant) (call : ToolCall) :
    ∃ ticks recentCalls dailyUsage,
    (g.checkBudgets env grant call).2 = { g with ticks, recentCalls, dailyUsage } := by
  obtain ⟨ticks, recentCalls, hrate⟩ := isRateLimited_eq env g call.agent.asStr
    grant.rateLimitPerMin
  unfold checkBudgets
  simp only []
  split
  · exact ⟨ticks, recentCalls, g.dailyUsage, hrate⟩
  · obtain ⟨ticks', dailyUsage, hdaily⟩ := isOverDailyBudget_eq env
      (g.isRateLimited env call.agent.asStr grant.rateLimitPerMin).2 call.agent.asStr
      grant.dailyCallLimit
    split
    · exact ⟨ticks', recentCalls, dailyUsage, by rw [hdaily, hrate]⟩
    · obtain ⟨ticks'', dailyUsage', htoken⟩ := isOverTokenBudget_eq env
        ((g.isRateLimited env call.agent.asStr grant.rateLimitPerMin).2.isOverDailyBudget env
          call.agent.asStr grant.dailyCallLimit).2 call.agent.asStr grant.dailyTokenBudget
      split
      · exact ⟨ticks'', recentCalls, dailyUsage', by rw [htoken, hdaily, hrate]⟩
      · exact ⟨ticks'', recentCalls, dailyUsage', by rw [htoken, hdaily, hrate]⟩

/-- What the three checks keep, the checks of the budgets keep. -/
theorem checkBudgets_of_checks {P : Gateway → Prop}
    (hrate : ∀ g limit, P g → P (g.isRateLimited env call.agent.asStr limit).2)
    (hdaily : ∀ g limit, P g → P (g.isOverDailyBudget env call.agent.asStr limit).2)
    (htoken : ∀ g budget, P g → P (g.isOverTokenBudget env call.agent.asStr budget).2) (hg : P g) :
    P (g.checkBudgets env grant call).2 := by
  unfold checkBudgets
  simp only []
  split
  · exact hrate g _ hg
  · split
    · exact hdaily _ _ (hrate g _ hg)
    · split
      · exact htoken _ _ (hdaily _ _ (hrate g _ hg))
      · exact htoken _ _ (hdaily _ _ (hrate g _ hg))

/-- A call that passes is within its rate, its daily calls and its daily tokens. -/
theorem of_checkBudgets_none (h : (g.checkBudgets env grant call).1 = none) :
    let rate := g.isRateLimited env call.agent.asStr grant.rateLimitPerMin
    let daily := rate.2.isOverDailyBudget env call.agent.asStr grant.dailyCallLimit
    let token := daily.2.isOverTokenBudget env call.agent.asStr grant.dailyTokenBudget
    rate.1 = false ∧ daily.1 = false ∧ token.1 = false ∧ (g.checkBudgets env grant call).2 = token.2 := by
  unfold checkBudgets at h ⊢
  simp only [] at h ⊢
  split at h
  · exact nomatch h
  · rename_i hrate
    split at h
    · exact nomatch h
    · rename_i hdaily
      split at h
      · exact nomatch h
      · rename_i htoken
        rw [if_neg hrate, if_neg hdaily, if_neg htoken]
        exact ⟨(Bool.not_eq_true _).mp hrate, (Bool.not_eq_true _).mp hdaily,
          (Bool.not_eq_true _).mp htoken, rfl⟩

theorem recordOutcome_eq {outcome : Str} {g' : Gateway} (h : g.recordOutcome env outcome = some g') :
    ∃ metrics, g' = { g with metrics } ∧
      metrics.gauge "gm_agent_pending_approvals" [] = some (g.pending.length : Int) := by
  obtain ⟨metrics, -, rfl⟩ := Option.map_eq_some_iff.mp h
  exact ⟨_, rfl, Metrics.gauge_setGauge _ _ _ _⟩

/-- The checks of the budgets read and write nothing of the store. -/
theorem checkBudgets_store (env : GatewayEnv) (g : Gateway) (grant : CapabilityGrant) (call : ToolCall)
    (store : Store Bytes) :
    ({ g with store } : Gateway).checkBudgets env grant call =
      ((g.checkBudgets env grant call).1, { (g.checkBudgets env grant call).2 with store }) := by
  have hrate : ∀ (g : Gateway) limit, ({ g with store } : Gateway).isRateLimited env
      call.agent.asStr limit = ((g.isRateLimited env call.agent.asStr limit).1,
        { (g.isRateLimited env call.agent.asStr limit).2 with store }) := by
    intro g limit
    unfold isRateLimited
    split <;> rfl
  have hdaily : ∀ (g : Gateway) limit, ({ g with store } : Gateway).isOverDailyBudget env
      call.agent.asStr limit = ((g.isOverDailyBudget env call.agent.asStr limit).1,
        { (g.isOverDailyBudget env call.agent.asStr limit).2 with store }) := by
    intro g limit
    unfold isOverDailyBudget
    split <;> rfl
  have htoken : ∀ (g : Gateway) budget, ({ g with store } : Gateway).isOverTokenBudget env
      call.agent.asStr budget = ((g.isOverTokenBudget env call.agent.asStr budget).1,
        { (g.isOverTokenBudget env call.agent.asStr budget).2 with store }) := by
    intro g budget
    unfold isOverTokenBudget
    split <;> rfl
  unfold checkBudgets
  simp only [hrate, hdaily, htoken]
  split
  · rfl
  · split
    · rfl
    · split <;> rfl

/-! ## Replies -/

section

variable {audited : List (AgentId × AuditLine)} {invoked : List (Gateway × ToolCall)} {outcome : Str}
  {answer answer' : Except GatewayError Outcome} {callId : Str} {event : ReflectedEvent}

/-- The gauge of pending approvals shows the length of the queue. -/
def GaugeExact (g : Gateway) : Prop :=
  g.metrics.gauge "gm_agent_pending_approvals" [] = some (g.pending.length : Int)

theorem conclude_audited : (g.conclude env audited invoked outcome answer).audited = audited := by
  unfold conclude
  split <;> rfl

theorem conclude_invoked : (g.conclude env audited invoked outcome answer).invoked = invoked := by
  unfold conclude
  split <;> rfl

theorem conclude_gateway (env : GatewayEnv) (g : Gateway) : ∃ metrics,
    (g.conclude env audited invoked outcome answer).gateway = { g with metrics } := by
  unfold conclude
  split
  · exact ⟨g.metrics, rfl⟩
  · rename_i g' h
    obtain ⟨metrics, rfl, -⟩ := recordOutcome_eq h
    exact ⟨metrics, rfl⟩

/-- A call that concludes and returns has refreshed the gauge. -/
theorem of_conclude_answer
    (h : (g.conclude env audited invoked outcome answer).answer = some answer') :
    answer' = answer ∧ GaugeExact (g.conclude env audited invoked outcome answer).gateway := by
  unfold conclude at h ⊢
  cases hrecord : g.recordOutcome env outcome with
  | none =>
      rw [hrecord] at h
      exact absurd h (by simp [panicked])
  | some g' =>
      rw [hrecord] at h
      obtain ⟨metrics, rfl, hgauge⟩ := recordOutcome_eq hrecord
      exact ⟨(Option.some_inj.mp h).symm, hgauge⟩

theorem execute_gateway (env : GatewayEnv) (g : Gateway) : ∃ store metrics,
    (g.execute env call executor callId audited event).gateway =
      { g.noteTokens env call.agent.asStr (executor call).tokens with store, metrics } := by
  unfold execute
  simp only []
  split
  · exact ⟨_, _, rfl⟩
  · obtain ⟨metrics, h⟩ := conclude_gateway env _
    rw [h]
    exact ⟨_, _, rfl⟩

theorem execute_invoked :
    (g.execute env call executor callId audited event).invoked = [(g, call)] := by
  unfold execute
  simp only []
  split
  · rfl
  · exact conclude_invoked

theorem execute_audited : (g.execute env call executor callId audited event).audited =
    audited ++ [(call.agent, .executed call.tool (executor call).ok (executor call).tokens)] := by
  unfold execute
  simp only []
  split
  · rfl
  · exact conclude_audited

/-- An execution that returns shows the event it was given first. -/
theorem of_execute_answer
    (h : (g.execute env call executor callId audited event).answer = some answer) :
    (∃ events, answer = .ok (.executed (event :: events))) ∧
      GaugeExact (g.execute env call executor callId audited event).gateway := by
  unfold execute at h ⊢
  simp only [] at h ⊢
  split at h
  · exact absurd h (by simp [panicked])
  · obtain ⟨rfl, hgauge⟩ := of_conclude_answer h
    exact ⟨⟨_, rfl⟩, hgauge⟩

end

/-! ## Mediation -/

/-- The gateway after an admitted call was counted, and whether it could be. -/
def counted (env : GatewayEnv) (g : Gateway) (m : Mediation) : Bool × Gateway :=
  ((g.checkBudgets env m.grant m.call).2.noteCall env m.call.agent.asStr).noteDailyCall env
    m.call.agent.asStr

theorem counted_eq (env : GatewayEnv) (g : Gateway) (m : Mediation) : ∃ ticks recentCalls dailyUsage,
    (g.counted env m).2 = { g with ticks, recentCalls, dailyUsage } := by
  obtain ⟨ticks, recentCalls, dailyUsage, hcheck⟩ := checkBudgets_eq env g m.grant m.call
  obtain ⟨dailyUsage', hdaily⟩ := noteDailyCall_eq env
    ((g.checkBudgets env m.grant m.call).2.noteCall env m.call.agent.asStr) m.call.agent.asStr
  have hnote : (g.checkBudgets env m.grant m.call).2.noteCall env m.call.agent.asStr =
      { g with
        ticks := ticks + 1
        recentCalls := recentCalls ++ [(m.call.agent.asStr, env.clock ticks)]
        dailyUsage } := by
    rw [hcheck]
    rfl
  refine ⟨ticks + 1 + 1, recentCalls ++ [(m.call.agent.asStr, env.clock ticks)], dailyUsage', ?_⟩
  rw [counted, hdaily, hnote]

/-- The call id of a sequence number. -/
def callIdOf (seq : UInt64) : Str := "call-".toList ++ decimal seq.toNat

/-- What the mediation of a call can do. -/
inductive Turn (env : GatewayEnv) (g : Gateway) (m : Mediation) (r : Reply) : Prop
  | refused (g' : Gateway) (store : Store Bytes) (metrics : Metrics)
      (hchecked : (m.cls = .forbidden ∧ g' = g) ∨ (m.cls ≠ .forbidden ∧
        (g.checkBudgets env m.grant m.call).1 ≠ none ∧ g' = (g.checkBudgets env m.grant m.call).2))
      (hgateway : r.gateway = { g' with store, metrics })
      (hinvoked : r.invoked = [])
      (hanswer : ∀ a, r.answer = some a →
        (∃ reason, a = .ok (.denied reason [])) ∧ GaugeExact r.gateway)
  | panicked (store : Store Bytes) (seq : UInt64)
      (hpassed : m.cls ≠ .forbidden ∧ (g.checkBudgets env m.grant m.call).1 = none)
      (hoverflow : (g.counted env m).1 = false ∨ increment env g.nextCallSeq = none ∨
        (m.cls = .review ∧ increment env g.nextRequestId = none))
      (hseq : seq = g.nextCallSeq ∨ increment env g.nextCallSeq = some seq)
      (hgateway : r.gateway = { (g.counted env m).2 with store, nextCallSeq := seq })
      (hinvoked : r.invoked = [])
      (hanswer : r.answer = none)
  | executed (store store' : Store Bytes) (metrics : Metrics) (seq tokens : UInt64)
      (hpassed : m.cls = .auto ∧ (g.checkBudgets env m.grant m.call).1 = none)
      (hcounted : (g.counted env m).1 = true)
      (hseq : increment env g.nextCallSeq = some seq)
      (hgateway : r.gateway = { (g.counted env m).2.noteTokens env m.call.agent.asStr tokens with
        store, nextCallSeq := seq, metrics })
      (hinvoked : r.invoked =
        [({ (g.counted env m).2 with store := store', nextCallSeq := seq }, m.call)])
      (hanswer : ∀ a, r.answer = some a → (∃ events, a = .ok (.executed (ReflectedEvent.toolCall
        (callIdOf g.nextCallSeq) m.call.tool m.call.argsSummary :: events))) ∧ GaugeExact r.gateway)
  | queued (store : Store Bytes) (metrics : Metrics) (seq request : UInt64)
      (hpassed : m.cls = .review ∧ (g.checkBudgets env m.grant m.call).1 = none)
      (hcounted : (g.counted env m).1 = true)
      (hseq : increment env g.nextCallSeq = some seq)
      (hrequest : increment env g.nextRequestId = some request)
      (hgateway : r.gateway = { (g.counted env m).2 with
        store, nextCallSeq := seq, nextRequestId := request, metrics
        pending := g.pending ++ [⟨g.nextRequestId, callIdOf g.nextCallSeq, m.call⟩] })
      (hinvoked : r.invoked = [])
      (hanswer : ∀ a, r.answer = some a → a = .ok (.awaitingApproval g.nextRequestId
        (ReflectedEvent.toolCall (callIdOf g.nextCallSeq) m.call.tool m.call.argsSummary)) ∧
          GaugeExact r.gateway)

theorem nextCallId_eq_some {callId : Str} {g' : Gateway} (h : g.nextCallId env = some (callId, g')) :
    ∃ seq, increment env g.nextCallSeq = some seq ∧ callId = callIdOf g.nextCallSeq ∧
      g' = { g with nextCallSeq := seq } := by
  obtain ⟨seq, hseq, heq⟩ := Option.map_eq_some_iff.mp h
  obtain ⟨rfl, rfl⟩ := Prod.mk.inj heq
  exact ⟨seq, hseq, rfl, rfl⟩

/-- An admitted call panics, or executes at once, or is queued. -/
theorem turn_takeCall {m : Mediation} (hcls : m.cls ≠ .forbidden)
    (hcheck : (g.checkBudgets env m.grant m.call).1 = none) :
    Turn env g m ((g.checkBudgets env m.grant m.call).2.takeCall env m.call m.cls executor) := by
  obtain ⟨ticks, recentCalls, dailyUsage, hfields⟩ := counted_eq env g m
  have hseq : (g.counted env m).2.nextCallSeq = g.nextCallSeq := by rw [hfields]
  have hrequest : (g.counted env m).2.nextRequestId = g.nextRequestId := by rw [hfields]
  have hpending : (g.counted env m).2.pending = g.pending := by rw [hfields]
  -- an overflow stops the turn after the call was counted
  have hpanic : ((g.counted env m).1 = false ∨ increment env g.nextCallSeq = none) →
      Turn env g m ((g.counted env m).2.panicked [] []) := by
    intro hoverflow
    apply Turn.panicked (g.counted env m).2.store g.nextCallSeq ⟨hcls, hcheck⟩
    · rcases hoverflow with h | h
      · exact .inl h
      · exact .inr (.inl h)
    · exact .inl rfl
    · rw [← hseq]
      rfl
    · rfl
    · rfl
  have hnone : (g.counted env m).2.nextCallId env = none → increment env g.nextCallSeq = none := by
    intro h
    rw [← hseq]
    exact Option.map_eq_none_iff.mp h
  unfold takeCall
  show Turn env g m (if (g.counted env m).1 then _ else _)
  by_cases hcounted : (g.counted env m).1 = true
  · rw [if_pos hcounted]
    cases hm : m.cls with
    | forbidden => exact absurd hm hcls
    | auto =>
        show Turn env g m ((g.counted env m).2.executeNow env m.call executor)
        unfold executeNow
        cases hid : (g.counted env m).2.nextCallId env with
        | none => exact hpanic (.inr (hnone hid))
        | some next =>
            obtain ⟨callId, g'⟩ := next
            obtain ⟨seq, hnext, hcallId, rfl⟩ := nextCallId_eq_some hid
            rw [hseq] at hnext hcallId
            obtain ⟨store, metrics, hgateway⟩ := execute_gateway env
              (({ (g.counted env m).2 with nextCallSeq := seq } : Gateway).audit env m.call.agent
                (.autoAllowed m.call.tool))
            apply Turn.executed store _ metrics seq _ ⟨hm, hcheck⟩ hcounted hnext hgateway
            · exact execute_invoked
            · intro a ha
              obtain ⟨⟨events, heq⟩, hgauge⟩ := of_execute_answer ha
              rw [hcallId] at heq
              exact ⟨⟨events, heq⟩, hgauge⟩
    | review =>
        show Turn env g m ((g.counted env m).2.queueForReview env m.call)
        unfold queueForReview
        cases hid : (g.counted env m).2.nextCallId env with
        | none => exact hpanic (.inr (hnone hid))
        | some next =>
            obtain ⟨callId, g'⟩ := next
            obtain ⟨seq, hnext, hcallId, rfl⟩ := nextCallId_eq_some hid
            rw [hseq] at hnext hcallId
            simp only [hrequest, hpending]
            cases hinc : increment env g.nextRequestId with
            | none =>
                exact .panicked _ seq ⟨hcls, hcheck⟩ (.inr (.inr ⟨hm, hinc⟩)) (.inr hnext)
                  (by rw [← hrequest, ← hpending]; rfl) rfl rfl
            | some request =>
                obtain ⟨metrics, hgateway⟩ := conclude_gateway env
                  { ({ (g.counted env m).2 with
                      nextCallSeq := seq, nextRequestId := request } : Gateway).audit env m.call.agent
                        (.approvalRequested m.call.tool) with
                    pending := g.pending ++ [⟨g.nextRequestId, callId, m.call⟩] }
                rw [hcallId] at hgateway ⊢
                apply Turn.queued _ metrics seq request ⟨hm, hcheck⟩ hcounted hnext hinc hgateway
                · exact conclude_invoked
                · exact fun a ha => of_conclude_answer ha
  · rw [if_neg hcounted]
    exact hpanic (.inl ((Bool.not_eq_true _).mp hcounted))

theorem turn_mediate (m : Mediation) :
    Turn env g m (g.mediate env m.grant m.call m.cls executor) := by
  unfold mediate
  by_cases hforbidden : m.cls = .forbidden
  · rw [if_pos hforbidden]
    obtain ⟨metrics, hgateway⟩ := conclude_gateway env
      (g.audit env m.call.agent (scopeRefusal m.call).line)
    exact .refused g _ metrics (.inl ⟨hforbidden, rfl⟩) hgateway conclude_invoked
      fun a ha => ⟨⟨_, (of_conclude_answer ha).1⟩, (of_conclude_answer ha).2⟩
  · rw [if_neg hforbidden]
    cases hcheck : (g.checkBudgets env m.grant m.call).1 with
    | some refusal =>
        have hpair : g.checkBudgets env m.grant m.call =
            (some refusal, (g.checkBudgets env m.grant m.call).2) := by rw [← hcheck]
        rw [hpair]
        obtain ⟨metrics, hgateway⟩ := conclude_gateway env
          ((g.checkBudgets env m.grant m.call).2.audit env m.call.agent refusal.line)
        have hsome : (g.checkBudgets env m.grant m.call).1 ≠ none := by
          rw [hcheck]
          exact Option.some_ne_none _
        exact .refused _ _ metrics (.inr ⟨hforbidden, hsome, rfl⟩) hgateway conclude_invoked
          fun a ha => ⟨⟨_, (of_conclude_answer ha).1⟩, (of_conclude_answer ha).2⟩
    | none =>
        have hpair : g.checkBudgets env m.grant m.call =
            (none, (g.checkBudgets env m.grant m.call).2) := by rw [← hcheck]
        rw [hpair]
        exact turn_takeCall hforbidden hcheck

theorem noteDailyCall_store (env : GatewayEnv) (g : Gateway) (agent : Str) (store : Store Bytes) :
    ({ g with store } : Gateway).noteDailyCall env agent =
      ((g.noteDailyCall env agent).1, { (g.noteDailyCall env agent).2 with store }) := by
  have hentry : (({ g with store } : Gateway).dailyEntry env agent).1 = (g.dailyEntry env agent).1 :=
    rfl
  unfold noteDailyCall
  simp only [hentry]
  by_cases hoverflow :
      env.overflowChecks = true ∧ (g.dailyEntry env agent).1.calls.toNat + 1 = 2 ^ 32
  · rw [if_pos hoverflow, if_pos hoverflow]
    rfl
  · rw [if_neg hoverflow, if_neg hoverflow]
    rfl

theorem counted_store (env : GatewayEnv) (g : Gateway) (m : Mediation) (store : Store Bytes) :
    ({ g with store } : Gateway).counted env m =
      ((g.counted env m).1, { (g.counted env m).2 with store }) := by
  rw [counted, checkBudgets_store]
  exact noteDailyCall_store env ((g.checkBudgets env m.grant m.call).2.noteCall env
    m.call.agent.asStr) m.call.agent.asStr store

/-- What was in the store, and what was audited before, does not matter for the turn. -/
theorem Turn.of_store {m : Mediation} {store : Store Bytes} {r : Reply}
    {audited : List (AgentId × AuditLine)} (h : Turn env { g with store } m r) :
    Turn env g m { r with audited } := by
  have hcheck := checkBudgets_store env g m.grant m.call store
  have hcounted := counted_store env g m store
  cases h with
  | refused g' store' metrics hchecked hgateway hinvoked hanswer =>
      rw [hcheck] at hchecked
      rcases hchecked with ⟨hcls, rfl⟩ | ⟨hcls, hsome, rfl⟩
      · exact .refused g store' metrics (.inl ⟨hcls, rfl⟩) hgateway hinvoked hanswer
      · exact .refused _ store' metrics (.inr ⟨hcls, hsome, rfl⟩) hgateway hinvoked hanswer
  | panicked store' seq hpassed hoverflow hseq hgateway hinvoked hanswer =>
      rw [hcheck] at hpassed
      rw [hcounted] at hoverflow hgateway
      exact .panicked store' seq hpassed hoverflow hseq hgateway hinvoked hanswer
  | executed store' start metrics seq tokens hpassed hok hseq hgateway hinvoked hanswer =>
      rw [hcheck] at hpassed
      rw [hcounted] at hok hgateway hinvoked
      exact .executed store' start metrics seq tokens hpassed hok hseq hgateway hinvoked hanswer
  | queued store' metrics seq request hpassed hok hseq hrequest hgateway hinvoked hanswer =>
      rw [hcheck] at hpassed
      rw [hcounted] at hok hgateway
      exact .queued store' metrics seq request hpassed hok hseq hrequest hgateway hinvoked hanswer

end Gateway

/-! ## Calls of the gateway -/

section

variable {env : GatewayEnv} {g : Gateway} {op : GatewayCall}

open Gateway

theorem turn_perform (env : GatewayEnv) (g : Gateway) {m : Mediation} (hm : op.mediated = some m) : Turn env g m (perform env g op) := by
  cases op with
  | handle grant call executor =>
      obtain rfl := Option.some_inj.mp hm
      exact turn_mediate (.ofGrant call grant)
  | handleManaged registration grant call executor =>
      by_cases hmanaged : registration.manages call.agent = true
      · rw [GatewayCall.mediated, if_pos hmanaged] at hm
        obtain rfl := Option.some_inj.mp hm
        show Turn env g _ (g.handleManaged env registration grant call executor)
        rw [Gateway.handleManaged, if_pos hmanaged]
        exact turn_mediate (.ofGrant call grant)
      · rw [GatewayCall.mediated, if_neg hmanaged] at hm
        exact absurd hm (by simp)
  | handleInRoom roster call executor =>
      obtain ⟨grant, hgrant, rfl⟩ := Option.map_eq_some_iff.mp hm
      show Turn env g _ (g.handleInRoom env roster call executor)
      rw [Gateway.handleInRoom, hgrant]
      exact turn_mediate (.ofGrant call grant)
  | handleDelegated roster orchestrator call executor =>
      by_cases hknown : roster.contains orchestrator = true
      · rw [GatewayCall.mediated, if_pos hknown] at hm
        obtain ⟨grant, hgrant, rfl⟩ := Option.map_eq_some_iff.mp hm
        show Turn env g _ (g.handleDelegated env roster orchestrator call executor)
        rw [Gateway.handleDelegated, hknown, hgrant]
        -- the line about the delegation goes to the store first
        exact Turn.of_store (turn_mediate (.ofGrant call grant))
      · rw [GatewayCall.mediated, if_neg hknown] at hm
        exact absurd hm (by simp)
  | handleWithPolicy grant policy call executor =>
      simp only [GatewayCall.mediated] at hm
      show Turn env g m (g.handleWithPolicy env grant policy call executor)
      unfold Gateway.handleWithPolicy
      by_cases hbase : grant.classify call.tool call.room = .forbidden
      · rw [if_neg (fun h => h.1 hbase)] at hm
        obtain rfl := Option.some_inj.mp hm
        simp only [hbase, if_true]
        exact turn_mediate ⟨grant, call, .forbidden⟩
      · by_cases hdeny : policy.evaluate call.tool call.room.asStr call.argsSummary = .deny
        · rw [if_pos ⟨hbase, hdeny⟩] at hm
          exact absurd hm (by simp)
        · rw [if_neg (fun h => hdeny h.2)] at hm
          obtain rfl := Option.some_inj.mp hm
          simp only [if_neg hbase, if_neg hdeny]
          exact turn_mediate ⟨grant, call, refine _ _⟩
  | resolve requestId approved decidedBy executor => exact absurd hm (by simp [GatewayCall.mediated])

theorem of_dismiss_answer {agent : AgentId} {line : AuditLine} {outcome : Str}
    {answer answer' : Except GatewayError Outcome}
    (h : (g.dismiss env agent line outcome answer).answer = some answer') :
    answer' = answer ∧ GaugeExact (g.dismiss env agent line outcome answer).gateway :=
  of_conclude_answer h

theorem dismiss_gateway (env : GatewayEnv) (g : Gateway) (agent : AgentId) (line : AuditLine)
    (outcome : Str) (answer : Except GatewayError Outcome) : ∃ store metrics,
      (g.dismiss env agent line outcome answer).gateway = { g with store, metrics } := by
  obtain ⟨metrics, h⟩ := conclude_gateway env (g.audit env agent line)
  exact ⟨_, metrics, h⟩

theorem dismissed_of_not_mediated (env : GatewayEnv) (g : Gateway) (hm : op.mediated = none)
    (hop : ∀ id approved decidedBy executor, op ≠ .resolve id approved decidedBy executor) :
    ∃ agent line outcome answer, perform env g op = g.dismiss env agent line outcome answer := by
  have hunknown : ∀ agent, perform env g op = g.refuseUnknown env agent →
      ∃ agent line outcome answer, perform env g op = g.dismiss env agent line outcome answer :=
    fun agent h => ⟨agent, _, _, _, h⟩
  cases op with
  | handle grant call executor => exact absurd hm (by simp [GatewayCall.mediated])
  | handleManaged registration grant call executor =>
      -- an agent that the registration does not manage
      have hmanaged : ¬ registration.manages call.agent = true := by
        intro hmanaged
        rw [GatewayCall.mediated, if_pos hmanaged] at hm
        exact absurd hm (by simp)
      exact ⟨_, _, _, _, if_neg hmanaged⟩
  | handleInRoom roster call executor =>
      have hgrant : roster.grantFor call.agent = none := Option.map_eq_none_iff.mp hm
      apply hunknown call.agent
      show g.handleInRoom env roster call executor = _
      rw [Gateway.handleInRoom, hgrant]
  | handleDelegated roster orchestrator call executor =>
      by_cases hknown : roster.contains orchestrator = true
      · -- the orchestrator is on the roster, and its worker is not
        rw [GatewayCall.mediated, if_pos hknown] at hm
        have hgrant : roster.grantFor call.agent = none := Option.map_eq_none_iff.mp hm
        apply hunknown call.agent
        show g.handleDelegated env roster orchestrator call executor = _
        rw [Gateway.handleDelegated, hknown, hgrant]
        rfl
      · apply hunknown orchestrator
        show g.handleDelegated env roster orchestrator call executor = _
        rw [Gateway.handleDelegated, (Bool.not_eq_true _).mp hknown]
        rfl
  | handleWithPolicy grant policy call executor =>
      -- the policy denies, as nothing else keeps it from the gateway
      simp only [GatewayCall.mediated] at hm
      by_cases hdeny : grant.classify call.tool call.room ≠ .forbidden ∧
          policy.evaluate call.tool call.room.asStr call.argsSummary = .deny
      · have hperform : perform env g (.handleWithPolicy grant policy call executor) =
            g.dismiss env call.agent (.policyDenied call.tool call.room) "denied_policy"
              (.ok (.denied (call.tool ++ " denied by policy in ".toList ++ call.room.asStr) [])) := by
          show g.handleWithPolicy env grant policy call executor = _
          unfold Gateway.handleWithPolicy
          simp only [if_neg hdeny.1, if_pos hdeny.2]
          rfl
        exact ⟨_, _, _, _, hperform⟩
      · rw [if_neg hdeny] at hm
        exact absurd hm (by simp)
  | resolve id approved decidedBy executor => exact absurd rfl (hop id approved decidedBy executor)

/-! ## Decisions -/

/-- The request that a decision is about. -/
def requestOf (g : Gateway) (requestId : UInt64) : Option PendingApproval :=
  g.pending.find? fun p => p.requestId = requestId

/-- The gateway without a request. -/
def withoutRequest (g : Gateway) (requestId : UInt64) : Gateway :=
  { g with pending := g.pending.eraseP fun p => p.requestId = requestId }

variable {requestId : UInt64} {approved : Bool} {decidedBy : Str} {executor : ToolExecutor}

/-- A decision on an unknown request changes nothing. -/
theorem perform_resolve_unknown (h : requestOf g requestId = none) :
    perform env g (.resolve requestId approved decidedBy executor) =
      { gateway := g, audited := [], invoked := []
        answer := some (.error (.unknownRequest requestId)) } := by
  show g.resolve env requestId approved decidedBy executor = _
  rw [requestOf] at h
  rw [Gateway.resolve, h]

variable {p : PendingApproval}

theorem perform_resolve_approved (h : requestOf g requestId = some p) :
    perform env g (.resolve requestId true decidedBy executor) =
      ((withoutRequest g requestId).audit env p.call.agent (.approvedBy decidedBy p.call.tool)).execute
        env p.call executor p.callId [(p.call.agent, .approvedBy decidedBy p.call.tool)]
        (ReflectedEvent.approval p.callId decidedBy true) := by
  show g.resolve env requestId true decidedBy executor = _
  rw [requestOf] at h
  rw [Gateway.resolve, h]
  rfl

theorem perform_resolve_denied (h : requestOf g requestId = some p) :
    perform env g (.resolve requestId false decidedBy executor) =
      (withoutRequest g requestId).dismiss env p.call.agent (.deniedBy decidedBy p.call.tool)
        "denied_human" (.ok (.denied (p.call.tool ++ " denied by ".toList ++ decidedBy)
          [ReflectedEvent.approval p.callId decidedBy false])) := by
  show g.resolve env requestId false decidedBy executor = _
  rw [requestOf] at h
  rw [Gateway.resolve, h]
  rfl

/-- What a decision on a request does with the gateway: it takes the request from the queue, and an
approved call is accounted for. -/
def Settles (env : GatewayEnv) (g : Gateway) (p : PendingApproval) (requestId : UInt64)
    (approved : Bool) (g' : Gateway) : Prop :=
  ∃ tokens store metrics, g' =
    { (if approved then (withoutRequest g requestId).noteTokens env p.call.agent.asStr tokens
      else withoutRequest g requestId) with store, metrics }

/-- A decision settles its request, and executes the call if it approves. -/
theorem perform_resolve_known (h : requestOf g requestId = some p) :
    let r := perform env g (.resolve requestId approved decidedBy executor)
    Settles env g p requestId approved r.gateway ∧
    (∃ store, r.invoked =
      if approved then [({ withoutRequest g requestId with store }, p.call)] else []) ∧
    ∀ a, r.answer = some a → (∀ id, a ≠ .error (.unknownRequest id)) ∧ GaugeExact r.gateway := by
  cases approved with
  | true =>
      rw [perform_resolve_approved h]
      refine ⟨?_, ?_, ?_⟩
      · obtain ⟨store, metrics, hgateway⟩ := execute_gateway env
          ((withoutRequest g requestId).audit env p.call.agent (.approvedBy decidedBy p.call.tool))
        exact ⟨_, store, metrics, hgateway⟩
      · exact ⟨_, execute_invoked⟩
      · intro a ha
        obtain ⟨⟨events, rfl⟩, hgauge⟩ := of_execute_answer ha
        exact ⟨fun id h => (nomatch h), hgauge⟩
  | false =>
      rw [perform_resolve_denied h]
      refine ⟨?_, ⟨g.store, ?_⟩, ?_⟩
      · obtain ⟨store, metrics, hgateway⟩ := dismiss_gateway env
          (withoutRequest g requestId) p.call.agent _ _ _
        exact ⟨0, store, metrics, hgateway⟩
      · exact conclude_invoked
      · intro a ha
        obtain ⟨rfl, hgauge⟩ := of_dismiss_answer ha
        exact ⟨fun id h => (nomatch h), hgauge⟩

theorem Settles.fields {g' : Gateway} (h : Settles env g p requestId approved g') :
    ∃ store ticks dailyUsage metrics,
      g' = { withoutRequest g requestId with store, ticks, dailyUsage, metrics } := by
  obtain ⟨tokens, store, metrics, rfl⟩ := h
  obtain ⟨dailyUsage, htokens⟩ := @noteTokens_eq env (withoutRequest g requestId) p.call.agent.asStr tokens
  split
  · rw [htokens]
    exact ⟨store, _, dailyUsage, metrics, rfl⟩
  · exact ⟨store, g.ticks, g.dailyUsage, metrics, rfl⟩

/-- What a call of the gateway can do. -/
inductive Course (env : GatewayEnv) (g : Gateway) (op : GatewayCall) : Prop
  | turn (m : Mediation)
      (hm : op.mediated = some m)
      (hturn : Turn env g m (perform env g op))
  | dismissed (agent : AgentId) (line : AuditLine) (outcome : Str)
      (answer : Except GatewayError Outcome)
      (hm : op.mediated = none)
      (hop : ∀ id approved decidedBy executor, op ≠ .resolve id approved decidedBy executor)
      (hperform : perform env g op = g.dismiss env agent line outcome answer)
  | unknown (requestId : UInt64) (approved : Bool) (decidedBy : Str) (executor : ToolExecutor)
      (hop : op = .resolve requestId approved decidedBy executor)
      (hnone : requestOf g requestId = none)
      (hperform : perform env g op = { gateway := g, audited := [], invoked := []
                                       answer := some (.error (.unknownRequest requestId)) })
  | settled (requestId : UInt64) (approved : Bool) (decidedBy : Str) (executor : ToolExecutor)
      (p : PendingApproval)
      (hop : op = .resolve requestId approved decidedBy executor)
      (hp : requestOf g requestId = some p)
      (hgateway : Settles env g p requestId approved (perform env g op).gateway)
      (hinvoked : ∃ store, (perform env g op).invoked =
        if approved then [({ withoutRequest g requestId with store }, p.call)] else [])
      (hanswer : ∀ a, (perform env g op).answer = some a →
        (∀ id, a ≠ .error (.unknownRequest id)) ∧ GaugeExact (perform env g op).gateway)

theorem course (env : GatewayEnv) (g : Gateway) (op : GatewayCall) : Course env g op := by
  cases hm : op.mediated with
  | some m => exact .turn m hm (turn_perform env g hm)
  | none =>
      by_cases hop : ∃ id approved decidedBy executor, op = .resolve id approved decidedBy executor
      · obtain ⟨id, approved, decidedBy, executor, rfl⟩ := hop
        cases hp : requestOf g id with
        | none => exact .unknown id approved decidedBy executor rfl hp (perform_resolve_unknown hp)
        | some p =>
            obtain ⟨hgateway, hinvoked, hanswer⟩ := perform_resolve_known hp
            exact .settled id approved decidedBy executor p rfl hp hgateway hinvoked hanswer
      · have hop : ∀ id approved decidedBy executor, op ≠ .resolve id approved decidedBy executor :=
          fun id approved decidedBy executor h => hop ⟨id, approved, decidedBy, executor, h⟩
        obtain ⟨agent, line, outcome, answer, hperform⟩ := dismissed_of_not_mediated env g hm hop
        exact .dismissed agent line outcome answer hm hop hperform

theorem dismiss_invoked (env : GatewayEnv) (g : Gateway) (agent : AgentId) (line : AuditLine)
    (outcome : Str) (answer : Except GatewayError Outcome) :
    (g.dismiss env agent line outcome answer).invoked = [] :=
  conclude_invoked

end

end GaussMatrix.Agent
