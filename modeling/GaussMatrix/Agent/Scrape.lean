import GaussMatrix.Agent.Ledgers
import GaussMatrix.Obs.Prometheus

/-!
# The metrics of the gateway as they are scraped

The registry that a run leaves holds plain names only, so that its text is read back: a scrape tells how
many calls were made.
-/

namespace GaussMatrix.Agent

open Library Util Audit Obs

/-- A registry with counters under plain names, and no gauge but that of the pending approvals. -/
structure Registered (m : Metrics) : Prop where
  counters : ∀ s ∈ m.counters.keys, s.Plain ∧ s.name ≠ "gm_agent_pending_approvals".toList
  gauges : ∀ s ∈ m.gauges.keys, s = Series.new "gm_agent_pending_approvals" []

section

variable {env : GatewayEnv} {g : Gateway} {m m' : Metrics} {p : Part} {name : Str}
  {labels : List (Str × Str)}

theorem isName_of_counter (hname : name ∈ p.counters) :
    IsName name ∧ name ≠ "gm_agent_pending_approvals".toList := by
  cases p <;> revert name <;> decide

theorem isName_keys : IsName "outcome" ∧ IsName "agent" ∧ IsName "op" ∧ IsName "result" := by decide

theorem isName_pending : IsName "gm_agent_pending_approvals" := by decide

theorem Registered.plain (h : Registered m) : m.Plain := by
  refine ⟨fun s hs => (h.counters s hs).1, ?_⟩
  intro s hs
  rw [h.gauges s hs]
  exact plain_new isName_pending (by simp)

theorem Registered.ne (h : Registered m) :
    ∀ s ∈ m.counters.keys, ∀ t ∈ m.gauges.keys, s.name ≠ t.name := by
  intro s hs t ht
  rw [h.gauges t ht]
  exact (h.counters s hs).2

theorem registered_empty : Registered Metrics.empty :=
  ⟨fun _ h => absurd h List.not_mem_nil, fun _ h => absurd h List.not_mem_nil⟩

theorem Registered.add (h : Registered m) {checks : Bool} {n : UInt64}
    (hname : name ∈ p.counters) (hlabels : ∀ label ∈ labels, IsName label.1)
    (hadd : m.addCounter checks name labels n = some m') : Registered m' := by
  simp only [Metrics.addCounter] at hadd
  split at hadd
  · cases hadd
  · obtain rfl := Option.some.inj hadd
    refine ⟨?_, h.gauges⟩
    intro s hs
    rcases (SortedMap.mem_keys_insert _ _ _ _).mp hs with rfl | hs
    · have hcounter := isName_of_counter hname
      exact ⟨plain_new hcounter.1 hlabels, hcounter.2⟩
    · exact h.counters s hs

theorem Registered.setGauge (h : Registered m) (value : Int) :
    Registered (m.setGauge "gm_agent_pending_approvals" [] value) := by
  refine ⟨h.counters, ?_⟩
  intro s hs
  rcases (SortedMap.mem_keys_insert _ _ _ _).mp hs with rfl | hs
  · rfl
  · exact h.gauges s hs

/-! ## Calls keep it so -/

variable {grant : CapabilityGrant} {call : ToolCall} {executor : ToolExecutor}
  {audited : List (AgentId × AuditLine)} {invoked : List (Gateway × ToolCall)}

theorem registered_conclude (h : Registered g.metrics) (outcome : Str)
    (answer : Except GatewayError Outcome) :
    Registered (g.conclude env audited invoked outcome answer).gateway.metrics := by
  unfold Gateway.conclude Gateway.recordOutcome
  cases hadd : g.metrics.incCounter env.overflowChecks "gm_agent_actions_total"
      [("outcome".toList, outcome)] with
  | none => exact h
  | some metrics =>
      have hadded := h.add (p := .mediation) List.mem_cons_self
        (List.forall_mem_singleton.mpr isName_keys.1) hadd
      exact hadded.setGauge _

theorem registered_dismiss (h : Registered g.metrics) (agent : AgentId) (line : AuditLine)
    (outcome : Str) (answer : Except GatewayError Outcome) :
    Registered (g.dismiss env agent line outcome answer).gateway.metrics := by
  apply registered_conclude
  exact h

theorem registered_execute (h : Registered g.metrics) (callId : Str) (event : ReflectedEvent) :
    Registered (g.execute env call executor callId audited event).gateway.metrics := by
  unfold Gateway.execute
  have hmetrics : ∀ line, ((g.noteTokens env call.agent.asStr (executor call).tokens).audit env
      call.agent line).metrics = g.metrics := fun _ => rfl
  simp only [hmetrics]
  cases hadd : g.metrics.addCounter env.overflowChecks "gm_agent_tokens_total"
      [("agent".toList, call.agent.asStr)] (executor call).tokens with
  | none => exact h
  | some metrics =>
      apply registered_conclude
      exact h.add (p := .mediation) (List.mem_cons_of_mem _ List.mem_cons_self)
        (List.forall_mem_singleton.mpr isName_keys.2.1) hadd

theorem registered_takeCall (h : Registered g.metrics) (cls : ActionClass) :
    Registered (g.takeCall env call cls executor).gateway.metrics := by
  obtain ⟨dailyUsage, hfields⟩ := Gateway.noteDailyCall_eq env (g.noteCall env call.agent.asStr)
    call.agent.asStr
  have hmetrics : ((g.noteCall env call.agent.asStr).noteDailyCall env call.agent.asStr).2.metrics =
      g.metrics := by rw [hfields]; rfl
  unfold Gateway.takeCall
  rw [← hmetrics] at h
  generalize (g.noteCall env call.agent.asStr).noteDailyCall env call.agent.asStr = counted at h
  obtain ⟨counted, g₁⟩ := counted
  cases counted with
  | false => exact h
  | true =>
      cases cls with
      | forbidden => exact h
      | auto =>
          simp only [if_true, Gateway.executeNow, Gateway.nextCallId]
          cases Gateway.increment env g₁.nextCallSeq with
          | none => exact h
          | some next =>
              apply registered_execute
              exact h
      | review =>
          simp only [if_true, Gateway.queueForReview, Gateway.nextCallId]
          cases Gateway.increment env g₁.nextCallSeq with
          | none => exact h
          | some seq =>
              simp only [Option.map_some]
              cases Gateway.increment env g₁.nextRequestId with
              | none => exact h
              | some next =>
                  apply registered_conclude
                  exact h

theorem registered_mediate (h : Registered g.metrics) (cls : ActionClass) :
    Registered (g.mediate env grant call cls executor).gateway.metrics := by
  obtain ⟨ticks, recentCalls, dailyUsage, hfields⟩ := Gateway.checkBudgets_eq env g grant call
  have hmetrics : (g.checkBudgets env grant call).2.metrics = g.metrics := by rw [hfields]
  unfold Gateway.mediate
  split
  · exact registered_dismiss h _ _ _ _
  · rw [← hmetrics] at h
    generalize g.checkBudgets env grant call = checked at h
    obtain ⟨refusal, g₁⟩ := checked
    cases refusal with
    | some refusal => exact registered_dismiss h _ _ _ _
    | none => exact registered_takeCall h cls

theorem registered_perform (h : Registered g.metrics) (op : GatewayCall) :
    Registered (perform env g op).gateway.metrics := by
  cases op with
  | handle grant call executor => exact registered_mediate h _
  | handleManaged registration grant call executor =>
      simp only [perform, Gateway.handleManaged]
      split
      · exact registered_mediate h _
      · exact registered_dismiss h _ _ _ _
  | handleInRoom roster call executor =>
      simp only [perform, Gateway.handleInRoom]
      split
      · exact registered_mediate h _
      · exact registered_dismiss h _ _ _ _
  | handleDelegated roster orchestrator call executor =>
      simp only [perform, Gateway.handleDelegated]
      split
      · exact registered_dismiss h _ _ _ _
      · cases roster.grantFor call.agent with
        | none => exact registered_dismiss h _ _ _ _
        | some grant =>
            apply registered_mediate
            exact h
  | handleWithPolicy grant policy call executor =>
      simp only [perform, Gateway.handleWithPolicy]
      split
      · exact registered_mediate h _
      · split
        · exact registered_dismiss h _ _ _ _
        · exact registered_mediate h _
  | resolve requestId approved decidedBy executor =>
      simp only [perform, Gateway.resolve]
      cases g.pending.find? fun p => p.requestId = requestId with
      | none => exact h
      | some pending =>
          simp only []
          split
          · apply registered_execute
            exact h
          · apply registered_dismiss
            exact h

theorem registered_countAnd {α : Type} (h : Registered g.metrics) (hname : name ∈ p.counters)
    (hlabels : ∀ label ∈ labels, IsName label.1) (answer : α) :
    Registered (g.countAnd env name labels answer).1.metrics := by
  unfold Gateway.countAnd
  cases hadd : g.metrics.incCounter env.overflowChecks name labels with
  | none => exact h
  | some metrics => exact h.add hname hlabels hadd

theorem registered_concludeMemory {α : Type} (h : Registered g.metrics) (opName result : Str)
    (answer : Except MemoryError α) :
    Registered (g.concludeMemory env opName result answer).gateway.metrics := by
  rw [(concludeMemory_eq opName result answer).1]
  apply registered_countAnd (p := .memory) h List.mem_cons_self
  rw [List.forall_mem_cons, List.forall_mem_singleton]
  exact isName_keys.2.2

theorem registered_denyMemory {α : Type} (h : Registered g.metrics) (room : RoomId)
    (opName item : Str) :
    Registered (g.denyMemory env grant room opName item : MemoryReply α).gateway.metrics := by
  apply registered_concludeMemory
  exact h

theorem registered_memoryStep (h : Registered g.metrics) (op : MemoryOp) :
    Registered (memoryStep env g op).metrics := by
  cases op with
  | remember grant room key value =>
      simp only [memoryStep, Gateway.remember, Memory.store, Memory.checkKey]
      split
      · exact registered_denyMemory h _ _ _
      · by_cases hkey : sep ∈ key
        · rw [if_pos hkey]
          exact h
        · rw [if_neg hkey]
          apply registered_concludeMemory
          exact h
  | recallItem grant room key =>
      simp only [memoryStep, Gateway.recallItem]
      split
      · exact registered_denyMemory h _ _ _
      · apply registered_concludeMemory
        exact h
  | recallAll grant room =>
      simp only [memoryStep, Gateway.recallAll]
      split
      · exact registered_denyMemory h _ _ _
      · apply registered_concludeMemory
        exact h
  | forget grant room key =>
      simp only [memoryStep, Gateway.forget]
      split
      · exact registered_denyMemory h _ _ _
      · apply registered_concludeMemory
        exact h

theorem registered_agentStep (h : Registered g.metrics) (op : AgentOp) :
    Registered (agentStep env g op).metrics := by
  have hnone : ∀ label ∈ ([] : List (Str × Str)), IsName label.1 :=
    fun _ h => absurd h List.not_mem_nil
  cases op with
  | mediate op => exact registered_perform h op
  | memory op => exact registered_memoryStep h op
  | listTools grant catalog =>
      simp only [agentStep, serveOp_listTools]
      refine registered_countAnd (p := .toolLists) ?_ List.mem_cons_self hnone _
      exact h
  | listResources grant =>
      refine registered_countAnd (p := .resourceLists) ?_ List.mem_cons_self hnone _
      exact h
  | readResource grant uri ctx =>
      have hread : ∀ {g₁ : Gateway} result answer, g₁.metrics = g.metrics →
          Registered (g₁.countRead env result answer).1.metrics := by
        intro g₁ result answer hmetrics
        rw [← hmetrics] at h
        exact registered_countAnd (p := .resourceReads) h List.mem_cons_self
          (List.forall_mem_singleton.mpr isName_keys.2.2.2) _
      simp only [agentStep, serveOp, Gateway.readResource]
      cases roomFromUri uri with
      | none => exact hread _ _ rfl
      | some room =>
          simp only []
          split <;> exact hread _ _ rfl

theorem registered_run (env : GatewayEnv) (store : Store Bytes) (ops : List AgentOp) :
    Registered (run (agentStep env) (.withStore store) ops).metrics := by
  refine run_of_step (P := fun g : Gateway => Registered g.metrics) ?_ registered_empty ops
  exact fun _ op h => registered_agentStep h op

/-! ## What a scrape tells -/

/-- The sample of a counter. -/
def counterSample (name : Str) (labels : List (Str × Str)) (value : Str) : Sample :=
  ⟨"counter", name, (Series.new name labels).labels.map ofLex, value⟩

theorem counterSample_mem_iff (name : Str) (labels : List (Str × Str)) (value : Str) :
    counterSample name labels value ∈ m.samples ↔
      ∃ v, m.counters.get (Series.new name labels) = some v ∧ value = decimal v.toNat := by
  have hkind : "counter".toList ≠ "gauge".toList := by decide
  rw [Metrics.samples, List.mem_append, List.mem_map, List.mem_map]
  constructor
  · rintro (⟨⟨s, v⟩, hentry, hsample⟩ | ⟨⟨s, v⟩, -, hsample⟩)
    · simp only [sampleOf, counterSample, Sample.mk.injEq, true_and] at hsample
      obtain ⟨hname, hlabels, hvalue⟩ := hsample
      have hseries : s = Series.new name labels := by
        cases s
        rw [Series.new, Series.mk.injEq]
        exact ⟨hname, List.map_injective_iff.mpr ofLex.injective hlabels⟩
      rw [SortedMap.mem_entries_iff, hseries] at hentry
      exact ⟨v, hentry, hvalue.symm⟩
    · exact absurd (congrArg Sample.kind hsample).symm hkind
  · rintro ⟨v, hget, rfl⟩
    left
    exact ⟨(Series.new name labels, v), (SortedMap.mem_entries_iff _ _ _).mpr hget, rfl⟩

/-- After every run of calls of all parts the text of the metrics is read back, with one header for each
metric; each counter outside mediation that it has a sample of is the number of calls under its series,
and every such call is in a sample. -/
theorem gateway_scraped (env : GatewayEnv) (store : Store Bytes) (ops : List AgentOp)
    (hlen : ops.length < 2 ^ 64) :
    (typedNames (run (agentStep env) (.withStore store) ops).metrics.renderPrometheus).Nodup ∧
    ∃ samples,
      readExposition (run (agentStep env) (.withStore store) ops).metrics.renderPrometheus =
        some samples ∧
      ∀ name labels, name ∉ Part.mediation.counters →
        (∀ value, counterSample name labels value ∈ samples →
          value = decimal (countOver ops name labels)) ∧
        (countOver ops name labels ≠ 0 →
          counterSample name labels (decimal (countOver ops name labels)) ∈ samples) := by
  have hregistered := registered_run env store ops
  have hcount : ∀ name labels, name ∉ Part.mediation.counters →
      ((run (agentStep env) (.withStore store) ops).metrics.counter name labels).toNat =
        countOver ops name labels :=
    fun name labels hname => counter_run env store hlen hname labels
  generalize (run (agentStep env) (.withStore store) ops).metrics = m at hregistered hcount
  refine ⟨typedNames_nodup hregistered.plain hregistered.ne, m.samples,
    readExposition_renderPrometheus hregistered.plain, ?_⟩
  intro name labels hname
  have hvalue := hcount name labels hname
  rw [Metrics.counter] at hvalue
  constructor
  · intro value hsample
    obtain ⟨v, hget, rfl⟩ := (counterSample_mem_iff name labels value).mp hsample
    rw [hget, Option.getD_some] at hvalue
    rw [hvalue]
  · intro hpos
    apply (counterSample_mem_iff name labels _).mpr
    cases hget : m.counters.get (Series.new name labels) with
    | none =>
        rw [hget] at hvalue
        exact absurd hvalue.symm hpos
    | some v =>
        rw [hget, Option.getD_some] at hvalue
        exact ⟨v, rfl, by rw [hvalue]⟩

end

open SampleGateway in
/-- A list of resources and a read of one, as they are scraped. -/
theorem gateway_scraped_sample : ∃ samples,
    readExposition (run (agentStep env) (.withStore Store.empty)
      [.listResources (grant .auto), .readResource (grant .auto) "gauss://room/!room:host"
        history.messages]).metrics.renderPrometheus = some samples ∧
    counterSample "gm_agent_resource_lists_total" [] "1" ∈ samples := by
  obtain ⟨-, samples, hread, hcounts⟩ := gateway_scraped env Store.empty
    [.listResources (grant .auto), .readResource (grant .auto) "gauss://room/!room:host"
      history.messages] (by decide)
  exact ⟨samples, hread, (hcounts "gm_agent_resource_lists_total" [] (by decide)).2 (by decide)⟩

end GaussMatrix.Agent
