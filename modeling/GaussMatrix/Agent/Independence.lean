import GaussMatrix.Agent.Resources
import GaussMatrix.Library.Parts

/-!
# The parts of the gateway

Mediation, memory, the listings and the reads share the log and the registry of metrics.  A part is not
disturbed by the others: it answers as if it were alone.
-/

namespace GaussMatrix.Agent

open Library Util Audit Obs

inductive Part
  | mediation
  | memory
  | toolLists
  | resourceLists
  | resourceReads
  deriving DecidableEq

def AgentOp.part : AgentOp → Part
  | .mediate _ => .mediation
  | .memory _ => .memory
  | .listTools _ _ => .toolLists
  | .listResources _ => .resourceLists
  | .readResource _ _ _ => .resourceReads

/-- The names of the counters that a part adds to. -/
def Part.counters : Part → List Str
  | .mediation => ["gm_agent_actions_total", "gm_agent_tokens_total"]
  | .memory => ["gm_agent_memory_ops_total"]
  | .toolLists => ["gm_agent_tool_lists_total"]
  | .resourceLists => ["gm_agent_resource_lists_total"]
  | .resourceReads => ["gm_agent_resource_reads_total"]

/-- The two gateways look the same to a part: in its counters, in the fields of mediation, and in the
notes. -/
structure Agree (part : Part) (g g' : Gateway) : Prop where
  counters : ∀ name ∈ part.counters, ∀ labels, g.metrics.counter name labels = g'.metrics.counter name labels
  fields : part = .mediation → g' = { g with store := g'.store, metrics := g'.metrics }
  notes : part = .memory → g.store .agentMemory = g'.store .agentMemory

theorem Agree.refl (part : Part) (g : Gateway) : Agree part g g :=
  ⟨fun _ _ _ => rfl, fun _ => rfl, fun _ => rfl⟩

section

variable {env : GatewayEnv} {g g' : Gateway} {part : Part} {name : Str} {labels : List (Str × Str)}

/-! ## Counters -/

/-- What adding to a counter gives: nothing on overflow, else the sum under its series. -/
theorem counter_addCounter {checks : Bool} {m m' : Metrics} {n : UInt64}
    (h : m.addCounter checks name labels n = some m') (name' : Str) (labels' : List (Str × Str)) :
    m'.counter name' labels' =
      if Series.new name' labels' = Series.new name labels then m.counter name labels + n
      else m.counter name' labels' := by
  simp only [Metrics.addCounter] at h
  split at h
  · cases h
  · obtain rfl := Option.some.inj h
    simp only [Metrics.counter, SortedMap.get_insert]
    split <;> rfl

theorem addCounter_isSome_congr {checks : Bool} {m m' : Metrics} {n : UInt64}
    (h : m.counter name labels = m'.counter name labels) :
    (m.addCounter checks name labels n).isSome = (m'.addCounter checks name labels n).isSome := by
  simp only [Metrics.addCounter, h]
  split <;> rfl

theorem name_of_series {name' : Str} {labels' : List (Str × Str)}
    (h : Series.new name' labels' = Series.new name labels) : name' = name :=
  congrArg Series.name h

/-- Two registries before and after a part's step: its counters agree, and the others stay. -/
structure Counted (part : Part) (m m₁ m₁' : Metrics) : Prop where
  agree : ∀ name ∈ part.counters, ∀ labels, m₁.counter name labels = m₁'.counter name labels
  others : ∀ name, name ∉ part.counters → ∀ labels, m₁.counter name labels = m.counter name labels

theorem Counted.add {checks : Bool} {n : UInt64} {m m₁ m₁' m₂ m₂' : Metrics}
    (h : Counted part m m₁ m₁') (hname : name ∈ part.counters)
    (h₂ : m₁.addCounter checks name labels n = some m₂)
    (h₂' : m₁'.addCounter checks name labels n = some m₂') : Counted part m m₂ m₂' := by
  constructor
  · intro name' hname' labels'
    rw [counter_addCounter h₂, counter_addCounter h₂', h.agree name hname labels,
      h.agree name' hname' labels']
  · intro name' hname' labels'
    rw [counter_addCounter h₂, if_neg]
    · exact h.others name' hname' labels'
    · intro hseries
      exact hname' (name_of_series hseries ▸ hname)

/-- Where the counters agree, both overflow or neither does. -/
theorem Counted.add_cases (checks : Bool) (n : UInt64) {m m₁ m₁' : Metrics}
    (h : Counted part m m₁ m₁') (hname : name ∈ part.counters) (labels : List (Str × Str)) :
    (m₁.addCounter checks name labels n = none ∧ m₁'.addCounter checks name labels n = none) ∨
    ∃ m₂ m₂', m₁.addCounter checks name labels n = some m₂ ∧
      m₁'.addCounter checks name labels n = some m₂' ∧ Counted part m m₂ m₂' := by
  have hsome : (m₁.addCounter checks name labels n).isSome =
      (m₁'.addCounter checks name labels n).isSome := addCounter_isSome_congr (h.agree name hname labels)
  cases h₂ : m₁.addCounter checks name labels n with
  | none =>
      rw [h₂, Option.isSome_none, eq_comm, Option.isSome_eq_false_iff, Option.isNone_iff_eq_none]
        at hsome
      exact .inl ⟨rfl, hsome⟩
  | some m₂ =>
      rw [h₂, Option.isSome_some, eq_comm, Option.isSome_iff_exists] at hsome
      obtain ⟨m₂', h₂'⟩ := hsome
      exact .inr ⟨m₂, m₂', rfl, h₂', h.add hname h₂ h₂'⟩

/-! ## Mediation -/

/-- Two gateways with the same fields of mediation, next to a registry. -/
structure Alongside (m : Metrics) (g g' : Gateway) : Prop where
  fields : g' = { g with store := g'.store, metrics := g'.metrics }
  counted : Counted .mediation m g.metrics g'.metrics

structure ReplyAlongside (m : Metrics) (r r' : Reply) : Prop where
  gateway : Alongside m r.gateway r'.gateway
  invoked : r'.invoked.map Prod.snd = r.invoked.map Prod.snd
  answer : r'.answer = r.answer

variable {m : Metrics} {store : Store Bytes} {metrics : Metrics} {grant : CapabilityGrant}
  {call : ToolCall} {executor : ToolExecutor} {audited audited' : List (AgentId × AuditLine)}
  {invoked invoked' : List (Gateway × ToolCall)}

theorem alongside_panicked (h : Counted .mediation m g.metrics metrics)
    (hinvoked : invoked'.map Prod.snd = invoked.map Prod.snd) :
    ReplyAlongside m (g.panicked audited invoked)
      (({ g with store, metrics } : Gateway).panicked audited' invoked') :=
  ⟨⟨rfl, h⟩, hinvoked, rfl⟩

theorem alongside_conclude (h : Counted .mediation m g.metrics metrics)
    (hinvoked : invoked'.map Prod.snd = invoked.map Prod.snd) (outcome : Str)
    (answer : Except GatewayError Outcome) :
    ReplyAlongside m (g.conclude env audited invoked outcome answer)
      (({ g with store, metrics } : Gateway).conclude env audited' invoked' outcome answer) := by
  have hname : "gm_agent_actions_total".toList ∈ Part.mediation.counters := List.mem_cons_self
  unfold Gateway.conclude Gateway.recordOutcome Metrics.incCounter
  obtain ⟨hnone, hnone'⟩ | ⟨m₂, m₂', hsome, hsome', hcounted⟩ :=
    h.add_cases env.overflowChecks 1 hname [("outcome".toList, outcome)]
  · simp only [hnone, hnone']
    exact alongside_panicked h hinvoked
  · simp only [hsome, hsome']
    exact ⟨⟨rfl, hcounted.agree, hcounted.others⟩, hinvoked, rfl⟩

theorem alongside_refuse (h : Counted .mediation m g.metrics metrics) (agent : AgentId)
    (refusal : Refusal) :
    ReplyAlongside m (g.refuse env agent refusal)
      (({ g with store, metrics } : Gateway).refuse env agent refusal) := by
  apply alongside_conclude
  · exact h
  · rfl

theorem alongside_execute (h : Counted .mediation m g.metrics metrics) (callId : Str)
    (event : ReflectedEvent) :
    ReplyAlongside m (g.execute env call executor callId audited event)
      (({ g with store, metrics } : Gateway).execute env call executor callId audited' event) := by
  have hname : "gm_agent_tokens_total".toList ∈ Part.mediation.counters :=
    List.mem_cons_of_mem _ List.mem_cons_self
  have hmetrics : ∀ line, ((({ g with store, metrics } : Gateway).noteTokens env call.agent.asStr
      (executor call).tokens).audit env call.agent line).metrics = metrics := fun _ => rfl
  have hmetrics' : ∀ line, ((g.noteTokens env call.agent.asStr (executor call).tokens).audit env
      call.agent line).metrics = g.metrics := fun _ => rfl
  unfold Gateway.execute
  simp only [hmetrics, hmetrics']
  obtain ⟨hnone, hnone'⟩ | ⟨m₂, m₂', hsome, hsome', hcounted⟩ :=
    h.add_cases env.overflowChecks (executor call).tokens hname
      [("agent".toList, call.agent.asStr)]
  · simp only [hnone, hnone']
    exact ⟨⟨rfl, h⟩, rfl, rfl⟩
  · simp only [hsome, hsome']
    apply alongside_conclude
    · exact hcounted
    · rfl

theorem alongside_executeNow (h : Counted .mediation m g.metrics metrics) :
    ReplyAlongside m (g.executeNow env call executor)
      (({ g with store, metrics } : Gateway).executeNow env call executor) := by
  unfold Gateway.executeNow Gateway.nextCallId
  cases Gateway.increment env g.nextCallSeq with
  | none => exact alongside_panicked h rfl
  | some next =>
      apply alongside_execute
      exact h

theorem alongside_queueForReview (h : Counted .mediation m g.metrics metrics) :
    ReplyAlongside m (g.queueForReview env call)
      (({ g with store, metrics } : Gateway).queueForReview env call) := by
  unfold Gateway.queueForReview Gateway.nextCallId
  cases Gateway.increment env g.nextCallSeq with
  | none => exact alongside_panicked h rfl
  | some seq =>
      simp only [Option.map_some]
      cases Gateway.increment env g.nextRequestId with
      | none => exact ⟨⟨rfl, h⟩, rfl, rfl⟩
      | some next =>
          apply alongside_conclude
          · exact h
          · rfl

/-- The step reads and writes nothing of the store and of the metrics. -/
def Ignorant {α : Type} (f : Gateway → α × Gateway) : Prop :=
  ∀ g store metrics, f { g with store, metrics } = ((f g).1, { (f g).2 with store, metrics })

theorem ignorant_isRateLimited (agent : Str) (limit : UInt32) :
    Ignorant fun g => g.isRateLimited env agent limit := by
  intro g store metrics
  simp only [Gateway.isRateLimited]
  split <;> rfl

theorem ignorant_isOverDailyBudget (agent : Str) (limit : UInt32) :
    Ignorant fun g => g.isOverDailyBudget env agent limit := by
  intro g store metrics
  simp only [Gateway.isOverDailyBudget]
  split <;> rfl

theorem ignorant_isOverTokenBudget (agent : Str) (budget : UInt64) :
    Ignorant fun g => g.isOverTokenBudget env agent budget := by
  intro g store metrics
  simp only [Gateway.isOverTokenBudget]
  split <;> rfl

theorem ignorant_checkBudgets (grant : CapabilityGrant) (call : ToolCall) :
    Ignorant fun g => g.checkBudgets env grant call := by
  intro g store metrics
  have hrate := fun g limit =>
    @ignorant_isRateLimited env call.agent.asStr limit g store metrics
  have hdaily := fun g limit =>
    @ignorant_isOverDailyBudget env call.agent.asStr limit g store metrics
  have htoken := fun g budget =>
    @ignorant_isOverTokenBudget env call.agent.asStr budget g store metrics
  simp only [] at hrate hdaily htoken
  simp only [Gateway.checkBudgets, hrate, hdaily, htoken]
  split
  · rfl
  · split
    · rfl
    · split <;> rfl

theorem ignorant_noteDailyCall (agent : Str) : Ignorant fun g => g.noteDailyCall env agent := by
  intro g store metrics
  have hentry : (({ g with store, metrics } : Gateway).dailyEntry env agent).1 =
      (g.dailyEntry env agent).1 := rfl
  simp only [Gateway.noteDailyCall, hentry]
  split <;> rfl

theorem alongside_takeCall (h : Counted .mediation m g.metrics metrics) (cls : ActionClass) :
    ReplyAlongside m (g.takeCall env call cls executor)
      (({ g with store, metrics } : Gateway).takeCall env call cls executor) := by
  have hcounted : (({ g with store, metrics } : Gateway).noteCall env call.agent.asStr).noteDailyCall
      env call.agent.asStr =
        (((g.noteCall env call.agent.asStr).noteDailyCall env call.agent.asStr).1,
          { ((g.noteCall env call.agent.asStr).noteDailyCall env call.agent.asStr).2 with
            store, metrics }) :=
    ignorant_noteDailyCall call.agent.asStr (g.noteCall env call.agent.asStr) store metrics
  obtain ⟨dailyUsage, hfields⟩ := Gateway.noteDailyCall_eq env (g.noteCall env call.agent.asStr)
    call.agent.asStr
  have hmetrics : ((g.noteCall env call.agent.asStr).noteDailyCall env call.agent.asStr).2.metrics =
      g.metrics := by rw [hfields]; rfl
  unfold Gateway.takeCall
  rw [hcounted]
  rw [← hmetrics] at h
  generalize (g.noteCall env call.agent.asStr).noteDailyCall env call.agent.asStr = counted at h
  obtain ⟨counted, g₁⟩ := counted
  cases counted with
  | false => exact alongside_panicked h rfl
  | true =>
      cases cls with
      | auto => exact alongside_executeNow h
      | review => exact alongside_queueForReview h
      | forbidden => exact alongside_panicked h rfl

theorem alongside_mediate (h : Counted .mediation m g.metrics metrics) (cls : ActionClass) :
    ReplyAlongside m (g.mediate env grant call cls executor)
      (({ g with store, metrics } : Gateway).mediate env grant call cls executor) := by
  have hcheck : ({ g with store, metrics } : Gateway).checkBudgets env grant call =
      ((g.checkBudgets env grant call).1,
        { (g.checkBudgets env grant call).2 with store, metrics }) :=
    ignorant_checkBudgets grant call g store metrics
  obtain ⟨ticks, recentCalls, dailyUsage, hfields⟩ := Gateway.checkBudgets_eq env g grant call
  have hmetrics : (g.checkBudgets env grant call).2.metrics = g.metrics := by rw [hfields]
  unfold Gateway.mediate
  rw [hcheck]
  by_cases hcls : cls = .forbidden
  · rw [if_pos hcls, if_pos hcls]
    exact alongside_refuse h _ _
  · rw [if_neg hcls, if_neg hcls]
    rw [← hmetrics] at h
    generalize g.checkBudgets env grant call = checked at h
    obtain ⟨refusal, g₁⟩ := checked
    cases refusal with
    | some refusal => exact alongside_refuse h _ _
    | none => exact alongside_takeCall h cls

/-- Mediation does not depend on the store, nor on the counters of the other parts, and adds to none of
them. -/
theorem alongside_perform (h : Alongside m g g') (op : GatewayCall) :
    ReplyAlongside m (perform env g op) (perform env g' op) := by
  obtain ⟨hfields, hcounted⟩ := h
  generalize g'.store = store at hfields
  generalize g'.metrics = metrics at hfields hcounted
  subst hfields
  cases op with
  | handle grant call executor => exact alongside_mediate hcounted _
  | handleManaged registration grant call executor =>
      simp only [perform, Gateway.handleManaged]
      split
      · exact alongside_mediate hcounted _
      · exact alongside_refuse hcounted _ _
  | handleInRoom roster call executor =>
      simp only [perform, Gateway.handleInRoom]
      split
      · exact alongside_mediate hcounted _
      · apply alongside_conclude
        · exact hcounted
        · rfl
  | handleDelegated roster orchestrator call executor =>
      have hunknown : ∀ agent, ReplyAlongside m (g.refuseUnknown env agent)
          (({ g with store, metrics } : Gateway).refuseUnknown env agent) := by
        intro agent
        apply alongside_conclude
        · exact hcounted
        · rfl
      simp only [perform, Gateway.handleDelegated]
      split
      · exact hunknown orchestrator
      · cases roster.grantFor call.agent with
        | none => exact hunknown call.agent
        | some grant =>
            -- the line that names the orchestrator goes to the store
            let line := AuditLine.delegatedBy orchestrator call.tool
            have hmediate : ReplyAlongside m
                ((g.audit env call.agent line).mediate env grant call
                  (grant.classify call.tool call.room) executor)
                ((({ g with store, metrics } : Gateway).audit env call.agent line).mediate env grant
                  call (grant.classify call.tool call.room) executor) := by
              apply alongside_mediate
              exact hcounted
            exact ⟨hmediate.gateway, hmediate.invoked, hmediate.answer⟩
  | handleWithPolicy grant policy call executor =>
      simp only [perform, Gateway.handleWithPolicy]
      split
      · exact alongside_mediate hcounted _
      · split
        · exact alongside_refuse hcounted _ _
        · exact alongside_mediate hcounted _
  | resolve requestId approved decidedBy executor =>
      simp only [perform, Gateway.resolve]
      cases g.pending.find? fun p => p.requestId = requestId with
      | none => exact ⟨⟨rfl, hcounted⟩, rfl, rfl⟩
      | some pending =>
          cases approved with
          | true =>
              simp only [if_true]
              apply alongside_execute
              exact hcounted
          | false =>
              simp only [Bool.false_eq_true, if_false]
              apply alongside_conclude
              · exact hcounted
              · rfl

/-! ## The other parts -/

theorem countAnd_alongside {α : Type} (h : Counted part m g.metrics g'.metrics)
    (hname : name ∈ part.counters) (labels : List (Str × Str)) (answer : α) :
    (g.countAnd env name labels answer).2 = (g'.countAnd env name labels answer).2 ∧
    Counted part m (g.countAnd env name labels answer).1.metrics
      (g'.countAnd env name labels answer).1.metrics := by
  unfold Gateway.countAnd Metrics.incCounter
  obtain ⟨hnone, hnone'⟩ | ⟨m₂, m₂', hsome, hsome', hcounted⟩ :=
    h.add_cases env.overflowChecks 1 hname labels
  · simp only [hnone, hnone']
    exact ⟨trivial, h⟩
  · simp only [hsome, hsome']
    exact ⟨trivial, hcounted⟩

theorem concludeMemory_eq {α : Type} (op result : Str) (answer : Except MemoryError α) :
    (g.concludeMemory env op result answer).gateway =
      (g.countAnd env "gm_agent_memory_ops_total" [("op".toList, op), ("result".toList, result)]
        answer).1 ∧
    (g.concludeMemory env op result answer).answer =
      (g.countAnd env "gm_agent_memory_ops_total" [("op".toList, op), ("result".toList, result)]
        answer).2 := by
  unfold Gateway.concludeMemory Gateway.countAnd
  cases g.metrics.incCounter env.overflowChecks "gm_agent_memory_ops_total"
      [("op".toList, op), ("result".toList, result)] with
  | none => exact ⟨rfl, rfl⟩
  | some metrics => exact ⟨rfl, rfl⟩

/-- The two replies answer the same, and count the same. -/
structure MemoryAlongside {α : Type} (m : Metrics) (r r' : MemoryReply α) : Prop where
  answer : r.answer = r'.answer
  counted : Counted .memory m r.gateway.metrics r'.gateway.metrics

theorem concludeMemory_alongside {α : Type} (h : Counted .memory m g.metrics g'.metrics)
    (op result : Str) (answer : Except MemoryError α) :
    MemoryAlongside m (g.concludeMemory env op result answer)
      (g'.concludeMemory env op result answer) := by
  have hcount := @countAnd_alongside env g g' .memory _ m _ h List.mem_cons_self
    [("op".toList, op), ("result".toList, result)] answer
  obtain ⟨hgateway, hanswer⟩ := @concludeMemory_eq env g α op result answer
  obtain ⟨hgateway', hanswer'⟩ := @concludeMemory_eq env g' α op result answer
  constructor
  · rw [hanswer, hanswer']
    exact hcount.1
  · rw [hgateway, hgateway']
    exact hcount.2

theorem denyMemory_alongside {α : Type} (h : Counted .memory m g.metrics g'.metrics)
    (grant : CapabilityGrant) (room : RoomId) (op item : Str) :
    MemoryAlongside m (g.denyMemory env grant room op item : MemoryReply α)
      (g'.denyMemory env grant room op item) := by
  apply concludeMemory_alongside
  exact h

theorem remember_alongside (h : Counted .memory m g.metrics g'.metrics) (grant : CapabilityGrant)
    (room : RoomId) (key value : Str) :
    MemoryAlongside m (g.remember env grant room key value) (g'.remember env grant room key value) := by
  unfold Gateway.remember Memory.store Memory.checkKey
  split
  · exact denyMemory_alongside h _ _ _ _
  · by_cases hkey : sep ∈ key
    · rw [if_pos hkey]
      exact ⟨rfl, h⟩
    · rw [if_neg hkey]
      apply concludeMemory_alongside
      exact h

theorem recallItem_alongside (h : Counted .memory m g.metrics g'.metrics)
    (hnotes : g.store .agentMemory = g'.store .agentMemory) (grant : CapabilityGrant) (room : RoomId)
    (key : Str) :
    MemoryAlongside m (g.recallItem env grant room key) (g'.recallItem env grant room key) := by
  have hitem : Memory.recallItem g.store grant.agent room key =
      Memory.recallItem g'.store grant.agent room key := by
    rw [Memory.recallItem, Memory.recallItem, Store.get, Store.get, hnotes]
  unfold Gateway.recallItem
  rw [hitem]
  split
  · exact denyMemory_alongside h _ _ _ _
  · apply concludeMemory_alongside
    exact h

theorem recallAll_alongside (h : Counted .memory m g.metrics g'.metrics)
    (hnotes : g.store .agentMemory = g'.store .agentMemory) (grant : CapabilityGrant)
    (room : RoomId) :
    MemoryAlongside m (g.recallAll env grant room) (g'.recallAll env grant room) := by
  have hitems : Memory.recallAll g.store grant.agent room =
      Memory.recallAll g'.store grant.agent room := by
    rw [Memory.recallAll, Memory.recallAll, Store.scan, Store.scan, hnotes]
  unfold Gateway.recallAll
  rw [hitems]
  split
  · exact denyMemory_alongside h _ _ _ _
  · apply concludeMemory_alongside
    exact h

theorem forget_alongside (h : Counted .memory m g.metrics g'.metrics) (grant : CapabilityGrant)
    (room : RoomId) (key : Str) :
    MemoryAlongside m (g.forget env grant room key) (g'.forget env grant room key) := by
  unfold Gateway.forget
  split
  · exact denyMemory_alongside h _ _ _ _
  · apply concludeMemory_alongside
    exact h

/-- A call of the memory answers by the notes, and counts alike. -/
theorem memory_alongside (h : Counted .memory m g.metrics g'.metrics)
    (hnotes : g.store .agentMemory = g'.store .agentMemory) (op : MemoryOp) :
    serveMemory env g op = serveMemory env g' op ∧
    Counted .memory m (memoryStep env g op).metrics (memoryStep env g' op).metrics := by
  cases op with
  | remember grant room key value =>
      have hboth := @remember_alongside env g g' m h grant room key value
      exact ⟨congrArg _ hboth.answer, hboth.counted⟩
  | recallItem grant room key =>
      have hboth := @recallItem_alongside env g g' m h hnotes grant room key
      exact ⟨congrArg _ hboth.answer, hboth.counted⟩
  | recallAll grant room =>
      have hboth := @recallAll_alongside env g g' m h hnotes grant room
      exact ⟨congrArg _ hboth.answer, hboth.counted⟩
  | forget grant room key =>
      have hboth := @forget_alongside env g g' m h grant room key
      exact ⟨congrArg _ hboth.answer, hboth.counted⟩

theorem serveOp_listTools (env : GatewayEnv) (g : Gateway) (grant : CapabilityGrant)
    (catalog : ToolCatalog) :
    serveOp env g (.listTools grant catalog) =
      let r := (g.auditText env grant.agent
        ("tools_listed: ".toList ++ decimal (catalog.listFor grant).length)).countAnd env
          "gm_agent_tool_lists_total" [] (catalog.listFor grant)
      (r.1, .tools r.2) := by
  simp only [serveOp, Gateway.listTools, Gateway.countAnd]
  have hmetrics : ∀ text, (g.auditText env grant.agent text).metrics = g.metrics := fun _ => rfl
  rw [hmetrics]
  cases g.metrics.incCounter env.overflowChecks "gm_agent_tool_lists_total" [] with
  | none => rfl
  | some metrics => rfl

theorem readResource_alongside (h : Counted .resourceReads m g.metrics g'.metrics)
    (grant : CapabilityGrant) (uri : Str) (ctx : RoomContext) :
    (g.readResource env grant uri ctx).2 = (g'.readResource env grant uri ctx).2 ∧
    Counted .resourceReads m (g.readResource env grant uri ctx).1.metrics
      (g'.readResource env grant uri ctx).1.metrics := by
  unfold Gateway.readResource Gateway.countRead
  cases roomFromUri uri with
  | none => exact countAnd_alongside h List.mem_cons_self _ _
  | some room =>
      simp only []
      split
      · apply countAnd_alongside
        · exact h
        · exact List.mem_cons_self
      · apply countAnd_alongside
        · exact h
        · exact List.mem_cons_self

/-- A call gives the same, and counts the same, in gateways that look the same to its part. -/
theorem serveOp_alongside {op : AgentOp} (h : Agree op.part g g')
    (hm : Counted op.part m g.metrics g'.metrics) :
    (serveOp env g op).2 = (serveOp env g' op).2 ∧
    Counted op.part m (agentStep env g op).metrics (agentStep env g' op).metrics := by
  cases op with
  | mediate op =>
      have hreply : ReplyAlongside m (perform env g op) (perform env g' op) :=
        alongside_perform ⟨h.fields rfl, hm⟩ op
      constructor
      · simp only [serveOp, hreply.invoked, hreply.answer]
      · exact hreply.gateway.counted
  | memory op => exact memory_alongside hm (h.notes rfl) op
  | listTools grant catalog =>
      simp only [agentStep, serveOp_listTools]
      let text := "tools_listed: ".toList ++ decimal (catalog.listFor grant).length
      have hcount := @countAnd_alongside env (g.auditText env grant.agent text)
        (g'.auditText env grant.agent text) .toolLists _ m _ hm List.mem_cons_self []
        (catalog.listFor grant)
      exact ⟨congrArg _ hcount.1, hcount.2⟩
  | listResources grant =>
      have hcount : (g.listResources env grant).2 = (g'.listResources env grant).2 ∧
          Counted .resourceLists m (g.listResources env grant).1.metrics
            (g'.listResources env grant).1.metrics := by
        apply countAnd_alongside
        · exact hm
        · exact List.mem_cons_self
      exact ⟨congrArg AgentAnswer.resources hcount.1, hcount.2⟩
  | readResource grant uri ctx =>
      have hread := @readResource_alongside env g g' m hm grant uri ctx
      exact ⟨congrArg AgentAnswer.contents hread.1, hread.2⟩

/-! ## What a part leaves alone -/

theorem append_notes (digest : Digest) (s : Store Bytes) (actor event : Str) :
    append digest s actor event .agentMemory = s .agentMemory := by
  have hne : Cf.agentMemory ≠ .auditLog := by decide
  simp only [append]
  exact Store.put_of_ne s hne _ _

theorem appendAll_notes (digest : Digest) (s : Store Bytes) (records : List (Str × Str)) :
    appendAll digest s records .agentMemory = s .agentMemory := by
  induction records using List.reverseRecOn with
  | nil => rfl
  | append_singleton records r ih =>
      rw [appendAll, List.foldl_append]
      show append digest (appendAll digest s records) r.1 r.2 .agentMemory = _
      rw [append_notes, ih]

theorem auditText_notes (agent : AgentId) (text : Str) :
    (g.auditText env agent text).store .agentMemory = g.store .agentMemory :=
  append_notes env.digest g.store agent.asStr text

theorem notes_agentStep {op : AgentOp} (h : op.part ≠ .memory) :
    (agentStep env g op).store .agentMemory = g.store .agentMemory := by
  cases op with
  | mediate op =>
      show (perform env g op).gateway.store .agentMemory = _
      rw [(audits_perform env g op).written]
      exact appendAll_notes _ _ _
  | memory op => exact absurd rfl h
  | listTools grant catalog =>
      simp only [agentStep, serveOp_listTools]
      rw [countAnd_store]
      exact auditText_notes _ _
  | listResources grant =>
      show (g.listResources env grant).1.store .agentMemory = _
      rw [Gateway.listResources, countAnd_store]
      exact auditText_notes _ _
  | readResource grant uri ctx =>
      show (g.readResource env grant uri ctx).1.store .agentMemory = _
      unfold Gateway.readResource Gateway.countRead
      cases roomFromUri uri with
      | none => simp only [countAnd_store]
      | some room =>
          simp only []
          split
          · rw [countAnd_store]
            exact auditText_notes _ _
          · rw [countAnd_store]
            exact auditText_notes _ _

theorem concludeMemory_frame {α : Type} (op result : Str) (answer : Except MemoryError α) :
    ∃ metrics, (g.concludeMemory env op result answer).gateway = { g with metrics } := by
  rw [(concludeMemory_eq op result answer).1]
  exact countAnd_frame _ _ _

theorem memoryStep_frame (env : GatewayEnv) (g : Gateway) (op : MemoryOp) :
    ∃ store metrics, memoryStep env g op = { g with store, metrics } := by
  have hdeny : ∀ {α : Type} (grant : CapabilityGrant) (room : RoomId) (op item : Str),
      ∃ store metrics, (g.denyMemory env grant room op item : MemoryReply α).gateway =
        { g with store, metrics } :=
    fun grant room op item => ⟨_, concludeMemory_frame op "denied" _⟩
  cases op with
  | remember grant room key value =>
      simp only [memoryStep, Gateway.remember]
      split
      · exact hdeny _ _ _ _
      · split
        · exact ⟨g.store, g.metrics, rfl⟩
        · exact ⟨_, concludeMemory_frame _ _ _⟩
  | recallItem grant room key =>
      simp only [memoryStep, Gateway.recallItem]
      split
      · exact hdeny _ _ _ _
      · exact ⟨_, concludeMemory_frame _ _ _⟩
  | recallAll grant room =>
      simp only [memoryStep, Gateway.recallAll]
      split
      · exact hdeny _ _ _ _
      · exact ⟨_, concludeMemory_frame _ _ _⟩
  | forget grant room key =>
      simp only [memoryStep, Gateway.forget]
      split
      · exact hdeny _ _ _ _
      · exact ⟨_, concludeMemory_frame _ _ _⟩

theorem agentStep_frame {op : AgentOp} (h : op.part ≠ .mediation) :
    ∃ store metrics, agentStep env g op = { g with store, metrics } := by
  cases op with
  | mediate op => exact absurd rfl h
  | memory op => exact memoryStep_frame env g op
  | listTools grant catalog =>
      simp only [agentStep, serveOp_listTools]
      obtain ⟨metrics, hframe⟩ := @countAnd_frame env
        (g.auditText env grant.agent
          ("tools_listed: ".toList ++ decimal (catalog.listFor grant).length)) _
        "gm_agent_tool_lists_total" [] (catalog.listFor grant)
      exact ⟨_, metrics, hframe⟩
  | listResources grant =>
      obtain ⟨metrics, hframe⟩ := @countAnd_frame env
        (g.auditText env grant.agent
          ("resources_listed: ".toList ++ decimal grant.accessibleRooms.length)) _
        "gm_agent_resource_lists_total" [] _
      exact ⟨_, metrics, hframe⟩
  | readResource grant uri ctx => exact (confined env g grant uri ctx).frame

theorem disjoint_counters {part' : Part} (h : part ≠ part') (hname : name ∈ part.counters) :
    name ∉ part'.counters := by
  have hnone : ∀ p q : Part, p ≠ q → ∀ name ∈ p.counters, name ∉ q.counters := by
    intro p q
    cases p <;> cases q <;> decide
  exact hnone part part' h name hname

theorem unwinds (env : GatewayEnv) (part : Part) :
    Unwinds (agentStep env) (fun g op => (serveOp env g op).2) (fun op => op.part = part)
      (Agree part) where
  out_eq := by
    intro g g' op h hop
    obtain rfl : op.part = part := by simpa using hop
    exact (serveOp_alongside h ⟨h.counters, fun _ _ _ => rfl⟩).1
  both := by
    intro g g' op h hop
    obtain rfl : op.part = part := by simpa using hop
    constructor
    case counters =>
      exact (serveOp_alongside h ⟨h.counters, fun _ _ _ => rfl⟩).2.agree
    case fields =>
      intro hpart
      cases op with
      | mediate op =>
          exact (alongside_perform ⟨h.fields rfl, h.counters, fun _ _ _ => rfl⟩ op).gateway.fields
      | _ => cases hpart
    case notes =>
      intro hpart
      cases op with
      | memory op =>
          show (memoryStep env g op).store .agentMemory = (memoryStep env g' op).store .agentMemory
          rw [memoryStep_notes, memoryStep_notes, h.notes rfl]
      | _ => cases hpart
  one := by
    intro g g' op h hop
    have hne : op.part ≠ part := by simpa using hop
    constructor
    case counters =>
      intro name hname labels
      have hcounted : Counted op.part g.metrics (agentStep env g op).metrics
          (agentStep env g op).metrics :=
        (serveOp_alongside (Agree.refl op.part g) ⟨fun _ _ _ => rfl, fun _ _ _ => rfl⟩).2
      rw [hcounted.others name (disjoint_counters hne.symm hname) labels]
      exact h.counters name hname labels
    case fields =>
      rintro rfl
      obtain ⟨store, metrics, hframe⟩ := @agentStep_frame env g op hne
      rw [hframe]
      exact h.fields rfl
    case notes =>
      rintro rfl
      rw [notes_agentStep hne]
      exact h.notes rfl

/-- In every run of calls of all parts, each part gives what it gives when its calls are made alone. -/
theorem parts_undisturbed (env : GatewayEnv) (g : Gateway) (ops : List AgentOp) (part : Part) :
    ((trace (agentStep env) g ops).filter fun x => x.2.part = part).map
      (fun x => (serveOp env x.1 x.2).2) =
        answersOver env g (ops.filter fun op => op.part = part) ∧
    Agree part (run (agentStep env) g ops)
      (run (agentStep env) g (ops.filter fun op => op.part = part)) :=
  ⟨(unwinds env part).out_filter (Agree.refl part g) ops,
    (unwinds env part).run_filter (Agree.refl part g) ops⟩

end

end GaussMatrix.Agent
