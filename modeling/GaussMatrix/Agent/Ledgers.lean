import GaussMatrix.Agent.Independence

/-!
# The log and the metrics of the whole gateway

What every call, of any part, writes to the log and adds to the counters, over whole runs.
-/

namespace GaussMatrix.Agent

open Library Util Audit Obs

/-! ## What a call writes and counts -/

/-- A line about a note. -/
def memoryLine (grant : CapabilityGrant) (room : RoomId) (line item : Str) : Str × Str :=
  (grant.agent.asStr, line ++ ": ".toList ++ room.asStr ++ '/' :: item)

def memoryWritten (g : Gateway) : MemoryOp → List (Str × Str)
  | .remember grant room key _ =>
      if !grant.permitsRoom room then [memoryLine grant room "memory_denied" key]
      -- a key that is refused for its separator is not in the log
      else if sep ∈ key then []
      else [memoryLine grant room "memory_stored" key]
  | .recallItem grant room key =>
      if !grant.permitsRoom room then [memoryLine grant room "memory_denied" key]
      else [memoryLine grant room "memory_recalled" key]
  | .recallAll grant room =>
      if !grant.permitsRoom room then [memoryLine grant room "memory_denied" "*"]
      else
        let count := (Memory.recallAll g.store grant.agent room).length
        [memoryLine grant room "memory_recalled" ("* (".toList ++ decimal count ++ ")".toList)]
  | .forget grant room key =>
      if !grant.permitsRoom room then [memoryLine grant room "memory_denied" key]
      else [memoryLine grant room "memory_forgotten" key]

/-- The records that a call adds to the log: the actor and the event of each. -/
def written (env : GatewayEnv) (g : Gateway) : AgentOp → List (Str × Str)
  | .mediate op => (perform env g op).audited.map record
  | .memory op => memoryWritten g op
  | .listTools grant catalog =>
      [(grant.agent.asStr, "tools_listed: ".toList ++ decimal (catalog.listFor grant).length)]
  | .listResources grant =>
      [(grant.agent.asStr, "resources_listed: ".toList ++ decimal grant.accessibleRooms.length)]
  | .readResource grant uri _ =>
      match roomFromUri uri with
      | none => []
      | some room =>
          if !grant.permitsRoom room then [(grant.agent.asStr, "resource_denied: ".toList ++ uri)]
          else [(grant.agent.asStr, "resource_read: ".toList ++ uri)]

def memoryResult (grant : CapabilityGrant) (room : RoomId) : Str :=
  if !grant.permitsRoom room then "denied" else "ok"

def readResult (grant : CapabilityGrant) (uri : Str) : Str :=
  match roomFromUri uri with
  | none => "unknown"
  | some room => if !grant.permitsRoom room then "denied" else "ok"

def memoryLabels (op result : Str) : List (Str × Str) := [("op".toList, op), ("result".toList, result)]

def memoryCounted : MemoryOp → Option (List (Str × Str))
  | .remember grant room key _ =>
      if grant.permitsRoom room ∧ sep ∈ key then none
      else some (memoryLabels "store" (memoryResult grant room))
  | .recallItem grant room _ => some (memoryLabels "recall" (memoryResult grant room))
  | .recallAll grant room => some (memoryLabels "recall_all" (memoryResult grant room))
  | .forget grant room _ => some (memoryLabels "forget" (memoryResult grant room))

/-- The name and the labels that a call outside mediation counts under. -/
def AgentOp.counted : AgentOp → Option (Str × List (Str × Str))
  | .mediate _ => none
  | .memory op => (memoryCounted op).map fun labels => ("gm_agent_memory_ops_total".toList, labels)
  | .listTools _ _ => some ("gm_agent_tool_lists_total".toList, [])
  | .listResources _ => some ("gm_agent_resource_lists_total".toList, [])
  | .readResource grant uri _ =>
      some ("gm_agent_resource_reads_total".toList, [("result".toList, readResult grant uri)])

def AgentOp.series (op : AgentOp) : Option Series := op.counted.map fun c => .new c.1 c.2

/-- The call returns: it does not panic. -/
def AgentAnswer.Returns : AgentAnswer → Prop
  | .mediated _ answer => answer ≠ none
  | .stored answer => answer ≠ none
  | .recalled answer => answer ≠ none
  | .recalledAll answer => answer ≠ none
  | .tools shown => shown ≠ none
  | .resources listed => listed ≠ none
  | .contents answer => answer ≠ none

/-- The records that a run adds to the log, in order. -/
def writtenOver (env : GatewayEnv) (g : Gateway) (ops : List AgentOp) : List (Str × Str) :=
  (trace (agentStep env) g ops).flatMap fun x => written env x.1 x.2

section

variable {env : GatewayEnv} {g : Gateway} {op : AgentOp} {ops : List AgentOp} {s t : Store Bytes}
  {digest : Digest} {records : List (Str × Str)}

/-! ## The log -/

theorem append_log_congr (h : s .auditLog = t .auditLog) (actor event : Str) :
    append digest s actor event .auditLog = append digest t actor event .auditLog := by
  have hnext : nextEntry digest s actor event = nextEntry digest t actor event := by
    rw [nextEntry, nextEntry, entries, entries, Store.scan, Store.scan, h]
  simp only [append, Store.put_self, Store.count, h, hnext]

theorem appendAll_log_congr (h : s .auditLog = t .auditLog) (records : List (Str × Str)) :
    appendAll digest s records .auditLog = appendAll digest t records .auditLog := by
  induction records generalizing s t with
  | nil => exact h
  | cons r records ih => exact ih (append_log_congr h r.1 r.2)

theorem complete_congr (h : s .auditLog = t .auditLog) :
    Complete digest s records ↔ Complete digest t records := by
  rw [Complete, Complete, shown, shown, verify, verify, entries, entries, Store.scan, Store.scan, h]

theorem put_notes_log (s : Store Bytes) (key : Str) (value : Bytes) :
    s.put .agentMemory key value .auditLog = s .auditLog := by
  have hne : Cf.auditLog ≠ .agentMemory := by decide
  exact Store.put_of_ne s hne key value

theorem forget_log (s : Store Bytes) (agent : AgentId) (room : RoomId) (key : Str) :
    Memory.forget s agent room key .auditLog = s .auditLog := by
  have hne : Cf.auditLog ≠ .agentMemory := by decide
  simp only [Memory.forget, Store.delete]
  exact if_neg hne

theorem concludeMemory_log {α : Type} (opName result : Str) (answer : Except MemoryError α) :
    (g.concludeMemory env opName result answer).gateway.store .auditLog = g.store .auditLog := by
  rw [concludeMemory_store]

/-- A call of the memory adds its line to the log, whatever it does to the notes. -/
theorem log_memoryStep (env : GatewayEnv) (g : Gateway) (op : MemoryOp) :
    (memoryStep env g op).store .auditLog =
      appendAll env.digest g.store (memoryWritten g op) .auditLog := by
  cases op with
  | remember grant room key value =>
      simp only [memoryStep, memoryWritten, Gateway.remember, Memory.store, Memory.checkKey]
      split
      · exact concludeMemory_log _ _ _
      · by_cases hkey : sep ∈ key
        · rw [if_pos hkey, if_pos hkey]
          rfl
        · rw [if_neg hkey, if_neg hkey]
          refine (concludeMemory_log _ _ _).trans ?_
          apply append_log_congr
          exact put_notes_log g.store (Memory.itemKey grant.agent room key) (.utf8 value)
  | recallItem grant room key =>
      simp only [memoryStep, memoryWritten, Gateway.recallItem]
      split
      · exact concludeMemory_log _ _ _
      · exact concludeMemory_log _ _ _
  | recallAll grant room =>
      simp only [memoryStep, memoryWritten, Gateway.recallAll]
      split
      · exact concludeMemory_log _ _ _
      · exact concludeMemory_log _ _ _
  | forget grant room key =>
      simp only [memoryStep, memoryWritten, Gateway.forget]
      split
      · exact concludeMemory_log _ _ _
      · refine (concludeMemory_log _ _ _).trans ?_
        apply append_log_congr
        exact forget_log g.store grant.agent room key

theorem log_agentStep (env : GatewayEnv) (g : Gateway) (op : AgentOp) :
    (agentStep env g op).store .auditLog =
      appendAll env.digest g.store (written env g op) .auditLog := by
  cases op with
  | mediate op => exact congrFun (audits_perform env g op).written _
  | memory op => exact log_memoryStep env g op
  | listTools grant catalog =>
      simp only [agentStep, serveOp_listTools, countAnd_store]
      rfl
  | listResources grant =>
      simp only [agentStep, serveOp, Gateway.listResources, countAnd_store]
      rfl
  | readResource grant uri ctx =>
      simp only [agentStep, serveOp, written, Gateway.readResource, Gateway.countRead]
      cases roomFromUri uri with
      | none => simp only [countAnd_store]; rfl
      | some room =>
          simp only []
          split
          · rw [countAnd_store]
            rfl
          · rw [countAnd_store]
            rfl

theorem log_run (env : GatewayEnv) (g : Gateway) (ops : List AgentOp) :
    (run (agentStep env) g ops).store .auditLog =
      appendAll env.digest g.store (writtenOver env g ops) .auditLog := by
  induction ops generalizing g with
  | nil => rfl
  | cons op ops ih =>
      have hwritten : writtenOver env g (op :: ops) =
          written env g op ++ writtenOver env (agentStep env g op) ops := rfl
      rw [run_cons, ih, hwritten, appendAll, appendAll, List.foldl_append]
      exact appendAll_log_congr (log_agentStep env g op) _

theorem length_written_le (env : GatewayEnv) (g : Gateway) (op : AgentOp) :
    (written env g op).length ≤ 3 := by
  cases op with
  | mediate op =>
      rw [written, List.length_map]
      exact (audits_perform env g op).few
  | memory op =>
      cases op <;> simp only [written, memoryWritten] <;> split <;> try split
      all_goals simp
  | listTools grant catalog => simp [written]
  | listResources grant => simp [written]
  | readResource grant uri ctx =>
      simp only [written]
      split
      · simp
      · split <;> simp

theorem length_writtenOver_le (env : GatewayEnv) (g : Gateway) (ops : List AgentOp) :
    (writtenOver env g ops).length ≤ 3 * ops.length := by
  induction ops generalizing g with
  | nil => exact le_rfl
  | cons op ops ih =>
      have hwritten : writtenOver env g (op :: ops) =
          written env g op ++ writtenOver env (agentStep env g op) ops := rfl
      have hop := length_written_le env g op
      have hops := ih (agentStep env g op)
      rw [hwritten, List.length_append, List.length_cons]
      omega

/-! ## The metrics -/

variable {name : Str} {labels : List (Str × Str)}

theorem countAnd_of_lt {α : Type} (answer : α) (h : (g.metrics.counter name labels).toNat + 1 < 2 ^ 64) :
    (g.countAnd env name labels answer).2 ≠ none ∧ ∀ name' labels',
      ((g.countAnd env name labels answer).1.metrics.counter name' labels').toNat =
        (g.metrics.counter name' labels').toNat +
          if Series.new name' labels' = Series.new name labels then 1 else 0 := by
  obtain ⟨m, hsome, hself, hothers⟩ := Metrics.addCounter_of_lt (n := 1) env.overflowChecks h
  have hinc : g.metrics.incCounter env.overflowChecks name labels = some m := hsome
  unfold Gateway.countAnd
  simp only [hinc]
  refine ⟨Option.some_ne_none _, ?_⟩
  intro name' labels'
  rw [counter_addCounter hsome]
  split
  · rename_i hseries
    have hsame : g.metrics.counter name' labels' = g.metrics.counter name labels := by
      rw [Metrics.counter, Metrics.counter, hseries]
    rw [counter_addCounter hsome, if_pos rfl] at hself
    rw [hsame]
    exact hself
  · rfl

/-- A call under the limit returns, and adds one under its series. -/
def CountsAs (env : GatewayEnv) (g : Gateway) (op : AgentOp) : Prop :=
  (serveOp env g op).2.Returns ∧ ∀ name labels,
    ((agentStep env g op).metrics.counter name labels).toNat =
      (g.metrics.counter name labels).toNat +
        if op.series = some (Series.new name labels) then 1 else 0

/-- There is room for one more under every series. -/
def Room (g : Gateway) : Prop := ∀ name labels, name ∉ Part.mediation.counters →
  (g.metrics.counter name labels).toNat + 1 < 2 ^ 64

theorem notMem_mediation {part : Part} (hpart : part ≠ .mediation) (hname : name ∈ part.counters) :
    name ∉ Part.mediation.counters :=
  disjoint_counters hpart hname

/-- A reply of the memory counts as one call under the labels, if there are any. -/
def ReplyCounts {α : Type} (g : Gateway) (r : MemoryReply α) (counted : Option (List (Str × Str))) :
    Prop :=
  r.answer ≠ none ∧ ∀ name labels,
    (r.gateway.metrics.counter name labels).toNat = (g.metrics.counter name labels).toNat +
      if counted.map (Series.new "gm_agent_memory_ops_total") = some (Series.new name labels) then 1
      else 0

theorem concludeMemory_counts {α : Type} {g₁ : Gateway} (hmetrics : g₁.metrics = g.metrics)
    (h : Room g) (opName result : Str) (answer : Except MemoryError α) :
    ReplyCounts g (g₁.concludeMemory env opName result answer) (some (memoryLabels opName result)) := by
  have hroom : (g₁.metrics.counter "gm_agent_memory_ops_total" (memoryLabels opName result)).toNat + 1 <
      2 ^ 64 := by
    rw [hmetrics]
    exact h _ _ (@notMem_mediation _ .memory (by decide) List.mem_cons_self)
  have hcount := @countAnd_of_lt env g₁ _ _ _ answer hroom
  obtain ⟨hgateway, hanswer⟩ := @concludeMemory_eq env g₁ _ opName result answer
  rw [ReplyCounts, hgateway, hanswer]
  refine ⟨hcount.1, fun name' labels' => (hcount.2 name' labels').trans ?_⟩
  simp only [hmetrics, Option.map_some, Option.some_inj, eq_comm]

theorem denyMemory_counts {α : Type} (h : Room g) {grant : CapabilityGrant} {room : RoomId}
    (hroom : ¬ grant.permitsRoom room = true) (opName item : Str) :
    ReplyCounts g (g.denyMemory env grant room opName item : MemoryReply α)
      (some (memoryLabels opName (memoryResult grant room))) := by
  have hresult : memoryResult grant room = "denied".toList := by simp [memoryResult, hroom]
  rw [hresult, Gateway.denyMemory]
  apply concludeMemory_counts
  · rfl
  · exact h

theorem memoryResult_ok {grant : CapabilityGrant} {room : RoomId}
    (hroom : grant.permitsRoom room = true) : memoryResult grant room = "ok".toList := by
  simp [memoryResult, hroom]

theorem remember_counts (h : Room g) (grant : CapabilityGrant) (room : RoomId) (key value : Str) :
    ReplyCounts g (g.remember env grant room key value)
      (memoryCounted (.remember grant room key value)) := by
  by_cases hroom : grant.permitsRoom room = true
  · by_cases hkey : sep ∈ key
    · simp [ReplyCounts, Gateway.remember, memoryCounted, Memory.store, Memory.checkKey, hroom, hkey,
        bind, Except.bind]
    · have hcounted : memoryCounted (.remember grant room key value) =
          some (memoryLabels "store" "ok") := by
        simp [memoryCounted, hkey, memoryResult_ok hroom]
      rw [hcounted]
      simp only [Gateway.remember, hroom, Bool.not_true, Bool.false_eq_true, if_false, Memory.store,
        Memory.checkKey, hkey]
      apply concludeMemory_counts
      · rfl
      · exact h
  · have hcounted : memoryCounted (.remember grant room key value) =
        some (memoryLabels "store" (memoryResult grant room)) := by
      simp [memoryCounted, hroom]
    rw [hcounted, Gateway.remember, if_pos (by simp [hroom])]
    exact denyMemory_counts h hroom _ _

theorem recallItem_counts (h : Room g) (grant : CapabilityGrant) (room : RoomId) (key : Str) :
    ReplyCounts g (g.recallItem env grant room key) (memoryCounted (.recallItem grant room key)) := by
  by_cases hroom : grant.permitsRoom room = true
  · rw [memoryCounted, memoryResult_ok hroom, Gateway.recallItem, if_neg (by simp [hroom])]
    apply concludeMemory_counts
    · rfl
    · exact h
  · rw [memoryCounted, Gateway.recallItem, if_pos (by simp [hroom])]
    exact denyMemory_counts h hroom _ _

theorem recallAll_counts (h : Room g) (grant : CapabilityGrant) (room : RoomId) :
    ReplyCounts g (g.recallAll env grant room) (memoryCounted (.recallAll grant room)) := by
  by_cases hroom : grant.permitsRoom room = true
  · rw [memoryCounted, memoryResult_ok hroom, Gateway.recallAll, if_neg (by simp [hroom])]
    apply concludeMemory_counts
    · rfl
    · exact h
  · rw [memoryCounted, Gateway.recallAll, if_pos (by simp [hroom])]
    exact denyMemory_counts h hroom _ _

theorem forget_counts (h : Room g) (grant : CapabilityGrant) (room : RoomId) (key : Str) :
    ReplyCounts g (g.forget env grant room key) (memoryCounted (.forget grant room key)) := by
  by_cases hroom : grant.permitsRoom room = true
  · rw [memoryCounted, memoryResult_ok hroom, Gateway.forget, if_neg (by simp [hroom])]
    apply concludeMemory_counts
    · rfl
    · exact h
  · rw [memoryCounted, Gateway.forget, if_pos (by simp [hroom])]
    exact denyMemory_counts h hroom _ _

theorem series_memory (op : MemoryOp) : AgentOp.series (.memory op) =
    (memoryCounted op).map (Series.new "gm_agent_memory_ops_total") := by
  rw [AgentOp.series, AgentOp.counted, Option.map_map]
  rfl

theorem memory_counts (h : Room g) (op : MemoryOp) : CountsAs env g (.memory op) := by
  rw [CountsAs, series_memory]
  cases op with
  | remember grant room key value => exact remember_counts h grant room key value
  | recallItem grant room key => exact recallItem_counts h grant room key
  | recallAll grant room => exact recallAll_counts h grant room
  | forget grant room key => exact forget_counts h grant room key

theorem countAnd_counts {α : Type} {p : Part} {g₁ : Gateway} (hmetrics : g₁.metrics = g.metrics)
    (h : Room g) (hpart : p ≠ .mediation) (hname : name ∈ p.counters) (answer : α) :
    (g₁.countAnd env name labels answer).2 ≠ none ∧ ∀ name' labels',
      ((g₁.countAnd env name labels answer).1.metrics.counter name' labels').toNat =
        (g.metrics.counter name' labels').toNat +
          if some (Series.new name labels) = some (Series.new name' labels') then 1 else 0 := by
  have hroom : (g₁.metrics.counter name labels).toNat + 1 < 2 ^ 64 := by
    rw [hmetrics]
    exact h _ _ (notMem_mediation hpart hname)
  have hcount := @countAnd_of_lt env g₁ _ _ _ answer hroom
  refine ⟨hcount.1, fun name' labels' => (hcount.2 name' labels').trans ?_⟩
  simp only [hmetrics, Option.some_inj, eq_comm]

theorem countsAs_agentStep (h : Room g) (hop : op.part ≠ .mediation) : CountsAs env g op := by
  cases op with
  | mediate op => exact absurd rfl hop
  | memory op => exact memory_counts h op
  | listTools grant catalog =>
      simp only [CountsAs, agentStep, serveOp_listTools]
      apply countAnd_counts (p := .toolLists)
      · rfl
      · exact h
      · decide
      · exact List.mem_cons_self
  | listResources grant =>
      apply countAnd_counts (p := .resourceLists)
      · rfl
      · exact h
      · decide
      · exact List.mem_cons_self
  | readResource grant uri ctx =>
      have hcount : ∀ (g₁ : Gateway) result answer, g₁.metrics = g.metrics →
          readResult grant uri = result →
          g.readResource env grant uri ctx = g₁.countRead env result answer →
          CountsAs env g (.readResource grant uri ctx) := by
        intro g₁ result answer hmetrics hresult hread
        rw [CountsAs, AgentOp.series, AgentOp.counted, hresult, agentStep, serveOp, hread]
        apply countAnd_counts (p := .resourceReads)
        · exact hmetrics
        · exact h
        · decide
        · exact List.mem_cons_self
      cases hroom : roomFromUri uri with
      | none =>
          exact hcount g "unknown" _ rfl (by simp [readResult, hroom])
            (by simp [Gateway.readResource, hroom]; rfl)
      | some room =>
          by_cases hpermit : grant.permitsRoom room = true
          · exact hcount (g.auditText env grant.agent ("resource_read: ".toList ++ uri)) "ok" _
              rfl (by simp [readResult, hroom, hpermit])
              (by simp [Gateway.readResource, hroom, hpermit]; rfl)
          · exact hcount (g.auditText env grant.agent ("resource_denied: ".toList ++ uri))
              "denied" _ rfl (by simp [readResult, hroom, hpermit])
              (by simp [Gateway.readResource, hroom, hpermit]; rfl)

theorem series_of_mediation (hop : op.part = .mediation) : op.series = none := by
  cases op with
  | mediate op => rfl
  | _ => cases hop

theorem counter_agentStep (h : Room g) (hname : name ∉ Part.mediation.counters)
    (labels : List (Str × Str)) :
    ((agentStep env g op).metrics.counter name labels).toNat =
      (g.metrics.counter name labels).toNat +
        if op.series = some (Series.new name labels) then 1 else 0 := by
  by_cases hop : op.part = .mediation
  · have hcounted : Counted op.part g.metrics (agentStep env g op).metrics
        (agentStep env g op).metrics :=
      (serveOp_alongside (Agree.refl op.part g) ⟨fun _ _ _ => rfl, fun _ _ _ => rfl⟩).2
    have hothers : name ∉ op.part.counters := by
      rw [hop]
      exact hname
    rw [hcounted.others name hothers labels, series_of_mediation hop, if_neg (by simp), add_zero]
  · exact (countsAs_agentStep h hop).2 name labels

/-- The calls of a run that count under a series. -/
def countOver (ops : List AgentOp) (name : Str) (labels : List (Str × Str)) : Nat :=
  ops.countP fun op => op.series = some (Series.new name labels)

theorem counter_run (env : GatewayEnv) (store : Store Bytes) (hlen : ops.length < 2 ^ 64)
    (hname : name ∉ Part.mediation.counters) (labels : List (Str × Str)) :
    ((run (agentStep env) (.withStore store) ops).metrics.counter name labels).toNat =
      countOver ops name labels := by
  induction ops using List.reverseRecOn generalizing name labels with
  | nil => rfl
  | append_singleton ops op ih =>
      rw [List.length_append, List.length_singleton] at hlen
      -- up to here fewer calls were made than a counter can count
      have hroom : Room (run (agentStep env) (.withStore store) ops) := by
        intro name' labels' hname'
        rw [ih (by omega) hname' labels']
        have hle : countOver ops name' labels' ≤ ops.length := List.countP_le_length
        omega
      rw [run_append, run_cons, run_nil, counter_agentStep hroom hname labels,
        ih (by omega) hname labels, countOver, countOver, List.countP_append, List.countP_singleton]
      simp only [decide_eq_true_eq]

theorem room_of_mem_trace {store : Store Bytes} (hlen : ops.length < 2 ^ 64)
    {x : Gateway × AgentOp} (hx : x ∈ trace (agentStep env) (.withStore store) ops) : Room x.1 := by
  obtain ⟨before, after, hops, hstate⟩ := exists_prefix_of_mem_trace hx
  have hlength := congrArg List.length hops
  rw [List.length_append, List.length_cons] at hlength
  intro name labels hname
  rw [hstate, counter_run env store (by omega) hname labels]
  have hle : countOver before name labels ≤ before.length := List.countP_le_length
  omega

/-- Over every run of calls of all parts, the log verifies and shows what each call writes, in order,
exactly where no text of it has a separator; each counter outside mediation is the number of calls under
its series, and none of these calls panics. -/
theorem gateway_ledgers (env : GatewayEnv) (store : Store Bytes)
    (hempty : store.scan .auditLog = []) (hlen : ops.length < 2 ^ 64) :
    (Complete env.digest (run (agentStep env) (.withStore store) ops).store
      (writtenOver env (.withStore store) ops) ↔
        ∀ r ∈ writtenOver env (.withStore store) ops, PlainRecord r) ∧
    (∀ name labels, name ∉ Part.mediation.counters →
      ((run (agentStep env) (.withStore store) ops).metrics.counter name labels).toNat =
        countOver ops name labels) ∧
    ∀ x ∈ trace (agentStep env) (.withStore store) ops, x.2.part ≠ .mediation →
      (serveOp env x.1 x.2).2.Returns := by
  refine ⟨?_, ?_, ?_⟩
  · have hlines := length_writtenOver_le env (.withStore store) ops
    rw [complete_congr (log_run env (.withStore store) ops)]
    exact complete_appendAll_iff hempty (by omega)
  · exact fun name labels hname => counter_run env store hlen hname labels
  · exact fun x hx hpart => (countsAs_agentStep (room_of_mem_trace hlen hx) hpart).1

end

open SampleGateway in
/-- A list of resources and a read of one. -/
theorem gateway_ledgers_sample :
    ((run (agentStep env) (.withStore Store.empty)
      [.listResources (grant .auto), .readResource (grant .auto) "gauss://room/!room:host"
        history.messages]).metrics.counter "gm_agent_resource_lists_total" []).toNat = 1 := by
  rw [(gateway_ledgers env Store.empty rfl (by decide)).2.1 _ _ (by decide)]
  decide

end GaussMatrix.Agent
