import GaussMatrix.Agent.Ledgers
import GaussMatrix.Agent.Replay
import GaussMatrix.Library.GroupByKey
import GaussMatrix.Library.Lines
import GaussMatrix.Obs.Siem

/-!
# Incident review

What the log of a gateway gives to those who review it: every agent's session, and the records that are
streamed to a SIEM.
-/

namespace GaussMatrix.Obs

open Library Audit

/-! ## The stream -/

/-- The records of the log, as they are emitted. -/
def auditRecords (s : Store Bytes) : List AuditRecord :=
  (entries s).zipIdx.map fun e =>
    { seq := UInt64.ofNat e.2
      actor := e.1.actor
      action := e.1.event
      prevHash := e.1.prevHash
      hash := e.1.hash }

/-- What a sink over a writer has written: a line for each record. -/
def writtenLines (records : List AuditRecord) : Str := records.flatMap fun r => r.toJson ++ ['\n']

theorem newline_ne_hexDigit : ∀ n < 16, '\n' ≠ Api.Json.hexDigit n := by decide

theorem newline_not_mem_jsonChar (c : Char) : '\n' ∉ jsonChar c := by
  unfold jsonChar
  split_ifs with h₁ h₂ h₃ h₄ h₅ h₆
  case pos => decide
  case pos => decide
  case pos => decide
  case pos => decide
  case pos => decide
  case pos =>
    have hhigh := newline_ne_hexDigit (c.toNat / 16) (by omega)
    have hlow := newline_ne_hexDigit (c.toNat % 16) (by omega)
    simp [hhigh, hlow]
  case neg =>
    rw [List.mem_singleton]
    exact fun h => h₃ h.symm

theorem newline_not_mem_jsonString (s : Str) : '\n' ∉ jsonString s := by
  simp [jsonString, newline_not_mem_jsonChar]

theorem newline_not_mem_toJson (r : AuditRecord) : '\n' ∉ r.toJson := by
  have hparts : ∀ {key text rest : Str}, '\n' ∉ rest → '\n' ∉ key → '\n' ∉ text →
      '\n' ∉ rest ++ key ++ text := by
    intro key text rest hrest hkey htext
    simp [hrest, hkey, htext]
  have hseq := hparts (List.not_mem_nil) (by decide : '\n' ∉ "\x7b\"seq\":".toList)
    (newline_not_mem_decimal r.seq.toNat)
  have hactor := hparts hseq (by decide : '\n' ∉ ",\"actor\":".toList)
    (newline_not_mem_jsonString r.actor)
  have haction := hparts hactor (by decide : '\n' ∉ ",\"action\":".toList)
    (newline_not_mem_jsonString r.action)
  have hprev := hparts haction (by decide : '\n' ∉ ",\"prev_hash\":".toList)
    (newline_not_mem_decimal r.prevHash.toNat)
  have hhash := hparts hprev (by decide : '\n' ∉ ",\"hash\":".toList)
    (newline_not_mem_decimal r.hash.toNat)
  have hclose := List.not_mem_append hhash (by decide : '\n' ∉ "\x7d".toList)
  rw [List.nil_append] at hclose
  exact hclose

-- A line break is in no record, so the lines are the records.
theorem splitOn_writtenLines (records : List AuditRecord) :
    (writtenLines records).splitOn '\n' = records.map AuditRecord.toJson ++ [[]] := by
  have hlines : ∀ line ∈ records.map AuditRecord.toJson, '\n' ∉ line := by
    rw [List.forall_mem_map]
    exact fun r _ => newline_not_mem_toJson r
  rw [← splitOn_terminated hlines, List.flatMap_map]
  rfl

end GaussMatrix.Obs

namespace GaussMatrix.Agent

open Library Util Audit Obs

/-! ## Every session -/

/-- The sessions of all agents, by their first appearance in the log. -/
def replayAll (digest : Digest) (store : Store Bytes) : List SessionReplay :=
  let chainIntact : Bool := verify digest store = .ok ()
  (firstKeys ((entries store).map AuditEntry.actor)).map fun agent =>
    { agent
      steps := ((entries store).zipIdx.filter fun e => e.1.actor = agent).map fun e =>
        ⟨e.2, classify e.1.event, e.1.event⟩
      chainIntact }

/-- What a session shows: the place of each step in the log, the agent and the event. -/
def SessionReplay.rows (r : SessionReplay) : List (Nat × Str × Str) :=
  r.steps.map fun step => (step.seq, r.agent, step.event)

/-- What reviewers get of a log with the records: one session for each agent, with its own records in
order, no record in two sessions or in none, and a stream with one line for each record. -/
structure Reviewed (digest : Digest) (s : Store Bytes) (records : List (Str × Str)) : Prop where
  agents : (replayAll digest s).map SessionReplay.agent = firstKeys (records.map Prod.fst)
  own : ∀ r ∈ replayAll digest s, r = replaySession digest s r.agent ∧ r.chainIntact = true ∧
    r.steps.map SessionStep.event = (records.filter fun e => e.1 = r.agent).map Prod.snd
  partition : ((replayAll digest s).flatMap SessionReplay.rows).Perm
    (records.zipIdx.map fun e => (e.2, e.1.1, e.1.2))
  executions : ((replayAll digest s).map SessionReplay.executions).sum =
    records.countP fun e => (classify e.2).execution.isSome
  streamed : (auditRecords s).map (fun r => (r.actor, r.action)) = records ∧
    (writtenLines (auditRecords s)).splitOn '\n' = (auditRecords s).map AuditRecord.toJson ++ [[]] ∧
    ∀ r ∈ auditRecords s, Api.Json.parse r.toJson = .ok (.ofFields r.fields)

section

variable {digest : Digest} {s : Store Bytes} {records : List (Str × Str)}

theorem agent_replayAll (digest : Digest) (s : Store Bytes) :
    (replayAll digest s).map SessionReplay.agent = firstKeys ((shown s).map Prod.fst) := by
  rw [replayAll, List.map_map, shown, List.map_map]
  exact List.map_id _

theorem rows_replayAll (digest : Digest) (s : Store Bytes) :
    ((replayAll digest s).flatMap SessionReplay.rows).Perm
      ((shown s).zipIdx.map fun e => (e.2, e.1.1, e.1.2)) := by
  have hkeys : (entries s).zipIdx.map (fun e => e.1.actor) = (entries s).map AuditEntry.actor := by
    change (entries s).zipIdx.map (AuditEntry.actor ∘ Prod.fst) = _
    rw [← List.map_map, List.zipIdx_map_fst]
  have hperm := (flatMap_firstKeys_perm (fun e : AuditEntry × Nat => e.1.actor)
    (entries s).zipIdx).map fun e => (e.2, e.1.actor, e.1.event)
  rw [hkeys, List.map_flatMap] at hperm
  rw [shown, List.zipIdx_map, List.map_map]
  refine List.Perm.trans (List.Perm.of_eq ?_) hperm
  rw [replayAll, List.flatMap_map]
  apply List.flatMap_congr
  intro agent _
  rw [SessionReplay.rows, List.map_map]
  apply List.map_congr_left
  intro e he
  have hactor : e.1.actor = agent := by simpa using (List.mem_filter.mp he).2
  rw [hactor]
  rfl

theorem mem_replayAll {r : SessionReplay} (h : r ∈ replayAll digest s) :
    r = replaySession digest s r.agent := by
  obtain ⟨agent, -, rfl⟩ := List.mem_map.mp h
  rfl

theorem events_replaySession (digest : Digest) (s : Store Bytes) (agent : Str) :
    (replaySession digest s agent).steps.map SessionStep.event =
      ((shown s).filter fun e => e.1 = agent).map Prod.snd := by
  have hindexed : ∀ es : List AuditEntry, ∀ k,
      ((es.zipIdx k).filter fun e => e.1.actor = agent).map (fun e => e.1.event) =
        ((es.map fun e => (e.actor, e.event)).filter fun e => e.1 = agent).map Prod.snd := by
    intro es
    induction es with
    | nil => exact fun _ => rfl
    | cons e es ih =>
        intro k
        rw [List.zipIdx_cons, List.map_cons, List.filter_cons, List.filter_cons]
        by_cases hactor : e.actor = agent
        · simp only [hactor, decide_true, if_true, List.map_cons, ih]
        · simp only [hactor, decide_false, Bool.false_eq_true, if_false, ih]
  rw [replaySession, List.map_map]
  exact hindexed (entries s) 0

/-- The executions of a session, from its rows. -/
theorem executions_eq {r : SessionReplay} (h : r = replaySession digest s r.agent) :
    r.executions = r.rows.countP fun row => (classify row.2.2).execution.isSome := by
  rw [SessionReplay.executions, SessionReplay.rows, List.countP_map, ← List.countP_eq_length_filter]
  apply List.countP_congr
  intro step hstep
  rw [h] at hstep
  obtain ⟨e, -, rfl⟩ := List.mem_map.mp hstep
  exact Iff.rfl

theorem sum_executions (digest : Digest) (s : Store Bytes) :
    ((replayAll digest s).map SessionReplay.executions).sum =
      (shown s).countP fun e => (classify e.2).execution.isSome := by
  have hsessions : (replayAll digest s).map SessionReplay.executions =
      (replayAll digest s).map fun r =>
        r.rows.countP fun row => (classify row.2.2).execution.isSome :=
    List.map_congr_left fun r hr => executions_eq (mem_replayAll hr)
  have hrows := (rows_replayAll digest s).countP_eq fun row => (classify row.2.2).execution.isSome
  rw [List.countP_flatMap] at hrows
  rw [hsessions]
  refine Eq.trans ?_ (hrows.trans ?_)
  · rfl
  · rw [List.countP_map]
    have hindexed : ∀ (es : List (Str × Str)) k,
        (es.zipIdx k).countP (fun e => (classify e.1.2).execution.isSome) =
          es.countP fun e => (classify e.2).execution.isSome := by
      intro es k
      have hfst := congrArg (List.countP fun e : Str × Str => (classify e.2).execution.isSome)
        (List.zipIdx_map_fst k es)
      rwa [List.countP_map] at hfst
    exact hindexed (shown s) 0

theorem reviewed (h : Complete digest s records) : Reviewed digest s records := by
  obtain ⟨hshown, hverify⟩ := h
  constructor
  case agents => rw [agent_replayAll, hshown]
  case own =>
    intro r hr
    have hsession := mem_replayAll hr
    refine ⟨hsession, ?_, ?_⟩
    · rw [hsession]
      exact decide_eq_true hverify
    · rw [← hshown, ← events_replaySession digest s r.agent, ← hsession]
  case partition =>
    rw [← hshown]
    exact rows_replayAll digest s
  case executions =>
    rw [← hshown]
    exact sum_executions digest s
  case streamed =>
    refine ⟨?_, splitOn_writtenLines _, fun r _ => parse_toJson r⟩
    rw [← hshown, auditRecords, List.map_map, shown]
    change (entries s).zipIdx.map ((fun e => (e.actor, e.event)) ∘ Prod.fst) = _
    rw [← List.map_map, List.zipIdx_map_fst]

end

/-- After every run of the whole gateway whose texts have no separator, the sessions and the stream are
what the calls of the run wrote. -/
theorem run_reviewed (env : GatewayEnv) (store : Store Bytes) (hempty : store.scan .auditLog = [])
    (ops : List AgentOp) (hlen : ops.length < 2 ^ 64)
    (hplain : ∀ r ∈ writtenOver env (.withStore store) ops, PlainRecord r) :
    Reviewed env.digest (run (agentStep env) (.withStore store) ops).store
      (writtenOver env (.withStore store) ops) := by
  have hlines := length_writtenOver_le env (.withStore store) ops
  apply reviewed
  rw [complete_congr (log_run env (.withStore store) ops)]
  exact (complete_appendAll_iff hempty (by omega)).mpr hplain

namespace SampleGateway

/-- A read of a room that is granted, and an execution. -/
def reviewedRun : List AgentOp :=
  [.readResource (grant .auto) "gauss://room/!room:host" history.messages,
    .mediate (.handle (grant .auto) (call worker) executor)]

end SampleGateway

open SampleGateway in
theorem run_reviewed_sample :
    (∀ r ∈ writtenOver env (.withStore Store.empty) reviewedRun, PlainRecord r) ∧
    Reviewed env.digest (run (agentStep env) (.withStore Store.empty) reviewedRun).store
      (writtenOver env (.withStore Store.empty) reviewedRun) := by
  have hplain : ∀ r ∈ writtenOver env (.withStore Store.empty) reviewedRun, PlainRecord r := by
    show ∀ r ∈ writtenOver env (.withStore Store.empty) reviewedRun, sep ∉ r.1 ∧ sep ∉ r.2
    decide +kernel
  exact ⟨hplain, run_reviewed env Store.empty rfl reviewedRun (by decide) hplain⟩

end GaussMatrix.Agent
