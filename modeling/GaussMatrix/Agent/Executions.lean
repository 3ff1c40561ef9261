import GaussMatrix.Agent.Turns
import GaussMatrix.Library.Queue

/-!
# Executions

Over a run of the gateway: what is executed was allowed at once or approved from the queue, requests
are settled once, and ids are given out once.
-/

namespace GaussMatrix.Agent

open Library Util Audit Obs Gateway

/-- The request that a call puts on the queue. -/
def created (env : GatewayEnv) (g : Gateway) (op : GatewayCall) : Option PendingApproval :=
  let pending := (perform env g op).gateway.pending
  if g.pending.length < pending.length then pending.getLast? else none

/-- The request id that a decision settles. -/
def settled (g : Gateway) : GatewayCall → Option UInt64
  | .resolve requestId _ _ _ => (requestOf g requestId).map fun _ => requestId
  | _ => none

/-- The call id in an event. -/
def eventCallId (event : ReflectedEvent) : Option Str :=
  match event.content.get "call_id" with
  | some (.str callId) => some callId
  | _ => none

/-- The call id that a mediated call is given, in the queue or in its first event. -/
def givenCallId (env : GatewayEnv) (g : Gateway) (op : GatewayCall) : Option Str :=
  match created env g op with
  | some p => some p.callId
  | none =>
      match op.mediated, (perform env g op).answer with
      | some _, some (.ok (.executed (event :: _))) => eventCallId event
      | _, _ => none

/-- The steps of a run of the gateway. -/
def gatewayTrace (env : GatewayEnv) (store : Store Bytes) (ops : List GatewayCall) :
    List (Gateway × GatewayCall) :=
  trace (gatewayStep env) (withStore store) ops

/-- A call in review put the request on the queue. -/
def PutByReview (env : GatewayEnv) (steps : List (Gateway × GatewayCall)) (p : PendingApproval) :
    Prop :=
  ∃ y ∈ steps, created env y.1 y.2 = some p ∧
    ∃ m, y.2.mediated = some m ∧ m.call = p.call ∧ m.cls = .review

/-- The execution of a call is licensed: by an automatic class and the budgets, or by the approval of
the request that a call in review put on the queue. -/
def Licensed (env : GatewayEnv) (earlier : List (Gateway × GatewayCall)) (g : Gateway)
    (op : GatewayCall) (call : ToolCall) : Prop :=
  (∃ m, op.mediated = some m ∧ m.call = call ∧ m.cls = .auto ∧
    (g.checkBudgets env m.grant m.call).1 = none) ∨
  ∃ requestId decidedBy executor p, op = .resolve requestId true decidedBy executor ∧
    p ∈ g.pending ∧ p.requestId = requestId ∧ p.call = call ∧ PutByReview env earlier p

/-- What holds of the executions of a run. -/
structure ExecutionsSafe (env : GatewayEnv) (store : Store Bytes) (ops : List GatewayCall) : Prop where
  licensed : ∀ before op after, ops = before ++ op :: after →
    let g := run (gatewayStep env) (withStore store) before
    ∀ x ∈ (perform env g op).invoked, Licensed env (gatewayTrace env store before) g op x.2
  oneAtMost : ∀ x ∈ gatewayTrace env store ops, (perform env x.1 x.2).invoked.length ≤ 1
  settledOnce : ((gatewayTrace env store ops).filterMap fun x => settled x.1 x.2).Nodup
  requestIds : ((gatewayTrace env store ops).filterMap fun x =>
    (created env x.1 x.2).map PendingApproval.requestId).Nodup
  callIds : ((gatewayTrace env store ops).filterMap fun x => givenCallId env x.1 x.2).Nodup
  unknown : ∀ x ∈ gatewayTrace env store ops, ∀ requestId approved decidedBy executor,
    x.2 = .resolve requestId approved decidedBy executor →
      (∀ p ∈ x.1.pending, p.requestId ≠ requestId) →
        perform env x.1 x.2 = { gateway := x.1, audited := [], invoked := []
                                answer := some (.error (.unknownRequest requestId)) }
  gauge : ∀ x ∈ gatewayTrace env store ops, ∀ a, (perform env x.1 x.2).answer = some a →
    (∀ requestId, a ≠ .error (.unknownRequest requestId)) → GaugeExact (perform env x.1 x.2).gateway

section

variable {env : GatewayEnv} {g : Gateway} {op : GatewayCall} {store : Store Bytes}
  {ops : List GatewayCall}

/-! ## The queue over one call -/

/-- What a call does with the queue and the two counters. -/
inductive QueueStep (env : GatewayEnv) (g : Gateway) (op : GatewayCall) : Prop
  | kept
      (hpending : (gatewayStep env g op).pending = g.pending)
      (hrequest : (gatewayStep env g op).nextRequestId = g.nextRequestId)
      (hseq : (gatewayStep env g op).nextCallSeq = g.nextCallSeq ∨
        increment env g.nextCallSeq = some (gatewayStep env g op).nextCallSeq)
  | created (m : Mediation)
      (hm : op.mediated = some m)
      (hcls : m.cls = .review)
      (hpending : (gatewayStep env g op).pending =
        g.pending ++ [⟨g.nextRequestId, callIdOf g.nextCallSeq, m.call⟩])
      (hrequest : increment env g.nextRequestId = some (gatewayStep env g op).nextRequestId)
      (hseq : increment env g.nextCallSeq = some (gatewayStep env g op).nextCallSeq)
  | settled (requestId : UInt64) (approved : Bool) (decidedBy : Str) (executor : ToolExecutor)
      (p : PendingApproval)
      (hop : op = .resolve requestId approved decidedBy executor)
      (hp : requestOf g requestId = some p)
      (hpending : (gatewayStep env g op).pending = (withoutRequest g requestId).pending)
      (hrequest : (gatewayStep env g op).nextRequestId = g.nextRequestId)
      (hseq : (gatewayStep env g op).nextCallSeq = g.nextCallSeq)

theorem queueStep_of_turn {m : Mediation} (hm : op.mediated = some m)
    (hturn : Turn env g m (perform env g op)) : QueueStep env g op := by
  obtain ⟨ticks, recentCalls, dailyUsage, hcounted⟩ := counted_eq env g m
  cases hturn with
  | refused g' store metrics hchecked hgateway _ _ =>
      obtain ⟨ticks', recentCalls', dailyUsage', hcheck⟩ := checkBudgets_eq env g m.grant m.call
      rcases hchecked with ⟨-, rfl⟩ | ⟨-, -, rfl⟩
      · exact .kept (by rw [gatewayStep, hgateway]) (by rw [gatewayStep, hgateway])
          (.inl (by rw [gatewayStep, hgateway]))
      · rw [hcheck] at hgateway
        exact .kept (by rw [gatewayStep, hgateway]) (by rw [gatewayStep, hgateway])
          (.inl (by rw [gatewayStep, hgateway]))
  | panicked store seq _ _ hseq hgateway _ _ =>
      rw [hcounted] at hgateway
      apply QueueStep.kept (by rw [gatewayStep, hgateway]) (by rw [gatewayStep, hgateway])
      rw [gatewayStep, hgateway]
      exact hseq
  | executed store store' metrics seq tokens _ _ hseq hgateway _ _ =>
      obtain ⟨dailyUsage', htokens⟩ := @noteTokens_eq env (g.counted env m).2 m.call.agent.asStr tokens
      rw [htokens, hcounted] at hgateway
      apply QueueStep.kept (by rw [gatewayStep, hgateway]) (by rw [gatewayStep, hgateway])
      right
      rw [gatewayStep, hgateway]
      exact hseq
  | queued store metrics seq request hpassed _ hseq hrequest hgateway _ _ =>
      rw [hcounted] at hgateway
      apply QueueStep.created m hm hpassed.1 (by rw [gatewayStep, hgateway])
      · rw [gatewayStep, hgateway]
        exact hrequest
      · rw [gatewayStep, hgateway]
        exact hseq

theorem queueStep (env : GatewayEnv) (g : Gateway) (op : GatewayCall) : QueueStep env g op := by
  cases course env g op with
  | turn m hm hturn => exact queueStep_of_turn hm hturn
  | dismissed agent line outcome answer _ _ hperform =>
      obtain ⟨store, metrics, hgateway⟩ := dismiss_gateway env g agent line outcome answer
      rw [← hperform] at hgateway
      exact .kept (by rw [gatewayStep, hgateway]) (by rw [gatewayStep, hgateway])
        (.inl (by rw [gatewayStep, hgateway]))
  | unknown _ _ _ _ _ _ hperform =>
      exact .kept (by rw [gatewayStep, hperform]) (by rw [gatewayStep, hperform])
        (.inl (by rw [gatewayStep, hperform]))
  | settled id approved decidedBy executor p hop hp hgateway _ _ =>
      obtain ⟨store, ticks, dailyUsage, metrics, hgateway⟩ := hgateway.fields
      exact .settled id approved decidedBy executor p hop hp (by rw [gatewayStep, hgateway])
        (by rw [gatewayStep, hgateway]; rfl) (by rw [gatewayStep, hgateway]; rfl)

/-! ## Ids -/

theorem eq_add_one_of_increment {n next : UInt64} (h : increment env n = some next) : next = n + 1 := by
  unfold increment at h
  split at h
  · exact absurd h (by simp)
  · exact (Option.some_inj.mp h).symm

theorem toNat_of_increment {n next : UInt64} (h : increment env n = some next)
    (hn : n.toNat + 1 < 2 ^ 64) : next.toNat = n.toNat + 1 := by
  rw [eq_add_one_of_increment h, UInt64.toNat_add]
  exact Nat.mod_eq_of_lt hn

theorem toNat_add_one_le (n : UInt64) : (n + 1).toNat ≤ n.toNat + 1 := by
  rw [UInt64.toNat_add]
  exact Nat.mod_le _ _

/-- The two counters go up by one at most. -/
theorem counters_step (env : GatewayEnv) (g : Gateway) (op : GatewayCall) :
    (gatewayStep env g op).nextRequestId.toNat ≤ g.nextRequestId.toNat + 1 ∧
      (gatewayStep env g op).nextCallSeq.toNat ≤ g.nextCallSeq.toNat + 1 := by
  have hle : ∀ {n next : UInt64}, increment env n = some next → next.toNat ≤ n.toNat + 1 := by
    intro n next h
    rw [eq_add_one_of_increment h]
    exact toNat_add_one_le n
  cases queueStep env g op with
  | kept hpending hrequest hseq =>
      rw [hrequest]
      refine ⟨by omega, ?_⟩
      rcases hseq with hseq | hseq
      · rw [hseq]
        omega
      · exact hle hseq
  | created m hm hcls hpending hrequest hseq => exact ⟨hle hrequest, hle hseq⟩
  | settled requestId approved decidedBy executor p hop hp hpending hrequest hseq =>
      rw [hrequest, hseq]
      omega

/-- In a run of fewer calls than there are numbers the counters do not wrap. -/
theorem counters_lt (hlen : ops.length < 2 ^ 64) {x : Gateway × GatewayCall}
    (hx : x ∈ gatewayTrace env store ops) :
    x.1.nextRequestId.toNat + 1 < 2 ^ 64 ∧ x.1.nextCallSeq.toNat + 1 < 2 ^ 64 := by
  obtain ⟨before, after, rfl, hstate⟩ := exists_prefix_of_mem_trace hx
  have hrequest := count_run_le (fun g : Gateway => g.nextRequestId.toNat)
    (fun g op => (counters_step env g op).1) (withStore store) before
  have hseq := count_run_le (fun g : Gateway => g.nextCallSeq.toNat)
    (fun g op => (counters_step env g op).2) (withStore store) before
  have hzero : (withStore store).nextRequestId.toNat = 0 ∧ (withStore store).nextCallSeq.toNat = 0 :=
    ⟨rfl, rfl⟩
  rw [List.length_append, List.length_cons] at hlen
  rw [← hstate] at hrequest hseq
  simp only [hzero.1, hzero.2] at hrequest hseq
  omega

/-- What is created is the request at the end of the queue, of a call in review. -/
theorem created_eq_some {p : PendingApproval} (h : created env g op = some p) :
    ∃ m, op.mediated = some m ∧ m.cls = .review ∧
      p = ⟨g.nextRequestId, callIdOf g.nextCallSeq, m.call⟩ ∧
      increment env g.nextRequestId = some (gatewayStep env g op).nextRequestId ∧
      increment env g.nextCallSeq = some (gatewayStep env g op).nextCallSeq := by
  have hdef : created env g op =
      if g.pending.length < (gatewayStep env g op).pending.length then
        (gatewayStep env g op).pending.getLast? else none := rfl
  rw [hdef] at h
  cases queueStep env g op with
  | kept hpending hrequest hseq =>
      rw [hpending, if_neg (lt_irrefl _)] at h
      exact absurd h (by simp)
  | created m hm hcls hpending hrequest hseq =>
      rw [hpending] at h
      have hlonger : g.pending.length <
          (g.pending ++ [PendingApproval.mk g.nextRequestId (callIdOf g.nextCallSeq) m.call]).length := by
        simp
      rw [if_pos hlonger, List.getLast?_concat] at h
      exact ⟨m, hm, hcls, (Option.some_inj.mp h).symm, hrequest, hseq⟩
  | settled requestId approved decidedBy executor p' hop hp hpending hrequest hseq =>
      have hshorter : ¬ g.pending.length < (withoutRequest g requestId).pending.length :=
        not_lt.mpr (List.length_eraseP_le)
      rw [hpending, if_neg hshorter] at h
      exact absurd h (by simp)

theorem eventCallId_toolCall (callId tool argsSummary : Str) :
    eventCallId (ReflectedEvent.toolCall callId tool argsSummary) = some callId := by
  have hget : (ReflectedEvent.toolCall callId tool argsSummary).content.get "call_id" =
      some (.str callId) := by
    show (((SortedMap.empty.insert "call_id".toList (Value.str callId)).insert "tool".toList
      (Value.str tool)).insert "args_summary".toList (Value.str argsSummary)).get "call_id".toList = _
    rw [SortedMap.get_insert_ne _ (by decide), SortedMap.get_insert_ne _ (by decide),
      SortedMap.get_insert_self]
  rw [eventCallId, hget]

/-- A call id that is given is that of the sequence number, which is then past. -/
theorem givenCallId_eq_some {callId : Str} (h : givenCallId env g op = some callId) :
    callId = callIdOf g.nextCallSeq ∧
      increment env g.nextCallSeq = some (gatewayStep env g op).nextCallSeq := by
  unfold givenCallId at h
  cases hcreated : created env g op with
  | some p =>
      rw [hcreated] at h
      obtain ⟨m, -, -, rfl, -, hseq⟩ := created_eq_some hcreated
      exact ⟨(Option.some_inj.mp h).symm, hseq⟩
  | none =>
      rw [hcreated] at h
      simp only at h
      split at h
      · rename_i m event events hm hanswer
        cases turn_perform env g hm with
        | refused g' store metrics hchecked hgateway hinvoked hreply =>
            obtain ⟨⟨reason, hreason⟩, -⟩ := hreply _ hanswer
            exact nomatch hreason
        | panicked store seq _ _ hseq hgateway hinvoked hreply =>
            exact nomatch hanswer.symm.trans hreply
        | executed store store' metrics seq tokens hpassed hcounted hseq hgateway hinvoked hreply =>
            obtain ⟨⟨events', hevents⟩, -⟩ := hreply _ hanswer
            obtain ⟨rfl, -⟩ := List.cons.inj (Outcome.executed.inj (Except.ok.inj hevents))
            rw [eventCallId_toolCall] at h
            refine ⟨(Option.some_inj.mp h).symm, ?_⟩
            rw [gatewayStep, hgateway]
            exact hseq
        | queued store metrics seq request hpassed hcounted hseq hrequest hgateway hinvoked hreply =>
            exact nomatch (hreply _ hanswer).1
      · exact absurd h (by simp)

/-! ## The queue over a run -/

/-- The requests on the queue have ids that were given out, each its own. -/
structure WellQueued (g : Gateway) : Prop where
  below : ∀ p ∈ g.pending, p.requestId.toNat < g.nextRequestId.toNat
  distinct : (g.pending.map PendingApproval.requestId).Nodup

theorem requestOf_eq_none_iff {requestId : UInt64} :
    requestOf g requestId = none ↔ ∀ p ∈ g.pending, p.requestId ≠ requestId := by
  rw [requestOf, List.find?_eq_none]
  simp

theorem requestOf_eq_some {requestId : UInt64} {p : PendingApproval}
    (h : requestOf g requestId = some p) : p ∈ g.pending ∧ p.requestId = requestId := by
  have hmem := List.mem_of_find?_eq_some h
  have hid := List.find?_some h
  exact ⟨hmem, of_decide_eq_true hid⟩

/-- Once a request is taken from the queue, its id is no longer there. -/
theorem WellQueued.requestOf_withoutRequest (hg : WellQueued g) (requestId : UInt64) :
    requestOf (withoutRequest g requestId) requestId = none := by
  rw [requestOf_eq_none_iff]
  intro p hp
  have hp : p ∈ g.pending.eraseP fun p => p.requestId = requestId := hp
  rw [eraseP_eq_filter hg.distinct] at hp
  simpa using (List.mem_filter.mp hp).2

theorem WellQueued.step (hg : WellQueued g) (hlt : g.nextRequestId.toNat + 1 < 2 ^ 64)
    (op : GatewayCall) : WellQueued (gatewayStep env g op) := by
  cases queueStep env g op with
  | kept hpending hrequest hseq =>
      constructor
      · rw [hpending, hrequest]
        exact hg.below
      · rw [hpending]
        exact hg.distinct
  | created m hm hcls hpending hrequest hseq =>
      have hnext := toNat_of_increment hrequest hlt
      constructor
      · intro p hp
        rw [hpending, List.mem_append, List.mem_singleton] at hp
        rcases hp with hp | rfl
        · have hbelow := hg.below p hp
          omega
        · show g.nextRequestId.toNat < _
          omega
      · rw [hpending, List.map_append, List.map_singleton, ← List.concat_eq_append,
          List.nodup_concat]
        refine ⟨fun hmem => ?_, hg.distinct⟩
        obtain ⟨p, hp, hid⟩ := List.mem_map.mp hmem
        have hbelow := hg.below p hp
        rw [hid] at hbelow
        exact absurd hbelow (lt_irrefl _)
  | settled requestId approved decidedBy executor p hop hp hpending hrequest hseq =>
      have hsub : (gatewayStep env g op).pending.Sublist g.pending := by
        rw [hpending]
        exact List.eraseP_sublist
      constructor
      · intro q hq
        rw [hrequest]
        exact hg.below q (hsub.subset hq)
      · exact hg.distinct.sublist (hsub.map _)

/-- The id was given out and is not on the queue. -/
def Gone (requestId : UInt64) (g : Gateway) : Prop :=
  requestId.toNat < g.nextRequestId.toNat ∧ requestOf g requestId = none

theorem Gone.step {requestId : UInt64} (h : Gone requestId g)
    (hlt : g.nextRequestId.toNat + 1 < 2 ^ 64) (op : GatewayCall) :
    Gone requestId (gatewayStep env g op) := by
  obtain ⟨hbelow, hnone⟩ := h
  rw [requestOf_eq_none_iff] at hnone
  cases queueStep env g op with
  | kept hpending hrequest hseq =>
      rw [Gone, requestOf_eq_none_iff, hpending, hrequest]
      exact ⟨hbelow, hnone⟩
  | created m hm hcls hpending hrequest hseq =>
      have hnext := toNat_of_increment hrequest hlt
      rw [Gone, requestOf_eq_none_iff, hpending]
      refine ⟨by omega, fun p hp => ?_⟩
      rcases List.mem_append.mp hp with hp | hp
      · exact hnone p hp
      · -- a new request has an id above every one that was given out
        rw [List.mem_singleton.mp hp]
        show g.nextRequestId ≠ requestId
        intro heq
        rw [heq] at hbelow
        exact absurd hbelow (lt_irrefl _)
  | settled other approved decidedBy executor p hop hp hpending hrequest hseq =>
      have hsub : (gatewayStep env g op).pending.Sublist g.pending := by
        rw [hpending]
        exact List.eraseP_sublist
      rw [Gone, requestOf_eq_none_iff, hrequest]
      exact ⟨hbelow, fun p hp => hnone p (hsub.subset hp)⟩

theorem gone_of_settled {requestId : UInt64} (hg : WellQueued g)
    (h : settled g op = some requestId) : Gone requestId (gatewayStep env g op) := by
  cases op with
  | resolve id approved decidedBy executor =>
      obtain ⟨p, hp, rfl⟩ := Option.map_eq_some_iff.mp h
      obtain ⟨store, ticks, dailyUsage, metrics, hgateway⟩ :=
        (@perform_resolve_known env g id approved decidedBy executor p hp).1.fields
      obtain ⟨hmem, hid⟩ := requestOf_eq_some hp
      rw [Gone, gatewayStep, hgateway]
      refine ⟨?_, hg.requestOf_withoutRequest id⟩
      rw [← hid]
      exact hg.below p hmem
  | _ => exact absurd h (by simp [settled])

/-- A request is settled once. -/
theorem settled_nodup (hg : WellQueued g)
    (hlt : ∀ x ∈ trace (gatewayStep env) g ops, x.1.nextRequestId.toNat + 1 < 2 ^ 64) :
    ((trace (gatewayStep env) g ops).filterMap fun x => settled x.1 x.2).Nodup := by
  induction ops generalizing g with
  | nil => exact List.nodup_nil
  | cons op ops ih =>
      rw [trace, List.forall_mem_cons] at hlt
      have hrest := ih (hg.step hlt.1 op) hlt.2
      rw [trace, List.filterMap_cons]
      cases hsettled : settled g op with
      | none => exact hrest
      | some requestId =>
          refine List.nodup_cons.mpr ⟨fun hmem => ?_, hrest⟩
          obtain ⟨x, hx, hagain⟩ := List.mem_filterMap.mp hmem
          have hgone := (holds_along_trace (P := Gone requestId) (gone_of_settled hg hsettled)
            fun x hx h => h.step (hlt.2 x hx) x.2).1 x hx
          -- a settled id is on the queue before
          cases hop : x.2 with
          | resolve id approved decidedBy executor =>
              rw [hop] at hagain
              obtain ⟨p, hp, rfl⟩ := Option.map_eq_some_iff.mp hagain
              exact nomatch hgone.2.symm.trans hp
          | _ =>
              rw [hop] at hagain
              exact absurd hagain (by simp [settled])

theorem created_of_pending {p : PendingApproval}
    (h : (gatewayStep env g op).pending = g.pending ++ [p]) : created env g op = some p := by
  have hdef : created env g op =
      if g.pending.length < (gatewayStep env g op).pending.length then
        (gatewayStep env g op).pending.getLast? else none := rfl
  rw [hdef, h, if_pos (by simp), List.getLast?_concat]

/-- Each request on the queue was put there by a call in review. -/
theorem putByReview_of_pending (ops : List GatewayCall) {p : PendingApproval}
    (hp : p ∈ (run (gatewayStep env) (withStore store) ops).pending) :
    PutByReview env (gatewayTrace env store ops) p := by
  induction ops using List.reverseRecOn with
  | nil => exact absurd hp List.not_mem_nil
  | append_singleton ops op ih =>
      have htrace : gatewayTrace env store (ops ++ [op]) = gatewayTrace env store ops ++
          [(run (gatewayStep env) (withStore store) ops, op)] := trace_append _ _ _
      have hold : p ∈ (run (gatewayStep env) (withStore store) ops).pending →
          PutByReview env (gatewayTrace env store (ops ++ [op])) p := by
        intro hp
        obtain ⟨y, hy, hcreated⟩ := ih hp
        rw [htrace]
        exact ⟨y, List.mem_append_left _ hy, hcreated⟩
      rw [run_append, run_cons, run_nil] at hp
      cases queueStep env (run (gatewayStep env) (withStore store) ops) op with
      | kept hpending hrequest hseq =>
          rw [hpending] at hp
          exact hold hp
      | created m hm hcls hpending hrequest hseq =>
          rw [hpending, List.mem_append, List.mem_singleton] at hp
          rcases hp with hp | rfl
          · exact hold hp
          · rw [htrace]
            exact ⟨_, List.mem_append_right _ (List.mem_singleton_self _),
              created_of_pending hpending, m, hm, rfl, hcls⟩
      | settled requestId approved decidedBy executor q hop hq hpending hrequest hseq =>
          rw [hpending] at hp
          exact hold (List.mem_of_mem_eraseP hp)

/-- What a call executes is licensed. -/
theorem licensed_of_invoked (ops : List GatewayCall) {x : Gateway × ToolCall}
    (hx : x ∈ (perform env (run (gatewayStep env) (withStore store) ops) op).invoked) :
    Licensed env (gatewayTrace env store ops) (run (gatewayStep env) (withStore store) ops) op x.2 := by
  cases course env (run (gatewayStep env) (withStore store) ops) op with
  | turn m hm hturn =>
      cases hturn with
      | executed start store' metrics seq tokens hpassed hcounted hseq hgateway hinvoked hreply =>
          rw [hinvoked, List.mem_singleton] at hx
          left
          exact ⟨m, hm, by rw [hx], hpassed.1, hpassed.2⟩
      | refused _ _ _ _ _ hinvoked _ =>
          rw [hinvoked] at hx
          exact absurd hx List.not_mem_nil
      | panicked _ _ _ _ _ _ hinvoked _ =>
          rw [hinvoked] at hx
          exact absurd hx List.not_mem_nil
      | queued _ _ _ _ _ _ _ _ _ hinvoked _ =>
          rw [hinvoked] at hx
          exact absurd hx List.not_mem_nil
  | dismissed agent line outcome answer _ _ hperform =>
      rw [hperform, dismiss_invoked] at hx
      exact absurd hx List.not_mem_nil
  | unknown _ _ _ _ _ _ hperform =>
      rw [hperform] at hx
      exact absurd hx List.not_mem_nil
  | settled id approved decidedBy executor p hop hp _ hinvoked _ =>
      obtain ⟨start, hinvoked⟩ := hinvoked
      obtain ⟨hmem, hid⟩ := requestOf_eq_some hp
      rw [hinvoked] at hx
      cases approved with
      | false => exact absurd hx List.not_mem_nil
      | true =>
          have hcall : x.2 = p.call := by rw [List.mem_singleton.mp hx]
          right
          exact ⟨id, decidedBy, executor, p, hop, hmem, hid, hcall.symm,
            putByReview_of_pending ops hmem⟩

theorem invoked_length_le (env : GatewayEnv) (g : Gateway) (op : GatewayCall) :
    (perform env g op).invoked.length ≤ 1 := by
  cases course env g op with
  | turn m hm hturn =>
      cases hturn with
      | refused _ _ _ _ _ hinvoked _ => simp [hinvoked]
      | panicked _ _ _ _ _ _ hinvoked _ => simp [hinvoked]
      | executed _ _ _ _ _ _ _ _ _ hinvoked _ => simp [hinvoked]
      | queued _ _ _ _ _ _ _ _ _ hinvoked _ => simp [hinvoked]
  | dismissed _ _ _ _ _ _ hperform => simp [hperform, dismiss_invoked]
  | unknown _ _ _ _ _ _ hperform => simp [hperform]
  | settled id approved decidedBy executor p hop hp _ hinvoked _ =>
      obtain ⟨start, hinvoked⟩ := hinvoked
      rw [hinvoked]
      split
      · exact le_rfl
      · exact Nat.zero_le 1

/-- A call that returns, other than a decision on an unknown request, has refreshed the gauge. -/
theorem gaugeExact_of_answer {a : Except GatewayError Outcome}
    (ha : (perform env g op).answer = some a) (hknown : ∀ requestId, a ≠ .error (.unknownRequest requestId)) :
    GaugeExact (perform env g op).gateway := by
  cases course env g op with
  | turn m hm hturn =>
      cases hturn with
      | refused _ _ _ _ _ _ hreply => exact (hreply a ha).2
      | panicked _ _ _ _ _ _ _ hreply => exact nomatch ha.symm.trans hreply
      | executed _ _ _ _ _ _ _ _ _ _ hreply => exact (hreply a ha).2
      | queued _ _ _ _ _ _ _ _ _ _ hreply => exact (hreply a ha).2
  | dismissed _ _ _ _ _ _ hperform =>
      rw [hperform] at ha ⊢
      exact (of_dismiss_answer ha).2
  | unknown id _ _ _ _ _ hperform =>
      rw [hperform] at ha
      exact absurd (Option.some_inj.mp ha).symm (hknown id)
  | settled _ _ _ _ _ _ _ _ _ hreply => exact (hreply a ha).2

/-- The counters do not go down while they do not wrap. -/
theorem counters_mono (op : GatewayCall)
    (hlt : g.nextRequestId.toNat + 1 < 2 ^ 64 ∧ g.nextCallSeq.toNat + 1 < 2 ^ 64) :
    g.nextRequestId.toNat ≤ (gatewayStep env g op).nextRequestId.toNat ∧
      g.nextCallSeq.toNat ≤ (gatewayStep env g op).nextCallSeq.toNat := by
  cases queueStep env g op with
  | kept hpending hrequest hseq =>
      rw [hrequest]
      refine ⟨le_rfl, ?_⟩
      rcases hseq with hseq | hseq
      · rw [hseq]
      · have hnext := toNat_of_increment hseq hlt.2
        omega
  | created m hm hcls hpending hrequest hseq =>
      have hnextRequest := toNat_of_increment hrequest hlt.1
      have hnextSeq := toNat_of_increment hseq hlt.2
      omega
  | settled requestId approved decidedBy executor p hop hp hpending hrequest hseq =>
      rw [hrequest, hseq]
      exact ⟨le_rfl, le_rfl⟩

theorem injOn_callIdOf : Set.InjOn (fun n : Nat => callIdOf (UInt64.ofNat n)) {n | n < 2 ^ 64} := by
  intro n hn m hm heq
  have hn : n < 2 ^ 64 := hn
  have hm : m < 2 ^ 64 := hm
  have hdecimal : decimal (UInt64.ofNat n).toNat = decimal (UInt64.ofNat m).toNat :=
    List.append_cancel_left heq
  rw [UInt64.toNat_ofNat_of_lt' hn, UInt64.toNat_ofNat_of_lt' hm] at hdecimal
  have hparse := parseU64_decimal hn
  rw [hdecimal, parseU64_decimal hm] at hparse
  exact (Option.some_inj.mp hparse).symm

end

/-- Every execution of a run is licensed, a request is settled once, ids are given out once, an unknown
request changes nothing and the gauge shows the queue. -/
theorem executionsSafe (env : GatewayEnv) (store : Store Bytes) (ops : List GatewayCall)
    (hlen : ops.length < 2 ^ 64) : ExecutionsSafe env store ops := by
  have hlt : ∀ x ∈ gatewayTrace env store ops,
      x.1.nextRequestId.toNat + 1 < 2 ^ 64 ∧ x.1.nextCallSeq.toNat + 1 < 2 ^ 64 :=
    fun x hx => counters_lt hlen hx
  constructor
  case licensed =>
    intro before op after _ g x hx
    exact licensed_of_invoked before hx
  case oneAtMost =>
    intro x _
    exact invoked_length_le env x.1 x.2
  case settledOnce =>
    have hempty : WellQueued (withStore store) := ⟨fun p hp => absurd hp List.not_mem_nil, List.nodup_nil⟩
    exact settled_nodup hempty fun x hx => (hlt x hx).1
  case requestIds =>
    apply nodup_issued (fun g : Gateway => g.nextRequestId.toNat) injOn_ofNat
    intro x hx
    have hnowrap := hlt x hx
    refine ⟨by omega, (counters_mono x.2 hnowrap).1, fun requestId hid => ?_⟩
    obtain ⟨p, hcreated, rfl⟩ := Option.map_eq_some_iff.mp hid
    obtain ⟨m, -, -, rfl, hrequest, -⟩ := created_eq_some hcreated
    have hnext := toNat_of_increment hrequest hnowrap.1
    exact ⟨UInt64.ofNat_toNat.symm, by omega⟩
  case callIds =>
    apply nodup_issued (fun g : Gateway => g.nextCallSeq.toNat) injOn_callIdOf
    intro x hx
    have hnowrap := hlt x hx
    refine ⟨by omega, (counters_mono x.2 hnowrap).2, fun callId hid => ?_⟩
    obtain ⟨rfl, hseq⟩ := givenCallId_eq_some hid
    have hnext := toNat_of_increment hseq hnowrap.2
    refine ⟨?_, by omega⟩
    show _ = callIdOf (UInt64.ofNat x.1.nextCallSeq.toNat)
    rw [UInt64.ofNat_toNat]
  case unknown =>
    intro x _ requestId approved decidedBy executor hop hunknown
    rw [hop]
    exact perform_resolve_unknown (requestOf_eq_none_iff.mpr hunknown)
  case gauge =>
    intro x _ a ha hknown
    exact gaugeExact_of_answer ha hknown

namespace SampleGateway

/-- A call in review, and its approval. -/
def approvedRun : List GatewayCall :=
  [.handle (grant .review) (call worker) executor, .resolve 0 true "human" executor]

end SampleGateway

open SampleGateway in
theorem executionsSafe_approvedRun :
    approvedRun.length < 2 ^ 64 ∧ ExecutionsSafe env Store.empty approvedRun := by
  have hlen : approvedRun.length < 2 ^ 64 := by
    show 2 < 2 ^ 64
    norm_num
  exact ⟨hlen, executionsSafe env Store.empty approvedRun hlen⟩

end GaussMatrix.Agent
