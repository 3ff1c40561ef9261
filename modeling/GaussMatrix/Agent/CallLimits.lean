import GaussMatrix.Agent.TokenBudget

/-!
# Rate and daily limits

The calls that the window and the usage table count are at least those that were admitted, so a call
that passes the checks finds fewer of them than its limits allow.
-/

namespace GaussMatrix.Agent

open Library Util Audit Obs Gateway

/-- When a call is admitted: the reading that its note for the rate takes, in seconds. -/
def admissionTime (env : GatewayEnv) (g : Gateway) (m : Mediation) : Nat :=
  (env.clock (g.checkBudgets env m.grant m.call).2.ticks).toNat

instance (env : GatewayEnv) (g : Gateway) (op : GatewayCall) : Decidable (NoAct env g op) :=
  inferInstanceAs (Decidable (_ ∧ _))

/-- The agent and the time of the call that a step of a run admits: it is executed or queued. -/
def admission (env : GatewayEnv) (x : Gateway × GatewayCall) : Option (AgentId × Nat) :=
  match x.2.mediated with
  | some m => if NoAct env x.1 x.2 then none else some (m.call.agent, admissionTime env x.1 m)
  | none => none

/-- What is admitted over a run. -/
def admissions (env : GatewayEnv) (store : Store Bytes) (ops : List GatewayCall) :
    List (AgentId × Nat) :=
  (gatewayTrace env store ops).filterMap (admission env)

/-- A property of the admissions so far and the gateway that the parts of a call keep, where the
calls that go into mediation are as expected. -/
structure HistoryInvariant (env : GatewayEnv) (expected : Mediation → Prop)
    (I : List (AgentId × Nat) → Gateway → Prop) : Prop where
  fields : ∀ h g store nextCallSeq nextRequestId pending metrics, I h g →
    I h { g with store, nextCallSeq, nextRequestId, pending, metrics }
  shorter : ∀ h x g, I (h ++ [x]) g → I h g
  checked : ∀ h g (m : Mediation), I h g → I h (g.checkBudgets env m.grant m.call).2
  counted : ∀ h g (m : Mediation), expected m → (g.checkBudgets env m.grant m.call).1 = none → I h g →
    I (h ++ [(m.call.agent, admissionTime env g m)]) (g.counted env m).2
  tokens : ∀ h g agent tokens, I h g → I h (g.noteTokens env agent tokens)

section

variable {env : GatewayEnv} {g : Gateway} {op : GatewayCall} {m : Mediation}
  {expected : Mediation → Prop} {I : List (AgentId × Nat) → Gateway → Prop}
  {h : List (AgentId × Nat)}

theorem admission_of_noAct (hno : NoAct env g op) : admission env (g, op) = none := by
  unfold admission
  split
  · exact if_pos hno
  · rfl

theorem admission_of_acts (hm : op.mediated = some m) (hact : ¬ NoAct env g op) :
    admission env (g, op) = some (m.call.agent, admissionTime env g m) := by
  unfold admission
  simp only [hm]
  exact if_neg hact

theorem admission_eq_some {x : AgentId × Nat} (hx : admission env (g, op) = some x) :
    ∃ m, op.mediated = some m ∧ (g.checkBudgets env m.grant m.call).1 = none ∧
      x = (m.call.agent, admissionTime env g m) := by
  cases hm : op.mediated with
  | none =>
      simp only [admission, hm] at hx
      exact nomatch hx
  | some m =>
      by_cases hno : NoAct env g op
      · exact nomatch (admission_of_noAct hno).symm.trans hx
      · obtain rfl := Option.some_inj.mp ((admission_of_acts hm hno).symm.trans hx)
        rw [noAct_iff_of_mediated hm, not_or, not_or, not_not] at hno
        exact ⟨m, rfl, hno.2.1, rfl⟩

/-- A call of the gateway keeps the invariant, with the admission it makes. -/
theorem HistoryInvariant.step (hI : HistoryInvariant env expected I)
    (hop : ∀ m, op.mediated = some m → expected m) (hg : I h g) :
    I (h ++ (admission env (g, op)).toList) (gatewayStep env g op) := by
  cases course env g op with
  | turn m hm hturn =>
      have hcounted := hI.counted h g m (hop m hm)
      have hnoAct : NoAct env g op ↔ _ := noAct_iff_of_mediated hm
      cases hturn with
      | refused g' store metrics hchecked hgateway _ _ =>
          -- nothing is admitted; the budgets may have dropped what is out of date
          have hno : NoAct env g op := by
            rw [hnoAct]
            rcases hchecked with ⟨hcls, -⟩ | ⟨-, hrefused, -⟩
            · exact .inl hcls
            · exact .inr (.inl hrefused)
          rw [admission_of_noAct hno, Option.toList_none, List.append_nil, gatewayStep, hgateway]
          have hg' : I h g' := by
            rcases hchecked with ⟨-, rfl⟩ | ⟨-, -, rfl⟩
            · exact hg
            · exact hI.checked h g m hg
          exact hI.fields h g' store _ _ _ metrics hg'
      | panicked store seq hpassed hoverflow _ hgateway _ _ =>
          -- the call was counted, but nothing came of it
          have hno : NoAct env g op := hnoAct.mpr (.inr (.inr (overflows_iff.mpr hoverflow)))
          rw [admission_of_noAct hno, Option.toList_none, List.append_nil, gatewayStep, hgateway]
          exact hI.fields h _ store seq _ _ _ (hI.shorter h _ _ (hcounted hpassed.2 hg))
      | executed store store' metrics seq tokens hpassed _ _ hgateway hinvoked _ =>
          -- the call is counted, and then its tokens are
          have hact : ¬ NoAct env g op := by
            intro hno
            cases hinvoked.symm.trans hno.1
          rw [admission_of_acts hm hact, gatewayStep, hgateway]
          exact hI.fields _ _ store seq _ _ metrics (hI.tokens _ _ _ tokens (hcounted hpassed.2 hg))
      | queued store metrics seq request hpassed _ _ _ hgateway _ _ =>
          have hact : ¬ NoAct env g op := by
            intro hno
            have hpending := hno.2
            rw [hgateway] at hpending
            exact absurd hpending (by simp)
          rw [admission_of_acts hm hact, gatewayStep, hgateway]
          exact hI.fields _ _ store seq request _ metrics (hcounted hpassed.2 hg)
  | dismissed agent line outcome answer hm _ hperform =>
      have hnone : admission env (g, op) = none := by simp only [admission, hm]
      obtain ⟨store, metrics, hgateway⟩ := dismiss_gateway env g agent line outcome answer
      rw [hnone, Option.toList_none, List.append_nil, gatewayStep, hperform, hgateway]
      exact hI.fields h g store _ _ _ metrics hg
  | unknown requestId approved decidedBy executor hop _ hperform =>
      have hnone : admission env (g, op) = none := by simp only [admission, hop, GatewayCall.mediated]
      rw [hnone, Option.toList_none, List.append_nil, gatewayStep, hperform]
      exact hg
  | settled requestId approved decidedBy executor p hop _ hgateway _ _ =>
      -- an approved call was counted when it was queued
      have hnone : admission env (g, op) = none := by simp only [admission, hop, GatewayCall.mediated]
      obtain ⟨tokens, store, metrics, hgateway⟩ := hgateway
      rw [hnone, Option.toList_none, List.append_nil, gatewayStep, hgateway]
      have hwithout : I h (withoutRequest g requestId) := hI.fields h g _ _ _ _ _ hg
      cases approved with
      | false => exact hI.fields h _ store _ _ _ metrics hwithout
      | true => exact hI.fields h _ store _ _ _ metrics (hI.tokens h _ _ tokens hwithout)

/-- If an admission finds fewer than a bound, no more than the bound are made over a run. -/
theorem HistoryInvariant.countP_admissions_le {store : Store Bytes} {ops : List GatewayCall}
    {p : AgentId × Nat → Bool} {bound : Nat} (hI : HistoryInvariant env expected I)
    (hops : ∀ op ∈ ops, ∀ m, op.mediated = some m → expected m) (hstart : I [] (withStore store))
    (hfew : ∀ h g m, expected m → (g.checkBudgets env m.grant m.call).1 = none → I h g →
      p (m.call.agent, admissionTime env g m) → h.countP p < bound) :
    (admissions env store ops).countP p ≤ bound := by
  apply countP_history_le hstart
  intro x hx h hh
  have hop := hops x.2 (mem_of_mem_trace hx)
  refine ⟨hI.step hop hh, fun k hk hp => ?_⟩
  obtain ⟨m, hm, hpassed, rfl⟩ := admission_eq_some hk
  exact hfew h x.1 m (hop m hm) hpassed hh hp

end

/-! ## The rate window -/

/-- Every reading of the clock is positive. -/
def PositiveClock (env : GatewayEnv) : Prop := ∀ i, 0 < env.clock i

/-- After each time that no cutoff has passed, the window holds as many calls of the agent as were
admitted, or more. -/
structure RateCounted (env : GatewayEnv) (agent : AgentId) (h : List (AgentId × Nat)) (g : Gateway) :
    Prop where
  positive : ∀ x ∈ h, 0 < x.2
  counted : ∀ c, (∀ i < g.ticks, (env.clock i).toNat ≤ c + 60) →
    (h.countP fun x => x.1 = agent ∧ c < x.2) ≤
      g.recentCalls.countP fun r => r.1 = agent.asStr ∧ c < r.2.toNat

section

variable {env : GatewayEnv} {g g' : Gateway} {m : Mediation} {agent : AgentId}
  {h : List (AgentId × Nat)}

theorem toNat_cutoff (now : UInt64) :
    (if now < rateWindowSecs then 0 else now - rateWindowSecs).toNat = now.toNat - 60 := by
  have hwindow : rateWindowSecs.toNat = 60 := rfl
  split
  · rename_i hlt
    rw [UInt64.lt_iff_toNat_lt, hwindow] at hlt
    show 0 = _
    omega
  · rename_i hge
    rw [UInt64.toNat_sub_of_le _ _ (UInt64.not_lt.mp hge), hwindow]

/-- A limited rate is checked against the calls after the cutoff, and the others are dropped. -/
theorem isRateLimited_eq_of_limit {limit : UInt32} (hlimit : limit ≠ 0) (name : Str) :
    g.isRateLimited env name limit =
      (decide (limit.toNat ≤ g.recentCalls.countP fun r =>
        r.1 = name ∧ (env.clock g.ticks).toNat - 60 < r.2.toNat),
      { g with
        ticks := g.ticks + 1
        recentCalls := g.recentCalls.filter fun r => (env.clock g.ticks).toNat - 60 < r.2.toNat }) := by
  have hcutoff : ∀ r : Str × UInt64,
      (if env.clock g.ticks < rateWindowSecs then 0 else env.clock g.ticks - rateWindowSecs) < r.2 ↔
        (env.clock g.ticks).toNat - 60 < r.2.toNat := by
    intro r
    rw [UInt64.lt_iff_toNat_lt, toNat_cutoff]
  unfold Gateway.isRateLimited nowUnixSecs
  rw [if_neg hlimit]
  simp only [hcutoff, List.filter_filter, ← List.countP_eq_length_filter, Bool.decide_and]

theorem RateCounted.of_fields (hh : RateCounted env agent h g) (hticks : g.ticks ≤ g'.ticks)
    (hcalls : g'.recentCalls = g.recentCalls) : RateCounted env agent h g' := by
  refine ⟨hh.positive, fun c hc => ?_⟩
  rw [hcalls]
  exact hh.counted c fun i hi => hc i (lt_of_lt_of_le hi hticks)

/-- Whoever's rate is checked, the calls that are dropped are before the cutoff. -/
theorem RateCounted.isRateLimited (hh : RateCounted env agent h g) (name : Str) (limit : UInt32) :
    RateCounted env agent h (g.isRateLimited env name limit).2 := by
  by_cases hlimit : limit = 0
  · rw [Gateway.isRateLimited, if_pos hlimit]
    exact hh
  · rw [isRateLimited_eq_of_limit hlimit]
    refine ⟨hh.positive, fun c hc => ?_⟩
    have hbefore := hh.counted c fun i hi => hc i (Nat.lt_succ_of_lt hi)
    have hnow := hc g.ticks (Nat.lt_succ_self _)
    rw [List.countP_filter]
    apply le_trans hbefore
    apply List.countP_mono_left
    intro r _ hr
    have hr := of_decide_eq_true hr
    rw [Bool.and_eq_true, decide_eq_true_eq, decide_eq_true_eq]
    exact ⟨hr, by omega⟩

theorem ticks_le_isOverDailyBudget (env : GatewayEnv) (g : Gateway) (name : Str) (limit : UInt32) :
    g.ticks ≤ (g.isOverDailyBudget env name limit).2.ticks := by
  unfold isOverDailyBudget
  split
  · exact le_rfl
  · exact Nat.le_succ _

theorem ticks_le_isOverTokenBudget (env : GatewayEnv) (g : Gateway) (name : Str) (budget : UInt64) :
    g.ticks ≤ (g.isOverTokenBudget env name budget).2.ticks := by
  unfold isOverTokenBudget
  split
  · exact le_rfl
  · exact Nat.le_succ _

theorem ticks_le_isRateLimited (env : GatewayEnv) (g : Gateway) (name : Str) (limit : UInt32) :
    g.ticks ≤ (g.isRateLimited env name limit).2.ticks := by
  unfold Gateway.isRateLimited
  split
  · exact le_rfl
  · exact Nat.le_succ _

theorem ticks_le_checkBudgets (env : GatewayEnv) (g : Gateway) (grant : CapabilityGrant)
    (call : ToolCall) : g.ticks ≤ (g.checkBudgets env grant call).2.ticks := by
  apply checkBudgets_of_checks (P := fun g' => g.ticks ≤ g'.ticks)
  · exact fun g' limit hle => hle.trans (ticks_le_isRateLimited env g' _ limit)
  · exact fun g' limit hle => hle.trans (ticks_le_isOverDailyBudget env g' _ limit)
  · exact fun g' budget hle => hle.trans (ticks_le_isOverTokenBudget env g' _ budget)
  · exact le_rfl

theorem RateCounted.checkBudgets (hh : RateCounted env agent h g) (m : Mediation) :
    RateCounted env agent h (g.checkBudgets env m.grant m.call).2 := by
  apply checkBudgets_of_checks (P := RateCounted env agent h) ?_ ?_ ?_ hh
  · exact fun g' limit hh => hh.isRateLimited _ limit
  · intro g' limit hh
    apply hh.of_fields (ticks_le_isOverDailyBudget env g' _ limit)
    obtain ⟨ticks, dailyUsage, heq⟩ := isOverDailyBudget_eq env g' m.call.agent.asStr limit
    rw [heq]
  · intro g' budget hh
    apply hh.of_fields (ticks_le_isOverTokenBudget env g' _ budget)
    obtain ⟨ticks, dailyUsage, heq⟩ := isOverTokenBudget_eq env g' m.call.agent.asStr budget
    rw [heq]

/-- An admitted call is noted with its time. -/
theorem RateCounted.of_counted (hclock : PositiveClock env) (hh : RateCounted env agent h g)
    (m : Mediation) :
    RateCounted env agent (h ++ [(m.call.agent, admissionTime env g m)]) (g.counted env m).2 := by
  have hchecked := hh.checkBudgets m
  obtain ⟨dailyUsage, hdaily⟩ := noteDailyCall_eq env
    ((g.checkBudgets env m.grant m.call).2.noteCall env m.call.agent.asStr) m.call.agent.asStr
  have hcounted : (g.counted env m).2 = _ := hdaily
  constructor
  · intro x hx
    rcases List.mem_append.mp hx with hx | hx
    · exact hh.positive x hx
    · rw [List.mem_singleton.mp hx]
      exact UInt64.lt_iff_toNat_lt.mp (hclock _)
  · intro c hc
    rw [hcounted] at hc ⊢
    have hbefore := hchecked.counted c fun i hi => hc i (Nat.lt_succ_of_lt (Nat.lt_succ_of_lt hi))
    show _ ≤ ((g.checkBudgets env m.grant m.call).2.recentCalls ++ [(m.call.agent.asStr, _)]).countP _
    rw [List.countP_append, List.countP_append]
    apply Nat.add_le_add hbefore
    apply le_of_eq
    rw [List.countP_singleton, List.countP_singleton]
    have hagent : m.call.agent = agent ↔ m.call.agent.asStr = agent.asStr :=
      ⟨congrArg _, fun h => UserId.ext h⟩
    simp only [admissionTime, hagent]

theorem rateCounted_invariant (hclock : PositiveClock env) (agent : AgentId)
    (expected : Mediation → Prop) : HistoryInvariant env expected (RateCounted env agent) where
  fields := fun h g _ _ _ _ _ hh => hh.of_fields le_rfl rfl
  shorter := by
    intro h x g hh
    refine ⟨fun y hy => hh.positive y (List.mem_append_left _ hy), fun c hc => ?_⟩
    have hlonger := hh.counted c hc
    rw [List.countP_append] at hlonger
    exact (Nat.le_add_right _ _).trans hlonger
  checked := fun h g m hh => hh.checkBudgets m
  counted := fun h g m _ _ hh => hh.of_counted hclock m
  tokens := by
    intro h g name tokens hh
    obtain ⟨dailyUsage, heq⟩ := @noteTokens_eq env g name tokens
    rw [heq]
    exact hh.of_fields (Nat.le_succ _) rfl

/-- A call that passes the check of its rate finds fewer admitted calls in the window before any time
from its own on. -/
theorem countP_window_lt {limit : UInt32} {t : Nat} (hclock : NondecreasingClock env)
    (hlimit : 0 < limit) (hgrant : m.grant.rateLimitPerMin = limit)
    (hpassed : (g.checkBudgets env m.grant m.call).1 = none)
    (hh : RateCounted env m.call.agent h g) (ht : admissionTime env g m ≤ t) :
    (h.countP fun x => x.1 = m.call.agent ∧ t < x.2 + 60 ∧ x.2 ≤ t) < limit.toNat := by
  have hnow : (env.clock g.ticks).toNat ≤ t :=
    (UInt64.le_iff_toNat_le.mp (hclock _ _ (ticks_le_checkBudgets env g m.grant m.call))).trans ht
  have hwindow := hh.counted ((env.clock g.ticks).toNat - 60) fun i hi => by
    have hle := UInt64.le_iff_toNat_le.mp (hclock i g.ticks hi.le)
    omega
  have hfew : (g.recentCalls.countP fun r => r.1 = m.call.agent.asStr ∧
      (env.clock g.ticks).toNat - 60 < r.2.toNat) < limit.toNat := by
    obtain ⟨hrate, -⟩ := of_checkBudgets_none hpassed
    have hlimited : m.grant.rateLimitPerMin ≠ 0 := by
      rw [hgrant]
      exact fun h => absurd hlimit (by simp [h])
    rw [isRateLimited_eq_of_limit hlimited, hgrant] at hrate
    exact not_le.mp (of_decide_eq_false hrate)
  apply lt_of_le_of_lt _ (lt_of_le_of_lt hwindow hfew)
  apply List.countP_mono_left
  intro x hx hin
  have hin := of_decide_eq_true hin
  have hpositive := hh.positive x hx
  apply decide_eq_true
  refine ⟨hin.1, ?_⟩
  omega

end

/-! ## The daily usage -/

/-- The unix day of a reading of the clock. -/
def dayAt (env : GatewayEnv) (i : Nat) : Nat := (env.clock i).toNat / 86400

/-- The calls counted for an agent on a day. -/
def callsOn (g : Gateway) (agent : Str) (day : Nat) : Nat :=
  match g.dailyUsage.get agent with
  | some usage => if usage.day.toNat = day then usage.calls.toNat else 0
  | none => 0

/-- The entry of the agent is of a day that was read, and for each day from the last one read on it
counts as many calls as were admitted, or more. -/
structure DayCounted (env : GatewayEnv) (agent : AgentId) (h : List (AgentId × Nat)) (g : Gateway) :
    Prop where
  read : ∀ usage, g.dailyUsage.get agent.asStr = some usage →
    ∃ i < g.ticks, usage.day.toNat = dayAt env i
  counted : ∀ day, (∀ i < g.ticks, dayAt env i ≤ day) →
    (h.countP fun x => x.1 = agent ∧ x.2 / 86400 = day) ≤ callsOn g agent.asStr day

section

variable {env : GatewayEnv} {g g' : Gateway} {m : Mediation} {agent : AgentId}
  {h : List (AgentId × Nat)}

theorem toNat_dailyEntry_day (name : Str) :
    (g.dailyEntry env name).1.day.toNat = dayAt env g.ticks := by
  have hday : (g.dailyEntry env name).1.day = env.clock g.ticks / secsPerDay := by
    rcases dailyEntry_cases env g name with ⟨-, hday⟩ | hnew
    · exact hday
    · rw [hnew]
  rw [hday, UInt64.toNat_div]
  rfl

theorem dayAt_mono (hclock : NondecreasingClock env) {i j : Nat} (hij : i ≤ j) :
    dayAt env i ≤ dayAt env j :=
  Nat.div_le_div_right (UInt64.le_iff_toNat_le.mp (hclock i j hij))

theorem DayCounted.of_fields (hh : DayCounted env agent h g) (hticks : g.ticks ≤ g'.ticks)
    (husage : g'.dailyUsage = g.dailyUsage) : DayCounted env agent h g' := by
  constructor
  · intro usage hget
    rw [husage] at hget
    obtain ⟨i, hi, hday⟩ := hh.read usage hget
    exact ⟨i, by omega, hday⟩
  · intro day hday
    rw [callsOn, husage]
    exact hh.counted day fun i hi => hday i (by omega)

/-- As the entry rolls over, the calls of a day that may still go on are kept. -/
theorem callsOn_le_dailyEntry (hclock : NondecreasingClock env) {name : Str} {day : Nat}
    (hread : ∀ usage, g.dailyUsage.get name = some usage →
      ∃ i < g.ticks, usage.day.toNat = dayAt env i)
    (hday : dayAt env g.ticks ≤ day) :
    callsOn g name day ≤ callsOn (g.dailyEntry env name).2 name day := by
  have hentry : callsOn (g.dailyEntry env name).2 name day =
      if dayAt env g.ticks = day then (g.dailyEntry env name).1.calls.toNat else 0 := by
    rw [callsOn, dailyEntry_eq, SortedMap.get_insert_self]
    simp only [toNat_dailyEntry_day]
  rw [hentry, callsOn]
  cases hget : g.dailyUsage.get name with
  | none => exact Nat.zero_le _
  | some usage =>
      simp only []
      split
      · rename_i husage
        obtain ⟨i, hi, hi'⟩ := hread usage hget
        have hle := dayAt_mono hclock hi.le
        -- the entry's day is the day of this reading too, so it does not start over
        have hsame : dayAt env g.ticks = day := by omega
        have hkept : (g.dailyEntry env name).1 = usage := by
          have hdiv : usage.day = env.clock g.ticks / secsPerDay := by
            apply UInt64.toNat_inj.mp
            rw [UInt64.toNat_div, husage]
            exact hsame.symm
          exact dailyEntry_of_today hget hdiv
        rw [if_pos hsame, hkept]
      · exact Nat.zero_le _

theorem DayCounted.dailyEntry (hclock : NondecreasingClock env) (hh : DayCounted env agent h g)
    (name : Str) : DayCounted env agent h (g.dailyEntry env name).2 := by
  constructor
  · intro usage hget
    rw [dailyEntry_eq, SortedMap.get_insert] at hget
    split at hget
    · refine ⟨g.ticks, Nat.lt_succ_self _, ?_⟩
      rw [← Option.some_inj.mp hget]
      exact toNat_dailyEntry_day name
    · obtain ⟨i, hi, hday⟩ := hh.read usage hget
      exact ⟨i, Nat.lt_succ_of_lt hi, hday⟩
  · intro day hday
    have hbefore := hh.counted day fun i hi => hday i (Nat.lt_succ_of_lt hi)
    apply hbefore.trans
    by_cases hname : agent.asStr = name
    · subst hname
      exact callsOn_le_dailyEntry hclock hh.read (hday g.ticks (Nat.lt_succ_self _))
    · rw [callsOn, callsOn, dailyEntry_eq, SortedMap.get_insert_ne _ hname]

theorem callsOn_insert (g : Gateway) (name : Str) (usage : Usage) (day : Nat) :
    callsOn { g with dailyUsage := g.dailyUsage.insert name usage } name day =
      if usage.day.toNat = day then usage.calls.toNat else 0 := by
  rw [callsOn, SortedMap.get_insert_self]

theorem callsOn_insert_ne (g : Gateway) {name other : Str} (hne : name ≠ other) (usage : Usage)
    (day : Nat) :
    callsOn { g with dailyUsage := g.dailyUsage.insert other usage } name day = callsOn g name day := by
  rw [callsOn, callsOn, SortedMap.get_insert_ne _ hne]

/-- An entry of the same day may take the place of an agent's entry. -/
theorem DayCounted.read_insert (hh : DayCounted env agent h g) {name : Str} {old usage : Usage}
    (hget : g.dailyUsage.get name = some old) {new : Usage}
    (hnew : (g.dailyUsage.insert name usage).get agent.asStr = some new) (hday : usage.day = old.day) :
    ∃ i < g.ticks, new.day.toNat = dayAt env i := by
  rw [SortedMap.get_insert] at hnew
  split at hnew
  · rename_i hname
    obtain rfl := Option.some_inj.mp hnew
    rw [hday]
    exact hh.read old (hname ▸ hget)
  · exact hh.read new hnew

theorem DayCounted.noteTokens (hclock : NondecreasingClock env) (hh : DayCounted env agent h g)
    (name : Str) (tokens : UInt64) : DayCounted env agent h (g.noteTokens env name tokens) := by
  have hrolled := hh.dailyEntry hclock name
  have hget : (g.dailyEntry env name).2.dailyUsage.get name = some (g.dailyEntry env name).1 :=
    SortedMap.get_insert_self _ _ _
  obtain ⟨sum, heq⟩ : ∃ sum, g.noteTokens env name tokens =
      { (g.dailyEntry env name).2 with
        dailyUsage := (g.dailyEntry env name).2.dailyUsage.insert name
          { (g.dailyEntry env name).1 with tokens := sum } } := ⟨_, rfl⟩
  rw [heq]
  constructor
  · intro usage hnew
    exact hrolled.read_insert hget hnew rfl
  · intro day hday
    apply (hrolled.counted day hday).trans
    by_cases hname : agent.asStr = name
    · rw [← hname] at hget ⊢
      rw [callsOn_insert, callsOn, hget]
    · rw [callsOn_insert_ne _ hname]

theorem DayCounted.checkBudgets (hclock : NondecreasingClock env) (hh : DayCounted env agent h g)
    (m : Mediation) : DayCounted env agent h (g.checkBudgets env m.grant m.call).2 := by
  apply checkBudgets_of_checks (P := DayCounted env agent h) ?_ ?_ ?_ hh
  · intro g' limit hh
    apply hh.of_fields (ticks_le_isRateLimited env g' _ limit)
    obtain ⟨ticks, recentCalls, heq⟩ := isRateLimited_eq env g' m.call.agent.asStr limit
    rw [heq]
  · intro g' limit hh
    unfold isOverDailyBudget
    split
    · exact hh
    · exact hh.dailyEntry hclock _
  · intro g' budget hh
    unfold isOverTokenBudget
    split
    · exact hh
    · exact hh.dailyEntry hclock _

/-- A call that passes the checks leaves an entry with fewer calls than the limit. -/
theorem calls_lt_of_checkBudgets (hlimit : 0 < m.grant.dailyCallLimit)
    (hpassed : (g.checkBudgets env m.grant m.call).1 = none) {usage : Usage}
    (hget : (g.checkBudgets env m.grant m.call).2.dailyUsage.get m.call.agent.asStr = some usage) :
    usage.calls < m.grant.dailyCallLimit := by
  obtain ⟨-, hdaily, -, hgateway⟩ := of_checkBudgets_none hpassed
  rw [hgateway] at hget
  have hlimited : m.grant.dailyCallLimit ≠ 0 := fun h => absurd hlimit (by simp [h])
  unfold isOverDailyBudget at hdaily hget
  rw [if_neg hlimited] at hdaily hget
  have hentry := UInt32.not_le.mp (of_decide_eq_false hdaily)
  unfold isOverTokenBudget at hget
  split at hget
  · rw [dailyEntry_eq, SortedMap.get_insert_self] at hget
    rw [← Option.some_inj.mp hget]
    exact hentry
  · -- the check of the tokens may start the entry over
    rw [dailyEntry_eq, SortedMap.get_insert_self] at hget
    rw [← Option.some_inj.mp hget]
    rcases dailyEntry_cases env ((g.isRateLimited env m.call.agent.asStr
      m.grant.rateLimitPerMin).2.dailyEntry env m.call.agent.asStr).2 m.call.agent.asStr with
      ⟨hkept, -⟩ | hnew
    · rw [dailyEntry_eq, SortedMap.get_insert_self] at hkept
      rw [← dailyEntry_eq] at hkept
      rw [← Option.some_inj.mp hkept]
      exact hentry
    · rw [hnew]
      exact hlimit

/-- An entry takes a call of the day, where the counter does not overflow. -/
theorem noteDailyCall_eq_insert (env : GatewayEnv) (g : Gateway) (name : Str)
    (hcalls : (g.dailyEntry env name).1.calls.toNat + 1 < 2 ^ 32) :
    (g.noteDailyCall env name).2 =
      { (g.dailyEntry env name).2 with
        dailyUsage := (g.dailyEntry env name).2.dailyUsage.insert name
          { (g.dailyEntry env name).1 with calls := (g.dailyEntry env name).1.calls + 1 } } := by
  have hno : ¬ (env.overflowChecks = true ∧ (g.dailyEntry env name).1.calls.toNat + 1 = 2 ^ 32) := by
    rintro ⟨-, hmax⟩
    omega
  unfold Gateway.noteDailyCall
  simp only []
  rw [if_neg hno]

/-- A call is counted on its day or on a later one. -/
theorem DayCounted.noteDailyCall (hclock : NondecreasingClock env) (hh : DayCounted env agent h g)
    {x : AgentId × Nat} (htime : x.2 / 86400 ≤ dayAt env g.ticks)
    (hcalls : x.1 = agent → (g.dailyEntry env x.1.asStr).1.calls.toNat + 1 < 2 ^ 32) :
    DayCounted env agent (h ++ [x]) (g.noteDailyCall env x.1.asStr).2 := by
  have hrolled := hh.dailyEntry hclock x.1.asStr
  have hget : (g.dailyEntry env x.1.asStr).2.dailyUsage.get x.1.asStr =
      some (g.dailyEntry env x.1.asStr).1 := SortedMap.get_insert_self _ _ _
  by_cases hagent : x.1 = agent
  · -- the agent's own call counts for today
    have hnowrap := hcalls hagent
    rw [noteDailyCall_eq_insert env g x.1.asStr hnowrap]
    constructor
    · exact fun usage hnew => hrolled.read_insert hget hnew rfl
    · intro day hday
      have hbefore := hrolled.counted day hday
      have hnow := hday g.ticks (Nat.lt_succ_self _)
      rw [← hagent] at hbefore ⊢
      rw [callsOn, hget] at hbefore
      simp only [toNat_dailyEntry_day] at hbefore
      rw [callsOn_insert, List.countP_append, List.countP_singleton]
      simp only [toNat_dailyEntry_day, true_and]
      have hsum : ((g.dailyEntry env x.1.asStr).1.calls + 1).toNat =
          (g.dailyEntry env x.1.asStr).1.calls.toNat + 1 := by
        rw [UInt32.toNat_add]
        exact Nat.mod_eq_of_lt hnowrap
      rw [hsum]
      by_cases hsame : dayAt env g.ticks = day
      · rw [if_pos hsame] at hbefore ⊢
        split <;> omega
      · -- a day that the clock has passed takes no more calls
        have hother : ¬ x.2 / 86400 = day := by omega
        rw [if_neg hsame] at hbefore ⊢
        rw [if_neg (by simpa using hother)]
        exact hbefore
  · -- the entry of another agent is none of this one's
    have hname : agent.asStr ≠ x.1.asStr := fun heq => hagent (UserId.ext heq.symm)
    have hcount : ∀ day, ((h ++ [x]).countP fun y => y.1 = agent ∧ y.2 / 86400 = day) =
        h.countP fun y => y.1 = agent ∧ y.2 / 86400 = day := by
      intro day
      rw [List.countP_append, List.countP_singleton, if_neg (by simp [hagent])]
      rfl
    unfold Gateway.noteDailyCall
    simp only []
    split
    · refine ⟨hrolled.read, fun day hday => ?_⟩
      rw [hcount]
      exact hrolled.counted day hday
    · constructor
      · exact fun usage hnew => hrolled.read_insert hget hnew rfl
      · intro day hday
        rw [hcount, callsOn_insert_ne _ hname]
        exact hrolled.counted day hday

/-- An admitted call is counted, on its day or on a later one. -/
theorem DayCounted.of_counted (hclock : NondecreasingClock env) (hh : DayCounted env agent h g)
    (hlimit : m.call.agent = agent → 0 < m.grant.dailyCallLimit)
    (hpassed : (g.checkBudgets env m.grant m.call).1 = none) :
    DayCounted env agent (h ++ [(m.call.agent, admissionTime env g m)]) (g.counted env m).2 := by
  have hnoted : DayCounted env agent h
      ((g.checkBudgets env m.grant m.call).2.noteCall env m.call.agent.asStr) :=
    (hh.checkBudgets hclock m).of_fields (Nat.le_succ _) rfl
  apply hnoted.noteDailyCall hclock (x := (m.call.agent, admissionTime env g m))
  · exact dayAt_mono hclock (Nat.le_succ _)
  · intro hagent
    have hlt : (((g.checkBudgets env m.grant m.call).2.noteCall env m.call.agent.asStr).dailyEntry env
        m.call.agent.asStr).1.calls < m.grant.dailyCallLimit := by
      rcases dailyEntry_cases env ((g.checkBudgets env m.grant m.call).2.noteCall env
        m.call.agent.asStr) m.call.agent.asStr with ⟨hget, -⟩ | hnew
      · exact calls_lt_of_checkBudgets (hlimit hagent) hpassed hget
      · rw [hnew]
        exact hlimit hagent
    have hlt := UInt32.lt_iff_toNat_lt.mp hlt
    have hmax := m.grant.dailyCallLimit.toNat_lt
    show (((g.checkBudgets env m.grant m.call).2.noteCall env m.call.agent.asStr).dailyEntry env
      m.call.agent.asStr).1.calls.toNat + 1 < 2 ^ 32
    omega

theorem dayCounted_invariant (hclock : NondecreasingClock env) (agent : AgentId)
    {expected : Mediation → Prop}
    (hexpected : ∀ m, expected m → m.call.agent = agent → 0 < m.grant.dailyCallLimit) :
    HistoryInvariant env expected (DayCounted env agent) where
  fields := fun h g _ _ _ _ _ hh => hh.of_fields le_rfl rfl
  shorter := by
    intro h x g hh
    refine ⟨hh.read, fun day hday => ?_⟩
    have hlonger := hh.counted day hday
    rw [List.countP_append] at hlonger
    exact (Nat.le_add_right _ _).trans hlonger
  checked := fun h g m hh => hh.checkBudgets hclock m
  counted := fun h g m hm hpassed hh => hh.of_counted hclock (hexpected m hm) hpassed
  tokens := fun h g name tokens hh => hh.noteTokens hclock name tokens

/-- A call that passes the check of its daily limit finds fewer admitted calls on the day. -/
theorem countP_day_lt (hclock : NondecreasingClock env) (hlimit : 0 < m.grant.dailyCallLimit)
    (hpassed : (g.checkBudgets env m.grant m.call).1 = none)
    (hh : DayCounted env m.call.agent h g) :
    (h.countP fun x => x.1 = m.call.agent ∧ x.2 / 86400 = admissionTime env g m / 86400) <
      m.grant.dailyCallLimit.toNat := by
  have hchecked := (hh.checkBudgets hclock m).counted (admissionTime env g m / 86400)
    fun i hi => dayAt_mono hclock hi.le
  apply lt_of_le_of_lt hchecked
  have hpositive : 0 < m.grant.dailyCallLimit.toNat := UInt32.lt_iff_toNat_lt.mp hlimit
  unfold callsOn
  split
  · rename_i usage hget
    split
    · exact UInt32.lt_iff_toNat_lt.mp (calls_lt_of_checkBudgets hlimit hpassed hget)
    · exact hpositive
  · exact hpositive

end

/-- The calls of an agent that are admitted keep within the rate limit of its grants over any sixty
seconds, and within their daily limit on any day. -/
theorem admissions_within_limits (env : GatewayEnv) (store : Store Bytes) (ops : List GatewayCall)
    (agent : AgentId) (rateLimit : UInt32) (hpositive : PositiveClock env)
    (hclock : NondecreasingClock env) (hrate : 0 < rateLimit)
    (hgrants : ∀ op ∈ ops, ∀ m, op.mediated = some m → m.call.agent = agent →
      m.grant.rateLimitPerMin = rateLimit) :
    (∀ t, ((admissions env store ops).countP fun x => x.1 = agent ∧ t < x.2 + 60 ∧ x.2 ≤ t) ≤
      rateLimit.toNat) ∧
    ∀ dailyLimit, 0 < dailyLimit →
      (∀ op ∈ ops, ∀ m, op.mediated = some m → m.call.agent = agent →
        m.grant.dailyCallLimit = dailyLimit) →
      ∀ day, ((admissions env store ops).countP fun x => x.1 = agent ∧ x.2 / 86400 = day) ≤
        dailyLimit.toNat := by
  constructor
  · intro t
    have hstart : RateCounted env agent [] (withStore store) :=
      ⟨fun x hx => absurd hx List.not_mem_nil, fun c _ => Nat.zero_le _⟩
    apply (rateCounted_invariant hpositive agent _).countP_admissions_le hgrants hstart
    intro h g m hgrant hpassed hh hin
    obtain ⟨rfl, -, ht⟩ := of_decide_eq_true hin
    exact countP_window_lt hclock hrate (hgrant rfl) hpassed hh ht
  · intro dailyLimit hlimit hdaily day
    have hstart : DayCounted env agent [] (withStore store) :=
      ⟨fun usage hget => (nomatch hget), fun day _ => Nat.zero_le _⟩
    have hlimits : ∀ m : Mediation, (m.call.agent = agent → m.grant.dailyCallLimit = dailyLimit) →
        m.call.agent = agent → 0 < m.grant.dailyCallLimit := by
      intro m hm hagent
      rw [hm hagent]
      exact hlimit
    apply (dayCounted_invariant hclock agent hlimits).countP_admissions_le hdaily hstart
    intro h g m hm hpassed hh hin
    obtain ⟨rfl, rfl⟩ := of_decide_eq_true hin
    have hfew := countP_day_lt hclock (hlimits m hm rfl) hpassed hh
    rw [hm rfl] at hfew
    exact hfew

open SampleGateway in
theorem admissions_within_limits_approvedRun :
    (∀ t, ((admissions env Store.empty approvedRun).countP fun x =>
      x.1 = worker ∧ t < x.2 + 60 ∧ x.2 ≤ t) ≤ 2) ∧
    ∀ day, ((admissions env Store.empty approvedRun).countP fun x =>
      x.1 = worker ∧ x.2 / 86400 = day) ≤ 2 := by
  have hgrant : ∀ op ∈ approvedRun, ∀ m, op.mediated = some m → m.grant = grant .review := by
    intro op hop m hm
    rw [approvedRun, List.mem_cons, List.mem_singleton] at hop
    rcases hop with rfl | rfl
    · obtain rfl := Option.some_inj.mp hm
      rfl
    · cases hm
  have hpositive : (0 : UInt64) < 1000 := by decide
  have hlimits := admissions_within_limits env Store.empty approvedRun worker 2
    (fun _ => hpositive) (fun _ _ _ => UInt64.le_refl _) (by decide)
    fun op hop m hm _ => by rw [hgrant op hop m hm]; rfl
  exact ⟨hlimits.1, hlimits.2 2 (by decide) fun op hop m hm _ => by rw [hgrant op hop m hm]; rfl⟩

end GaussMatrix.Agent
