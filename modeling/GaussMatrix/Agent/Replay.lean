import GaussMatrix.Agent.AuditTrail
import GaussMatrix.Library.Find

/-!
# Replayed sessions

The session of an agent, read back from the texts of the audit log, against what the gateway did with
the agent's calls.
-/

namespace GaussMatrix.Agent

open Library Util Audit Obs Gateway

/-! ## Steps -/

/-- Why a call was refused. -/
inductive DenyReason
  | scope
  | rateLimit
  | dailyCallBudget
  | tokenBudget
  | policy
  | human
  deriving DecidableEq

/-- What an audit entry is in a session. -/
inductive StepKind
  | denied (reason : DenyReason)
  | autoAllowed
  | approvalRequested
  | approved
  | executed (ok : Bool) (tokens : UInt64)
  | resourceAccess (granted : Bool)
  | discovery
  | memory
  | delegated (by' : Str)
  | unmanagedAgent
  | other
  deriving DecidableEq

structure SessionStep where
  /-- The position in the whole log. -/
  seq : Nat
  kind : StepKind
  event : Str
  deriving DecidableEq

structure SessionReplay where
  agent : Str
  steps : List SessionStep
  chainIntact : Bool
  deriving DecidableEq

/-- The success flag and the tokens of an execution. -/
def StepKind.execution : StepKind → Option (Bool × UInt64)
  | executed ok tokens => some (ok, tokens)
  | _ => none

def StepKind.isDenied : StepKind → Bool
  | denied _ => true
  | _ => false

/-- Who delegated. -/
def StepKind.delegator : StepKind → Option Str
  | delegated by' => some by'
  | _ => none

def StepKind.tokens : StepKind → UInt64
  | executed _ tokens => tokens
  | _ => 0

namespace SessionReplay

def executions (r : SessionReplay) : Nat := (r.steps.filter fun s => s.kind.execution.isSome).length

def denials (r : SessionReplay) : Nat := (r.steps.filter fun s => s.kind.isDenied).length

/-- The tokens of the executions; none on overflow in a build that checks it. -/
def totalTokens (overflowChecks : Bool) (r : SessionReplay) : Option UInt64 :=
  (r.steps.map fun s => s.kind.tokens).foldlM (fun sum tokens =>
    if overflowChecks ∧ 2 ^ 64 ≤ sum.toNat + tokens.toNat then none else some (sum + tokens)) 0

end SessionReplay

/-! ## Reading an event -/

/-- The word after the first occurrence of a key. -/
def parseKv (event key : Str) : Option Str :=
  (splitFirst key event).map fun parts => (firstWord parts.2).getD parts.2

/-- The order matters where one beginning is a part of another. -/
def classify (event : Str) : StepKind :=
  if startsWith "denied_by_scope".toList event then .denied .scope
  else if startsWith "rate_limited".toList event then .denied .rateLimit
  else if startsWith "daily_budget_exceeded".toList event then .denied .dailyCallBudget
  else if startsWith "token_budget_exceeded".toList event then .denied .tokenBudget
  else if startsWith "policy_denied".toList event then .denied .policy
  else if startsWith "denied_by ".toList event then .denied .human
  else if startsWith "approved_by ".toList event then .approved
  else match stripPrefix "delegated_by ".toList event with
  | some rest => .delegated (before ": ".toList rest)
  | none =>
      if startsWith "auto_allowed".toList event then .autoAllowed
      else if startsWith "approval_requested".toList event then .approvalRequested
      else if startsWith "executed:".toList event then
        .executed (parseKv event "ok=".toList = some "true".toList)
          (((parseKv event "tokens=".toList).bind parseU64).map UInt64.ofNat |>.getD 0)
      else if startsWith "resource_read".toList event then .resourceAccess true
      else if startsWith "resource_denied".toList event then .resourceAccess false
      else if startsWith "resources_listed".toList event ∨ startsWith "tools_listed".toList event then
        .discovery
      else if startsWith "memory_denied".toList event then .denied .scope
      else if startsWith "memory_".toList event then .memory
      else if startsWith "unmanaged_agent".toList event then .unmanagedAgent
      else .other

/-- The agent's session, from the audit log. -/
def replaySession (digest : Digest) (store : Store Bytes) (agent : Str) : SessionReplay where
  agent
  chainIntact := verify digest store = .ok ()
  steps := ((entries store).zipIdx.filter fun e => e.1.actor = agent).map fun e =>
    ⟨e.2, classify e.1.event, e.1.event⟩

/-! ## What the gateway did -/

/-- The executor that a call is handed. -/
def GatewayCall.executor : GatewayCall → ToolExecutor
  | .handle _ _ executor => executor
  | .handleManaged _ _ _ executor => executor
  | .handleInRoom _ _ executor => executor
  | .handleDelegated _ _ _ executor => executor
  | .handleWithPolicy _ _ _ executor => executor
  | .resolve _ _ _ executor => executor

/-- The call that mediation refuses, by its scope, its rate or a budget. -/
def Mediation.refused (env : GatewayEnv) (g : Gateway) (m : Mediation) : Option ToolCall :=
  if m.cls = .forbidden ∨ (g.checkBudgets env m.grant m.call).1 ≠ none then some m.call else none

/-- Whether the policy denies a call that its grant permits. -/
def deniedByPolicy (grant : CapabilityGrant) (policy : PolicySet) (call : ToolCall) : Bool :=
  grant.classify call.tool call.room ≠ .forbidden ∧
    policy.evaluate call.tool call.room.asStr call.argsSummary = .deny

/-- The call that is refused by its scope, its rate, a budget, the policy or a human. -/
def refusedCall (env : GatewayEnv) (g : Gateway) (op : GatewayCall) : Option ToolCall :=
  match op with
  | .resolve requestId false _ _ => (requestOf g requestId).map PendingApproval.call
  | .handleWithPolicy grant policy call _ =>
      if deniedByPolicy grant policy call then some call
      else op.mediated.bind fun m => m.refused env g
  | op => op.mediated.bind fun m => m.refused env g

/-- The agent that a call is delegated to, and by whom. -/
def GatewayCall.delegation : GatewayCall → Option (AgentId × AgentId)
  | .handleDelegated roster orchestrator call executor =>
      (GatewayCall.handleDelegated roster orchestrator call executor).mediated.map fun m =>
        (m.call.agent, orchestrator)
  | _ => none

/-- The executions of the agent's calls in a run, in order. -/
def executionsOf (env : GatewayEnv) (store : Store Bytes) (ops : List GatewayCall) (agent : AgentId) :
    List (Bool × UInt64) :=
  (gatewayTrace env store ops).flatMap fun x =>
    ((perform env x.1 x.2).invoked.filter fun c => c.2.agent = agent).map fun c =>
      ((x.2.executor c.2).ok, (x.2.executor c.2).tokens)

/-- The agent's calls that a run refuses. -/
def refusalsOf (env : GatewayEnv) (store : Store Bytes) (ops : List GatewayCall) (agent : AgentId) :
    List ToolCall :=
  (gatewayTrace env store ops).flatMap fun x =>
    (refusedCall env x.1 x.2).toList.filter fun call => call.agent = agent

/-- Who delegated calls to the agent in a run, in order. -/
def delegatorsOf (ops : List GatewayCall) (agent : AgentId) : List Str :=
  ops.flatMap fun op => (op.delegation.toList.filter fun d => d.1 = agent).map fun d => d.2.asStr

/-- Replaying an agent's session after a run gives what it gave before and what the run did with the
agent's calls. -/
structure FaithfulReplay (env : GatewayEnv) (store : Store Bytes) (ops : List GatewayCall)
    (agent : AgentId) (before after : SessionReplay) : Prop where
  executed : after.steps.filterMap (fun s => s.kind.execution) =
    before.steps.filterMap (fun s => s.kind.execution) ++ executionsOf env store ops agent
  executions : after.executions = before.executions + (executionsOf env store ops agent).length
  totalTokens : ∃ total, after.totalTokens env.overflowChecks = some total ∧ total.toNat =
    ((before.steps.map fun s => s.kind.tokens.toNat) ++
      (executionsOf env store ops agent).map fun e => e.2.toNat).sum
  denials : after.denials = before.denials + (refusalsOf env store ops agent).length
  delegators : after.steps.filterMap (fun s => s.kind.delegator) =
    before.steps.filterMap (fun s => s.kind.delegator) ++ delegatorsOf ops agent

/-! ## When a line is read back -/

/-- What a line is in the session of its agent. -/
def AuditLine.kind : AuditLine → StepKind
  | unmanagedAgent _ => .unmanagedAgent
  | unknownAgent _ => .other
  | delegatedBy orchestrator _ => .delegated orchestrator.asStr
  | policyDenied _ _ => .denied .policy
  | deniedByScope _ _ => .denied .scope
  | rateLimited _ => .denied .rateLimit
  | dailyBudgetExceeded _ => .denied .dailyCallBudget
  | tokenBudgetExceeded _ => .denied .tokenBudget
  | autoAllowed _ => .autoAllowed
  | approvalRequested _ => .approvalRequested
  | approvedBy _ _ => .approved
  | deniedBy _ _ => .denied .human
  | executed _ ok tokens => .executed ok tokens

/-- No text of the line looks like the marks that are searched for in it. -/
def AuditLine.Unmarked : AuditLine → Prop
  | delegatedBy orchestrator _ => ¬ ": ".toList <:+: orchestrator.asStr
  | executed tool _ _ => ¬ "ok=".toList <:+: tool ∧ ¬ "tokens=".toList <:+: tool
  | _ => True

section

variable {line : AuditLine}

/-- Reading the value of a key in the line about an execution. -/
theorem parseKv_append {text key word rest : Str} (hkey : key ≠ [])
    (htext : ¬ key <:+: text ++ key.dropLast) (hword : word ≠ [])
    (hplain : ∀ c ∈ word, isWhiteSpace c = false)
    (hrest : rest = [] ∨ ∃ c tail, rest = c :: tail ∧ isWhiteSpace c = true) :
    parseKv (text ++ (key ++ (word ++ rest))) key = some word := by
  rw [parseKv, splitFirst_append hkey htext]
  show some ((firstWord (word ++ rest)).getD (word ++ rest)) = _
  rw [firstWord_append hword hplain hrest]
  rfl

theorem isWhiteSpace_of_isDigit {c : Char} (h : c.isDigit = true) : isWhiteSpace c = false := by
  have hzero : '0'.toNat = 48 := by decide
  obtain ⟨hlow, hhigh⟩ := digit_bounds h
  rw [hzero] at hlow hhigh
  simp only [isWhiteSpace, Bool.or_eq_false_iff, Bool.and_eq_false_iff, decide_eq_false_iff_not]
  omega

/-- A key is found before its word, in a text of words between spaces. -/
theorem parseKv_words {key first second word rest : Str} (hkey : key ≠ []) (hspace : ' ' ∉ key)
    (hfirst : ¬ key <:+: first) (hsecond : ¬ key <:+: second) (hlast : ¬ key <:+: key.dropLast)
    (hword : word ≠ []) (hplain : ∀ c ∈ word, isWhiteSpace c = false)
    (hrest : rest = [] ∨ ∃ c tail, rest = c :: tail ∧ isWhiteSpace c = true) :
    parseKv (first ++ ' ' :: (second ++ ' ' :: (key ++ (word ++ rest)))) key = some word := by
  have htext : first ++ ' ' :: (second ++ ' ' :: (key ++ (word ++ rest))) =
      (first ++ ' ' :: (second ++ [' '])) ++ (key ++ (word ++ rest)) := by
    simp only [List.append_assoc, List.cons_append, List.nil_append]
  rw [htext]
  apply parseKv_append hkey _ hword hplain hrest
  intro hin
  rw [List.append_assoc, List.cons_append, List.append_assoc, List.singleton_append] at hin
  rcases infix_append_cons hspace hin with hin | hin
  · exact hfirst hin
  · rcases infix_append_cons hspace hin with hin | hin
    · exact hsecond hin
    · exact hlast hin

/-- A line of words between spaces. -/
theorem words_of_parts {head fixed ok okKey tokens tokensKey : Str} (hhead : head = fixed ++ [' '])
    (hok : ok = ' ' :: okKey) (htokens : tokens = ' ' :: tokensKey) (tool flag count : Str) :
    head ++ tool ++ ok ++ flag ++ tokens ++ count =
      fixed ++ ' ' :: (tool ++ ' ' :: (okKey ++ (flag ++ ' ' :: (tokensKey ++ count)))) := by
  rw [hhead, hok, htokens]
  simp only [List.append_assoc, List.cons_append, List.nil_append]

/-- The text of a line about an execution, at its spaces. -/
theorem text_executed (tool : Str) (ok : Bool) (tokens : UInt64) :
    (AuditLine.executed tool ok tokens).text =
      "executed:".toList ++ ' ' :: (tool ++ ' ' :: ("ok=".toList ++
        ((if ok then "true" else "false").toList ++ ' ' :: ("tokens=".toList ++ decimal tokens.toNat)))) :=
  words_of_parts (by decide +kernel) (by decide +kernel) (by decide +kernel) tool _ _

theorem parseKv_ok {tool : Str} (h : ¬ "ok=".toList <:+: tool) (ok : Bool) (tokens : UInt64) :
    parseKv (AuditLine.executed tool ok tokens).text "ok=".toList =
      some (if ok then "true" else "false").toList := by
  rw [text_executed]
  apply parseKv_words
  · decide
  · decide
  · decide
  · exact h
  · decide
  · cases ok <;> decide
  · have hall : (if ok then "true" else "false").toList.all (fun c => !isWhiteSpace c) = true := by
      cases ok <;> decide
    intro c hc
    simpa using List.all_eq_true.mp hall c hc
  · right
    exact ⟨' ', _, rfl, by decide⟩

theorem parseKv_tokens {tool : Str} (h : ¬ "tokens=".toList <:+: tool) (ok : Bool) (tokens : UInt64) :
    parseKv (AuditLine.executed tool ok tokens).text "tokens=".toList = some (decimal tokens.toNat) := by
  have htext : ∀ fixed okKey flag rest : Str, fixed ++ ' ' :: (tool ++ ' ' :: (okKey ++ (flag ++ ' ' :: rest))) =
      (fixed ++ ' ' :: tool) ++ ' ' :: ((okKey ++ flag) ++ ' ' :: rest) := by
    intro fixed okKey flag rest
    simp only [List.append_assoc, List.cons_append]
  have hfirst : ¬ "tokens=".toList <:+: "executed:".toList ++ ' ' :: tool := by
    intro hin
    rcases infix_append_cons (by decide) hin with hin | hin
    · exact absurd hin (by decide)
    · exact h hin
  have hsecond : ¬ "tokens=".toList <:+: "ok=".toList ++ (if ok then "true" else "false").toList := by
    cases ok <;> decide
  have hdigits : ∀ c ∈ decimal tokens.toNat, isWhiteSpace c = false := fun c hc =>
    isWhiteSpace_of_isDigit (Nat.isDigit_of_mem_toDigits (by decide) (by decide) hc)
  have hword := parseKv_words (by decide) (by decide) hfirst hsecond (by decide)
    Nat.toDigits_ne_nil hdigits (.inl rfl)
  rw [List.append_nil] at hword
  rw [text_executed, htext]
  exact hword

/-- The beginnings that are looked for in an event. -/
def beginnings : List Str :=
  ["denied_by_scope".toList, "rate_limited".toList, "daily_budget_exceeded".toList,
    "token_budget_exceeded".toList, "policy_denied".toList, "denied_by ".toList, "approved_by ".toList,
    "delegated_by ".toList, "auto_allowed".toList, "approval_requested".toList, "executed:".toList,
    "resource_read".toList, "resource_denied".toList, "resources_listed".toList, "tools_listed".toList,
    "memory_denied".toList, "memory_".toList, "unmanaged_agent".toList]

/-- A beginning that decides what the event is, whatever follows. -/
def Decides (fixed : Str) (kind : StepKind) : Prop :=
  (∀ pfx ∈ beginnings, ¬ (fixed <+: pfx ∧ ¬ pfx <+: fixed)) ∧
    ¬ "delegated_by ".toList <+: fixed ∧ ¬ "executed:".toList <+: fixed ∧ classify fixed = kind

instance (fixed : Str) (kind : StepKind) : Decidable (Decides fixed kind) :=
  inferInstanceAs (Decidable (_ ∧ _))

theorem classify_append {fixed : Str} {kind : StepKind} (h : Decides fixed kind) (s : Str) :
    classify (fixed ++ s) = kind := by
  obtain ⟨hsettled, hdelegated, hexecuted, hkind⟩ := h
  have hsame : ∀ pfx ∈ beginnings, startsWith pfx (fixed ++ s) = startsWith pfx fixed := by
    intro pfx hpfx
    by_cases hle : pfx <+: fixed
    · rw [startsWith_of_isPrefix hle, startsWith_iff_isPrefix.mpr hle]
    · have hapart : Apart pfx fixed := ⟨hle, fun h => hsettled pfx hpfx ⟨h, hle⟩⟩
      have hnot := startsWith_of_apart hapart []
      rw [List.append_nil] at hnot
      rw [startsWith_of_apart hapart, hnot]
  have hstrip : ∀ t : Str, startsWith "delegated_by ".toList t = false →
      stripPrefix "delegated_by ".toList t = none :=
    fun t ht => Option.isNone_iff_eq_none.mp (Option.isSome_eq_false_iff.mp ht)
  have hnone : startsWith "delegated_by ".toList fixed = false := by
    rw [Bool.eq_false_iff, Ne, startsWith_iff_isPrefix]
    exact hdelegated
  have hnot : startsWith "executed:".toList fixed = false := by
    rw [Bool.eq_false_iff, Ne, startsWith_iff_isPrefix]
    exact hexecuted
  simp only [beginnings, List.forall_mem_cons] at hsame
  obtain ⟨h1, h2, h3, h4, h5, h6, h7, h8, h9, h10, h11, h12, h13, h14, h15, h16, h17, h18, -⟩ := hsame
  rw [← hkind]
  unfold classify
  rw [h1, h2, h3, h4, h5, h6, h7, h9, h10, h11, h12, h13, h14, h15, h16, h17, h18,
    hstrip _ (h8.trans hnone), hstrip _ hnone, hnot]
  rfl

/-- What begins as a line about an execution is read as one. -/
theorem classify_of_executed {s flag count : Str}
    (hflag : parseKv ("executed:".toList ++ s) "ok=".toList = some flag)
    (hcount : parseKv ("executed:".toList ++ s) "tokens=".toList = some count) :
    classify ("executed:".toList ++ s) =
      .executed (some flag = some "true".toList) (((parseU64 count).map UInt64.ofNat).getD 0) := by
  have hread : ∀ f c : Option Str, f = some flag → c = some count →
      StepKind.executed (f = some "true".toList) (((c.bind parseU64).map UInt64.ofNat).getD 0) =
        .executed (some flag = some "true".toList) (((parseU64 count).map UInt64.ofNat).getD 0) := by
    intro f c hf hc
    rw [hf, hc]
    rfl
  have hnot : ∀ pfx, Apart pfx "executed:".toList → startsWith pfx ("executed:".toList ++ s) = false :=
    fun pfx h => startsWith_of_apart h s
  have hyes : startsWith "executed:".toList ("executed:".toList ++ s) = true :=
    startsWith_of_isPrefix List.prefix_rfl s
  unfold classify
  rw [hnot "denied_by_scope".toList (by decide +kernel), hnot "rate_limited".toList (by decide +kernel),
    hnot "daily_budget_exceeded".toList (by decide +kernel),
    hnot "token_budget_exceeded".toList (by decide +kernel), hnot "policy_denied".toList (by decide +kernel),
    hnot "denied_by ".toList (by decide +kernel), hnot "approved_by ".toList (by decide +kernel),
    stripPrefix_of_apart (by decide +kernel), hnot "auto_allowed".toList (by decide +kernel),
    hnot "approval_requested".toList (by decide +kernel), hyes]
  exact hread _ _ hflag hcount

theorem classify_of_delegated (s : Str) : classify ("delegated_by ".toList ++ s) =
    .delegated (before ": ".toList s) := by
  have hnot : ∀ pfx, Apart pfx "delegated_by ".toList →
      startsWith pfx ("delegated_by ".toList ++ s) = false :=
    fun pfx h => startsWith_of_apart h s
  unfold classify
  rw [hnot "denied_by_scope".toList (by decide +kernel), hnot "rate_limited".toList (by decide +kernel),
    hnot "daily_budget_exceeded".toList (by decide +kernel),
    hnot "token_budget_exceeded".toList (by decide +kernel), hnot "policy_denied".toList (by decide +kernel),
    hnot "denied_by ".toList (by decide +kernel), hnot "approved_by ".toList (by decide +kernel),
    stripPrefix_append]
  rfl

theorem classify_executed {tool : Str} (hok : ¬ "ok=".toList <:+: tool)
    (htokens : ¬ "tokens=".toList <:+: tool) (ok : Bool) (tokens : UInt64) :
    classify (AuditLine.executed tool ok tokens).text = .executed ok tokens := by
  have hflag := parseKv_ok hok ok tokens
  have hcount := parseKv_tokens htokens ok tokens
  rw [text_executed] at hflag hcount ⊢
  have htrue : decide (some (if ok then "true" else "false").toList = some "true".toList) = ok := by
    cases ok <;> decide
  rw [classify_of_executed hflag hcount, htrue, parseU64_decimal tokens.toNat_lt]
  show StepKind.executed ok (UInt64.ofNat tokens.toNat) = _
  rw [UInt64.ofNat_toNat]

theorem classify_delegatedBy {orchestrator : AgentId} (h : ¬ ": ".toList <:+: orchestrator.asStr)
    (tool : Str) :
    classify (AuditLine.delegatedBy orchestrator tool).text = .delegated orchestrator.asStr := by
  have hassoc : ∀ fixed mark : Str, fixed ++ orchestrator.asStr ++ mark ++ tool =
      fixed ++ (orchestrator.asStr ++ (mark ++ tool)) := by
    intro fixed mark
    rw [List.append_assoc, List.append_assoc]
  have hlast : ": ".toList = [':', ' '] := by decide +kernel
  have hcolon : ¬ ": ".toList <:+: orchestrator.asStr ++ ": ".toList.dropLast := by
    rw [hlast] at h ⊢
    intro hin
    rcases List.infix_append_iff.mp hin with hin | hin | ⟨left, right, hpat, hleft, hright⟩
    · exact h hin
    · exact absurd hin (by decide)
    · -- the colon after the id is no end of the mark
      rcases List.prefix_cons_iff.mp hright with rfl | ⟨tail, rfl, htail⟩
      · rw [List.append_nil] at hpat
        rw [hpat] at h
        exact h hleft.isInfix
      · obtain rfl := List.prefix_nil.mp htail
        have hend := congrArg List.getLast? hpat
        rw [List.getLast?_concat] at hend
        exact absurd hend (by decide)
  calc classify (AuditLine.delegatedBy orchestrator tool).text
      = classify ("delegated_by ".toList ++ (orchestrator.asStr ++ (": ".toList ++ tool))) :=
        congrArg classify (hassoc _ _)
    _ = .delegated (before ": ".toList (orchestrator.asStr ++ (": ".toList ++ tool))) :=
        classify_of_delegated _
    _ = .delegated orchestrator.asStr := congrArg StepKind.delegated (before_append (by decide) hcolon tool)

/-- An unmarked line is read back as what it is. -/
theorem classify_text (h : line.Unmarked) : classify line.text = line.kind := by
  have hone : ∀ (fixed text : Str) (kind : StepKind), Decides fixed kind → classify (fixed ++ text) = kind :=
    fun fixed text kind hfixed => classify_append hfixed text
  have htwo : ∀ (fixed text between other : Str) (kind : StepKind), Decides fixed kind →
      classify (fixed ++ text ++ between ++ other) = kind := by
    intro fixed text between other kind hfixed
    rw [List.append_assoc, List.append_assoc]
    exact classify_append hfixed _
  cases line with
  | unmanagedAgent agent => exact hone _ _ .unmanagedAgent (by decide +kernel)
  | unknownAgent agent => exact hone _ _ .other (by decide +kernel)
  | delegatedBy orchestrator tool => exact classify_delegatedBy h tool
  | policyDenied tool room => exact htwo _ _ _ _ (.denied .policy) (by decide +kernel)
  | deniedByScope tool room => exact htwo _ _ _ _ (.denied .scope) (by decide +kernel)
  | rateLimited tool => exact hone _ _ (.denied .rateLimit) (by decide +kernel)
  | dailyBudgetExceeded tool => exact hone _ _ (.denied .dailyCallBudget) (by decide +kernel)
  | tokenBudgetExceeded tool => exact hone _ _ (.denied .tokenBudget) (by decide +kernel)
  | autoAllowed tool => exact hone _ _ .autoAllowed (by decide +kernel)
  | approvalRequested tool => exact hone _ _ .approvalRequested (by decide +kernel)
  | approvedBy decidedBy tool => exact htwo _ _ _ _ .approved (by decide +kernel)
  | deniedBy decidedBy tool => exact htwo _ _ _ _ (.denied .human) (by decide +kernel)
  | executed tool ok tokens => exact classify_executed h.1 h.2 ok tokens

end

/-! ## The lines of a call -/

/-- How the lines of a call account for it: they show what its executor was given and answered, the
refusal of the call and its delegation. -/
structure Accounts (executor : ToolExecutor) (refused : Option ToolCall)
    (delegation : Option (AgentId × AgentId)) (r : Reply) : Prop where
  executed : (r.audited.filter fun l => l.2.kind.execution.isSome) = r.invoked.map fun c =>
    (c.2.agent, AuditLine.executed c.2.tool (executor c.2).ok (executor c.2).tokens)
  refused : (r.audited.filter fun l => l.2.kind.isDenied).map Prod.fst =
    refused.toList.map ToolCall.agent
  delegated : r.audited.filterMap (fun l => l.2.kind.delegator.map fun d => (l.1, d)) =
    delegation.toList.map fun d => (d.1, d.2.asStr)

section

variable {env : GatewayEnv} {g : Gateway} {op : GatewayCall} {m : Mediation} {call : ToolCall}
  {executor : ToolExecutor} {agent : AgentId} {line : AuditLine} {refused : Option ToolCall}
  {delegation : Option (AgentId × AgentId)}

theorem accounts_dismiss (outcome : Str) (answer : Except GatewayError Outcome)
    (hexecution : line.kind.execution = none) (hdelegator : line.kind.delegator = none)
    (hrefused : (if line.kind.isDenied then [agent] else []) = refused.toList.map ToolCall.agent) :
    Accounts executor refused none (g.dismiss env agent line outcome answer) := by
  have haudited : (g.dismiss env agent line outcome answer).audited = [(agent, line)] :=
    conclude_audited
  have hinvoked : (g.dismiss env agent line outcome answer).invoked = [] := conclude_invoked
  constructor
  · rw [haudited, hinvoked]
    simp only [List.filter_singleton, hexecution]
    rfl
  · rw [haudited, ← hrefused, List.filter_singleton]
    cases line.kind.isDenied <;> rfl
  · rw [haudited]
    simp only [List.filterMap_cons, hdelegator, Option.map_none, List.filterMap_nil]
    rfl

theorem accounts_panicked : Accounts executor none none (g.panicked [] []) := ⟨rfl, rfl, rfl⟩

/-- An execution is shown by its line, after a line that is neither a refusal nor a delegation. -/
theorem accounts_execute (callId : Str) (event : ReflectedEvent)
    (hexecution : line.kind.execution = none) (hdelegator : line.kind.delegator = none)
    (hdenied : line.kind.isDenied = false) :
    Accounts executor none none (g.execute env call executor callId [(call.agent, line)] event) := by
  constructor
  · rw [execute_audited, execute_invoked, List.filter_append, List.filter_singleton]
    simp only [hexecution]
    rfl
  · rw [execute_audited, List.filter_append, List.filter_singleton]
    simp only [hdenied]
    rfl
  · rw [execute_audited, List.singleton_append, List.filterMap_cons]
    simp only [hdelegator, Option.map_none]
    rfl

theorem accounts_executeNow : Accounts executor none none (g.executeNow env call executor) := by
  unfold executeNow
  cases hid : g.nextCallId env with
  | none => exact accounts_panicked
  | some next =>
      obtain ⟨callId, g'⟩ := next
      exact accounts_execute callId _ rfl rfl rfl

theorem accounts_queueForReview : Accounts executor none none (g.queueForReview env call) := by
  unfold queueForReview
  cases hid : g.nextCallId env with
  | none => exact accounts_panicked
  | some next =>
      obtain ⟨callId, g'⟩ := next
      simp only []
      split
      · exact accounts_panicked
      · constructor
        · rw [conclude_audited, conclude_invoked]
          rfl
        · rw [conclude_audited]
          rfl
        · rw [conclude_audited]
          rfl

/-- What a budget refuses is written as a refusal. -/
theorem isDenied_of_checkBudgets {grant : CapabilityGrant} {refusal : Refusal}
    (h : (g.checkBudgets env grant call).1 = some refusal) :
    refusal.line.kind.isDenied = true ∧ refusal.line.kind.execution = none ∧
      refusal.line.kind.delegator = none := by
  unfold checkBudgets at h
  simp only [] at h
  split at h
  · obtain rfl := Option.some_inj.mp h
    exact ⟨rfl, rfl, rfl⟩
  · split at h
    · obtain rfl := Option.some_inj.mp h
      exact ⟨rfl, rfl, rfl⟩
    · split at h
      · obtain rfl := Option.some_inj.mp h
        exact ⟨rfl, rfl, rfl⟩
      · exact nomatch h

theorem accounts_mediate (m : Mediation) :
    Accounts executor (m.refused env g) none (g.mediate env m.grant m.call m.cls executor) := by
  unfold mediate Mediation.refused
  by_cases hcls : m.cls = .forbidden
  · rw [if_pos hcls, if_pos (Or.inl hcls)]
    exact accounts_dismiss _ _ rfl rfl rfl
  · rw [if_neg hcls]
    cases hcheck : (g.checkBudgets env m.grant m.call).1 with
    | some refusal =>
        have hpair : g.checkBudgets env m.grant m.call =
            (some refusal, (g.checkBudgets env m.grant m.call).2) := by rw [← hcheck]
        obtain ⟨hdenied, hexecution, hdelegator⟩ := isDenied_of_checkBudgets hcheck
        rw [hpair, if_pos (Or.inr (Option.some_ne_none refusal))]
        apply accounts_dismiss _ _ hexecution hdelegator
        rw [hdenied]
        rfl
    | none =>
        have hpair : g.checkBudgets env m.grant m.call =
            (none, (g.checkBudgets env m.grant m.call).2) := by rw [← hcheck]
        have hpassed : ¬ (m.cls = .forbidden ∨ (none : Option Refusal) ≠ none) :=
          not_or.mpr ⟨hcls, fun h => h rfl⟩
        rw [hpair, if_neg hpassed]
        unfold takeCall
        show Accounts executor none none (if (g.counted env m).1 then _ else _)
        split
        · split
          · exact accounts_executeNow
          · exact accounts_queueForReview
          · exact accounts_panicked
        · exact accounts_panicked

/-- A call of a stranger is no refusal of an agent's call. -/
theorem accounts_refuseUnknown (agent : AgentId) :
    Accounts executor none none (g.refuseUnknown env agent) :=
  accounts_dismiss _ _ rfl rfl rfl

/-- The checks of the budgets are those of the gateway before a line is written. -/
theorem refused_audit (agent : AgentId) (line : AuditLine) (m : Mediation) :
    m.refused env (g.audit env agent line) = m.refused env g := by
  unfold Mediation.refused
  rw [Gateway.audit, checkBudgets_store]

/-- The lines of each call account for it. -/
theorem accounts_perform (env : GatewayEnv) (g : Gateway) (op : GatewayCall) :
    Accounts op.executor (refusedCall env g op) op.delegation (perform env g op) := by
  cases op with
  | handle grant call executor => exact accounts_mediate (.ofGrant call grant)
  | handleManaged registration grant call executor =>
      show Accounts executor (Option.bind (if registration.manages call.agent then _ else none) _) none
        (g.handleManaged env registration grant call executor)
      rw [Gateway.handleManaged]
      split
      · exact accounts_mediate (.ofGrant call grant)
      · exact accounts_dismiss _ _ rfl rfl rfl
  | handleInRoom roster call executor =>
      show Accounts executor (Option.bind (Option.map _ (roster.grantFor call.agent)) _) none
        (g.handleInRoom env roster call executor)
      rw [Gateway.handleInRoom]
      cases roster.grantFor call.agent with
      | some grant => exact accounts_mediate (.ofGrant call grant)
      | none => exact accounts_refuseUnknown call.agent
  | handleDelegated roster orchestrator call executor =>
      show Accounts executor
        (Option.bind (if roster.contains orchestrator then
          Option.map _ (roster.grantFor call.agent) else none) _)
        (Option.map _ (if roster.contains orchestrator then
          Option.map _ (roster.grantFor call.agent) else none))
        (g.handleDelegated env roster orchestrator call executor)
      rw [Gateway.handleDelegated]
      cases roster.contains orchestrator with
      | false => exact accounts_refuseUnknown orchestrator
      | true =>
          cases roster.grantFor call.agent with
          | none => exact accounts_refuseUnknown call.agent
          | some grant =>
              -- the line about the delegation, then those of the mediation
              have hmediate := @accounts_mediate env
                (g.audit env call.agent (.delegatedBy orchestrator call.tool)) executor
                (.ofGrant call grant)
              rw [refused_audit] at hmediate
              constructor
              · exact hmediate.executed
              · exact hmediate.refused
              · exact congrArg _ hmediate.delegated
  | handleWithPolicy grant policy call executor =>
      show Accounts executor (if deniedByPolicy grant policy call then some call
        else (GatewayCall.mediated (.handleWithPolicy grant policy call executor)).bind _) none
        (g.handleWithPolicy env grant policy call executor)
      unfold Gateway.handleWithPolicy
      by_cases hbase : grant.classify call.tool call.room = .forbidden
      · have hdenied : ¬ deniedByPolicy grant policy call = true := by simp [deniedByPolicy, hbase]
        rw [if_neg hdenied]
        simp only [GatewayCall.mediated, hbase, ne_eq, not_true, false_and, if_false, if_true]
        exact accounts_mediate ⟨grant, call, .forbidden⟩
      · by_cases heffect : policy.evaluate call.tool call.room.asStr call.argsSummary = .deny
        · have hdenied : deniedByPolicy grant policy call = true := by simp [deniedByPolicy, hbase, heffect]
          rw [if_pos hdenied]
          simp only [hbase, heffect, if_false, if_true]
          exact accounts_dismiss _ _ rfl rfl rfl
        · have hdenied : ¬ deniedByPolicy grant policy call = true := by simp [deniedByPolicy, heffect]
          rw [if_neg hdenied]
          simp only [GatewayCall.mediated, hbase, heffect, and_false, if_false]
          exact accounts_mediate ⟨grant, call, refine _ _⟩
  | resolve requestId approved decidedBy executor =>
      cases hp : requestOf g requestId with
      | none =>
          have hrefused : refusedCall env g (.resolve requestId approved decidedBy executor) = none := by
            cases approved with
            | true => rfl
            | false => rw [refusedCall, hp, Option.map_none]
          rw [perform_resolve_unknown hp, hrefused]
          exact ⟨rfl, rfl, rfl⟩
      | some p =>
          cases approved with
          | true =>
              rw [perform_resolve_approved hp]
              exact accounts_execute _ _ rfl rfl rfl
          | false =>
              rw [perform_resolve_denied hp, refusedCall, hp]
              exact accounts_dismiss _ _ rfl rfl rfl

end

/-! ## The log after a run -/

section

variable {digest : Digest} {store : Store Bytes} {records : List (Str × Str)}

/-- Plain records are shown after what the log showed before. -/
theorem shown_appendAll (hstore : Positioned store) (hlen : store.count .auditLog + records.length < 10 ^ 20)
    (hplain : ∀ r ∈ records, PlainRecord r) :
    shown (appendAll digest store records) = shown store ++ records := by
  induction records generalizing store with
  | nil =>
      rw [List.append_nil]
      rfl
  | cons r records ih =>
      rw [List.length_cons] at hlen
      rw [List.forall_mem_cons] at hplain
      have hcount : store.count .auditLog < 10 ^ 20 := by omega
      have hdecode : decode (encode (nextEntry digest store r.1 r.2)) =
          some (nextEntry digest store r.1 r.2) := decode_encode hplain.1.1 hplain.1.2
      have hnext : shown (append digest store r.1 r.2) = shown store ++ [r] := by
        rw [shown, entries_append hstore hcount, hdecode, Option.toList_some, List.map_append, ← shown]
        rfl
      have hafter : (append digest store r.1 r.2).count .auditLog = store.count .auditLog + 1 :=
        count_append hstore hcount
      have hbound : (append digest store r.1 r.2).count .auditLog + records.length < 10 ^ 20 := by
        rw [hafter]
        omega
      have hrest := ih (hstore.append hcount) hbound hplain.2
      rw [appendAll, List.foldl_cons, ← appendAll, hrest, hnext, List.append_assoc, List.singleton_append]

/-- The kinds of an agent's steps, from what the log shows. -/
theorem kinds_replaySession (digest : Digest) (store : Store Bytes) (agent : Str) :
    (replaySession digest store agent).steps.map SessionStep.kind =
      ((shown store).filter fun r => r.1 = agent).map fun r => classify r.2 := by
  have hindexed : ∀ es : List AuditEntry, ∀ k,
      (((es.zipIdx k).filter fun e => e.1.actor = agent).map fun e =>
        (⟨e.2, classify e.1.event, e.1.event⟩ : SessionStep)).map SessionStep.kind =
      ((es.map fun e => (e.actor, e.event)).filter fun r => r.1 = agent).map fun r => classify r.2 := by
    intro es
    induction es with
    | nil => exact fun _ => rfl
    | cons e es ih =>
        intro k
        rw [List.zipIdx_cons, List.map_cons, List.filter_cons, List.filter_cons]
        by_cases hactor : e.actor = agent
        · simp only [hactor, decide_true, if_true, List.map_cons, ih]
        · simp only [hactor, decide_false, Bool.false_eq_true, if_false, ih]
  exact hindexed (entries store) 0

end

/-- The kinds of an agent's lines. -/
def kindsOf (agent : AgentId) (lines : List (AgentId × AuditLine)) : List StepKind :=
  (lines.filter fun l => l.1 = agent).map fun l => l.2.kind

section

variable {env : GatewayEnv} {store : Store Bytes} {ops : List GatewayCall} {agent : AgentId}

/-- The log of a run shows an agent's lines as what they are. -/
theorem kinds_run (hstore : Positioned store) (hcount : store.count .auditLog < 2 ^ 64)
    (hlen : ops.length < 2 ^ 64)
    (hlines : ∀ line ∈ auditedOver env store ops, PlainRecord (record line) ∧ line.2.Unmarked) :
    (replaySession env.digest (run (gatewayStep env) (withStore store) ops).store
        agent.asStr).steps.map SessionStep.kind =
      (replaySession env.digest store agent.asStr).steps.map SessionStep.kind ++
        kindsOf agent (auditedOver env store ops) := by
  have hfew := length_auditedOver_le env store ops
  have hbound : store.count .auditLog + ((auditedOver env store ops).map record).length < 10 ^ 20 := by
    rw [List.length_map]
    omega
  have hplain : ∀ r ∈ (auditedOver env store ops).map record, PlainRecord r :=
    List.forall_mem_map.mpr fun line hline => (hlines line hline).1
  have hread : ∀ lines : List (AgentId × AuditLine), (∀ line ∈ lines, line.2.Unmarked) →
      (((lines.map record).filter fun r => r.1 = agent.asStr).map fun r => classify r.2) =
        kindsOf agent lines := by
    intro lines
    induction lines with
    | nil => exact fun _ => rfl
    | cons line lines ih =>
        intro hunmarked
        rw [List.forall_mem_cons] at hunmarked
        have hclassify := classify_text hunmarked.1
        rw [kindsOf, List.map_cons, List.filter_cons, List.filter_cons]
        by_cases hagent : line.1 = agent
        · have hstr : (record line).1 = agent.asStr := congrArg UserId.asStr hagent
          simp only [hstr, hagent, decide_true, if_true, List.map_cons, ih hunmarked.2]
          rw [← hclassify]
          rfl
        · have hstr : (record line).1 ≠ agent.asStr := fun h => hagent (UserId.ext h)
          simp only [hstr, hagent, decide_false, Bool.false_eq_true, if_false, ih hunmarked.2]
          rfl
  rw [kinds_replaySession, kinds_replaySession, store_run, shown_appendAll hstore hbound hplain,
    List.filter_append, List.map_append, hread _ fun line hline => (hlines line hline).2]

end

/-- What is read of the lines of an agent is what is read of all lines, with their agents. -/
theorem filterMap_kindsOf {β : Type} (f : StepKind → Option β) (agent : AgentId)
    (lines : List (AgentId × AuditLine)) :
    (kindsOf agent lines).filterMap f =
      ((lines.filterMap fun l => (f l.2.kind).map fun b => (l.1, b)).filter fun x => x.1 = agent).map
        Prod.snd := by
  induction lines with
  | nil => rfl
  | cons line lines ih =>
      rw [kindsOf, List.filter_cons, List.filterMap_cons]
      rw [kindsOf] at ih
      by_cases hagent : line.1 = agent
      · cases hf : f line.2.kind with
        | none => simp [hagent, hf, ih]
        | some b => simp [hagent, hf, ih]
      · cases hf : f line.2.kind with
        | none => simp [hagent, ih]
        | some b => simp [hagent, ih]

section

variable {r : Reply} {executor : ToolExecutor} {refused : Option ToolCall}
  {delegation : Option (AgentId × AgentId)}

theorem Accounts.executions (h : Accounts executor refused delegation r) (agent : AgentId) :
    (kindsOf agent r.audited).filterMap StepKind.execution =
      (r.invoked.filter fun c => c.2.agent = agent).map fun c =>
        ((executor c.2).ok, (executor c.2).tokens) := by
  have hkinds : kindsOf agent (r.audited.filter fun l => l.2.kind.execution.isSome) =
      (kindsOf agent r.audited).filter fun k => k.execution.isSome := by
    rw [kindsOf, kindsOf, List.filter_map, List.filter_filter, List.filter_filter]
    simp only [Bool.and_comm, Function.comp_def]
  have hsome : (kindsOf agent r.audited).filterMap StepKind.execution =
      ((kindsOf agent r.audited).filter fun k => k.execution.isSome).filterMap StepKind.execution := by
    rw [List.filterMap_filter]
    congr 1
    funext k
    cases k.execution <;> rfl
  rw [hsome, ← hkinds, h.executed, kindsOf, List.filter_map, List.map_map, List.filterMap_map]
  exact congrFun List.filterMap_eq_map' _

theorem Accounts.denials (h : Accounts executor refused delegation r) (agent : AgentId) :
    ((kindsOf agent r.audited).filter StepKind.isDenied).length =
      (refused.toList.filter fun call => call.agent = agent).length := by
  have hlines : ((kindsOf agent r.audited).filter StepKind.isDenied).length =
      (((r.audited.filter fun l => l.2.kind.isDenied).map Prod.fst).filter fun a => a = agent).length := by
    rw [kindsOf, List.filter_map, List.length_map, List.filter_filter, List.filter_map, List.length_map,
      List.filter_filter]
    simp only [Bool.and_comm, Function.comp_def]
  rw [hlines, h.refused, List.filter_map, List.length_map]
  rfl

theorem Accounts.delegators (h : Accounts executor refused delegation r) (agent : AgentId) :
    (kindsOf agent r.audited).filterMap StepKind.delegator =
      (delegation.toList.filter fun d => d.1 = agent).map fun d => d.2.asStr := by
  rw [filterMap_kindsOf, h.delegated, List.filter_map, List.map_map]
  rfl

end

theorem kindsOf_auditedOver (agent : AgentId) (env : GatewayEnv) (store : Store Bytes)
    (ops : List GatewayCall) : kindsOf agent (auditedOver env store ops) =
      (gatewayTrace env store ops).flatMap fun x => kindsOf agent (perform env x.1 x.2).audited := by
  rw [kindsOf, auditedOver, List.filter_flatMap, List.map_flatMap]
  rfl

/-- The lines of a run account for the agent's calls. -/
theorem executions_auditedOver (agent : AgentId) (env : GatewayEnv) (store : Store Bytes)
    (ops : List GatewayCall) :
    (kindsOf agent (auditedOver env store ops)).filterMap StepKind.execution =
      executionsOf env store ops agent := by
  rw [kindsOf_auditedOver, List.filterMap_flatMap, executionsOf]
  congr 1
  funext x
  exact (accounts_perform env x.1 x.2).executions agent

theorem denials_auditedOver (agent : AgentId) (env : GatewayEnv) (store : Store Bytes)
    (ops : List GatewayCall) :
    ((kindsOf agent (auditedOver env store ops)).filter StepKind.isDenied).length =
      (refusalsOf env store ops agent).length := by
  rw [kindsOf_auditedOver, List.filter_flatMap, List.length_flatMap, refusalsOf, List.length_flatMap]
  congr 2
  funext x
  exact (accounts_perform env x.1 x.2).denials agent

theorem delegators_auditedOver (agent : AgentId) (env : GatewayEnv) (store : Store Bytes)
    (ops : List GatewayCall) :
    (kindsOf agent (auditedOver env store ops)).filterMap StepKind.delegator =
      delegatorsOf ops agent := by
  have hops : (gatewayTrace env store ops).map Prod.snd = ops := map_snd_trace _ _
  rw [kindsOf_auditedOver, List.filterMap_flatMap, delegatorsOf]
  nth_rewrite 2 [← hops]
  rw [List.flatMap_map]
  congr 1
  funext x
  exact (accounts_perform env x.1 x.2).delegators agent

/-! ## Replay after a run -/

/-- Summing tokens that fit a word gives their sum. -/
theorem foldlM_tokens (overflowChecks : Bool) (tokens : List UInt64) (sum : UInt64)
    (h : sum.toNat + (tokens.map UInt64.toNat).sum < 2 ^ 64) :
    ∃ total, tokens.foldlM (fun sum tokens =>
      if overflowChecks ∧ 2 ^ 64 ≤ sum.toNat + tokens.toNat then none else some (sum + tokens)) sum =
        some total ∧ total.toNat = sum.toNat + (tokens.map UInt64.toNat).sum := by
  induction tokens generalizing sum with
  | nil => exact ⟨sum, rfl, rfl⟩
  | cons t tokens ih =>
      rw [List.map_cons, List.sum_cons] at h
      have hfits : ¬ (overflowChecks ∧ 2 ^ 64 ≤ sum.toNat + t.toNat) := by
        intro hover
        have := hover.2
        omega
      have hnat : (sum + t).toNat = sum.toNat + t.toNat := by
        rw [UInt64.toNat_add, Nat.mod_eq_of_lt]
        omega
      obtain ⟨total, htotal, hsum⟩ := ih (sum + t) (by omega)
      refine ⟨total, ?_, ?_⟩
      · rw [List.foldlM_cons, if_neg hfits]
        exact htotal
      · rw [hsum, hnat, List.map_cons, List.sum_cons, Nat.add_assoc]

/-- Only executions have tokens. -/
theorem sum_tokens (kinds : List StepKind) :
    (kinds.map fun k => k.tokens.toNat).sum =
      ((kinds.filterMap StepKind.execution).map fun e => e.2.toNat).sum := by
  induction kinds with
  | nil => rfl
  | cons kind kinds ih =>
      rw [List.map_cons, List.sum_cons, ih, List.filterMap_cons]
      cases kind with
      | executed ok tokens => rfl
      | _ => exact Nat.zero_add _

/-- The call that the gateway may execute: one that its grant and the policy allow at once, or one that
is approved. -/
def executable (g : Gateway) : GatewayCall → Option ToolCall
  | .resolve requestId approved _ _ =>
      if approved then (requestOf g requestId).map PendingApproval.call else none
  | op => (op.mediated.filter fun m => m.cls = .auto).map Mediation.call

/-- A call whose lines are read back as what they are: no text that it may write has the separator of
the log, a tool that may be executed has no key of the line in its name, and an orchestrator no colon
with a space. -/
structure Replayable (g : Gateway) (op : GatewayCall) : Prop where
  plain : ∀ text ∈ textsOf g op, sep ∉ text
  tool : ∀ call ∈ executable g op, ¬ "ok=".toList <:+: call.tool ∧ ¬ "tokens=".toList <:+: call.tool
  orchestrator : ∀ d ∈ op.delegation, ¬ ": ".toList <:+: d.2.asStr

instance (g : Gateway) (op : GatewayCall) : Decidable (Replayable g op) :=
  decidable_of_iff ((∀ text ∈ textsOf g op, sep ∉ text) ∧
      (∀ call ∈ executable g op, ¬ "ok=".toList <:+: call.tool ∧ ¬ "tokens=".toList <:+: call.tool) ∧
      ∀ d ∈ op.delegation, ¬ ": ".toList <:+: d.2.asStr)
    ⟨fun h => ⟨h.1, h.2.1, h.2.2⟩, fun h => ⟨h.plain, h.tool, h.orchestrator⟩⟩

section

variable {env : GatewayEnv} {g : Gateway} {op : GatewayCall} {store : Store Bytes}
  {ops : List GatewayCall}

theorem executable_of_mediated {m : Mediation} (hm : op.mediated = some m) (hcls : m.cls = .auto) :
    executable g op = some m.call := by
  have hfilter : ((some m).filter fun m => decide (m.cls = .auto)).map Mediation.call = some m.call := by
    simp [hcls]
  cases op with
  | resolve requestId approved decidedBy executor => exact nomatch hm
  | _ =>
      show ((GatewayCall.mediated _).filter fun m => decide (m.cls = .auto)).map Mediation.call = _
      rw [hm]
      exact hfilter

/-- What is executed may be executed. -/
theorem executable_of_invoked {c : Gateway × ToolCall} (hc : c ∈ (perform env g op).invoked) :
    executable g op = some c.2 := by
  cases course env g op with
  | turn m hm hturn =>
      cases hturn with
      | executed _ _ _ _ _ hpassed _ _ _ hinvoked _ =>
          rw [hinvoked, List.mem_singleton] at hc
          rw [hc]
          exact executable_of_mediated hm hpassed.1
      | refused _ _ _ _ _ hinvoked _ =>
          rw [hinvoked] at hc
          exact absurd hc List.not_mem_nil
      | panicked _ _ _ _ _ _ hinvoked _ =>
          rw [hinvoked] at hc
          exact absurd hc List.not_mem_nil
      | queued _ _ _ _ _ _ _ _ _ hinvoked _ =>
          rw [hinvoked] at hc
          exact absurd hc List.not_mem_nil
  | dismissed agent line outcome answer _ _ hperform =>
      rw [hperform, dismiss_invoked] at hc
      exact absurd hc List.not_mem_nil
  | unknown _ _ _ _ _ _ hperform =>
      rw [hperform] at hc
      exact absurd hc List.not_mem_nil
  | settled id approved decidedBy executor p hop hp _ hinvoked _ =>
      obtain ⟨start, hinvoked⟩ := hinvoked
      rw [hinvoked] at hc
      cases approved with
      | false => exact absurd hc List.not_mem_nil
      | true =>
          rw [hop, List.mem_singleton.mp hc, executable, if_pos rfl, hp]
          rfl

/-- A replayable call writes plain and unmarked lines. -/
theorem Replayable.lines (h : Replayable g op) {line : AgentId × AuditLine}
    (hline : line ∈ (perform env g op).audited) : PlainRecord (record line) ∧ line.2.Unmarked := by
  have haccounts := accounts_perform env g op
  constructor
  · apply plainRecord_record
    exact fun text htext => h.plain text ((audits_perform env g op).named line hline text htext)
  · cases hkind : line.2 with
    | executed tool ok tokens =>
        have hmem : line ∈ (perform env g op).audited.filter fun l => l.2.kind.execution.isSome := by
          rw [List.mem_filter, hkind]
          exact ⟨hline, rfl⟩
        rw [haccounts.executed] at hmem
        obtain ⟨c, hc, hcline⟩ := List.mem_map.mp hmem
        have htool : c.2.tool = tool := by
          have hsame := (congrArg Prod.snd hcline).trans hkind
          exact (AuditLine.executed.inj hsame).1
        rw [← htool]
        exact h.tool c.2 (executable_of_invoked hc)
    | delegatedBy orchestrator tool =>
        have hmem : (line.1, orchestrator.asStr) ∈
            (perform env g op).audited.filterMap fun l => l.2.kind.delegator.map fun d => (l.1, d) := by
          rw [List.mem_filterMap]
          exact ⟨line, hline, by rw [hkind]; rfl⟩
        rw [haccounts.delegated] at hmem
        obtain ⟨d, hd, heq⟩ := List.mem_map.mp hmem
        have hstr : d.2.asStr = orchestrator.asStr := congrArg Prod.snd heq
        show ¬ ": ".toList <:+: orchestrator.asStr
        rw [← hstr]
        exact h.orchestrator d (Option.mem_toList.mp hd)
    | _ => trivial

/-- The replay after a run whose lines are plain and unmarked is faithful. -/
theorem faithful_of_lines (hstore : Positioned store) (hcount : store.count .auditLog < 2 ^ 64)
    (hlen : ops.length < 2 ^ 64)
    (hlines : ∀ line ∈ auditedOver env store ops, PlainRecord (record line) ∧ line.2.Unmarked)
    (agent : AgentId)
    (htokens : (((replaySession env.digest store agent.asStr).steps.map fun s => s.kind.tokens.toNat) ++
      (executionsOf env store ops agent).map fun e => e.2.toNat).sum < 2 ^ 64) :
    FaithfulReplay env store ops agent (replaySession env.digest store agent.asStr)
      (replaySession env.digest (run (gatewayStep env) (withStore store) ops).store agent.asStr) := by
  have hkinds := @kinds_run env store ops agent hstore hcount hlen hlines
  generalize replaySession env.digest store agent.asStr = before' at hkinds htokens ⊢
  generalize replaySession env.digest (run (gatewayStep env) (withStore store) ops).store agent.asStr =
    after' at hkinds ⊢
  have hfilterMap : ∀ {β : Type} (f : StepKind → Option β) (r : SessionReplay),
      r.steps.filterMap (fun s => f s.kind) = (r.steps.map SessionStep.kind).filterMap f :=
    fun f r => by rw [List.filterMap_map]; rfl
  have hlength : ∀ (p : StepKind → Bool) (r : SessionReplay),
      (r.steps.filter fun s => p s.kind).length = ((r.steps.map SessionStep.kind).filter p).length :=
    fun p r => by rw [List.filter_map, List.length_map]; rfl
  have hcountSome : ∀ kinds : List StepKind, (kinds.filter fun k => k.execution.isSome).length =
      (kinds.filterMap StepKind.execution).length := by
    intro kinds
    rw [List.length_filterMap_eq_countP, List.countP_eq_length_filter]
  constructor
  · rw [hfilterMap, hfilterMap, hkinds, List.filterMap_append, executions_auditedOver]
  · rw [SessionReplay.executions, SessionReplay.executions, hlength (fun k => k.execution.isSome),
      hlength (fun k => k.execution.isSome), hkinds, List.filter_append, List.length_append,
      hcountSome (kindsOf _ _), executions_auditedOver]
  · have hsum : ((after'.steps.map fun s => s.kind.tokens).map UInt64.toNat).sum =
        ((before'.steps.map fun s => s.kind.tokens.toNat) ++
          (executionsOf env store ops agent).map fun e => e.2.toNat).sum := by
      have hafter : (after'.steps.map fun s => s.kind.tokens).map UInt64.toNat =
          (after'.steps.map SessionStep.kind).map fun k => k.tokens.toNat := by
        rw [List.map_map, List.map_map]
        rfl
      rw [hafter, hkinds, List.map_append, List.sum_append, List.sum_append, sum_tokens (kindsOf _ _),
        executions_auditedOver, List.map_map]
      rfl
    rw [← hsum] at htokens
    obtain ⟨total, htotal, hnat⟩ := foldlM_tokens env.overflowChecks _ 0
      ((Nat.zero_add _).trans_lt htokens)
    refine ⟨total, htotal, ?_⟩
    rw [hnat, ← hsum]
    exact Nat.zero_add _
  · rw [SessionReplay.denials, SessionReplay.denials, hlength StepKind.isDenied,
      hlength StepKind.isDenied, hkinds, List.filter_append, List.length_append, denials_auditedOver]
  · rw [hfilterMap, hfilterMap, hkinds, List.filterMap_append, delegators_auditedOver]

end

/-- Over a log of the gateway's lines, a run replays to what it did with an agent's calls when its
lines are plain and unmarked, so when each of its calls is replayable, and the agent's tokens fit the
sum. -/
theorem replay_faithful (env : GatewayEnv) (store : Store Bytes) (ops : List GatewayCall) (agent : AgentId)
    (hstore : Positioned store) (hcount : store.count .auditLog < 2 ^ 64) (hlen : ops.length < 2 ^ 64)
    (htokens : (((replaySession env.digest store agent.asStr).steps.map fun s => s.kind.tokens.toNat) ++
      (executionsOf env store ops agent).map fun e => e.2.toNat).sum < 2 ^ 64) :
    let before := replaySession env.digest store agent.asStr
    let after := replaySession env.digest (run (gatewayStep env) (withStore store) ops).store agent.asStr
    ((∀ line ∈ auditedOver env store ops, PlainRecord (record line) ∧ line.2.Unmarked) →
      FaithfulReplay env store ops agent before after) ∧
    ((∀ x ∈ gatewayTrace env store ops, Replayable x.1 x.2) →
      FaithfulReplay env store ops agent before after) := by
  constructor
  · exact fun hlines => faithful_of_lines hstore hcount hlen hlines agent htokens
  · intro hcalls
    apply faithful_of_lines hstore hcount hlen _ agent htokens
    intro line hline
    obtain ⟨x, hx, hline⟩ := List.mem_flatMap.mp hline
    exact (hcalls x hx).lines hline

namespace SampleReplay

open SampleGateway

/-- A tool with a key of the line about an execution in its name. -/
def marked : Str := "x ok=false tokens=7".toList

def markedGrant : CapabilityGrant := { grant .auto with allowedTools := [marked] }

def markedRun : List GatewayCall := [.handle markedGrant ⟨worker, room, marked, []⟩ executor]

end SampleReplay

open SampleGateway in
theorem replay_faithful_approvedRun :
    FaithfulReplay env Store.empty approvedRun worker (replaySession env.digest Store.empty worker.asStr)
      (replaySession env.digest (run (gatewayStep env) (withStore Store.empty) approvedRun).store
        worker.asStr) := by
  have hcalls : ∀ x ∈ gatewayTrace env Store.empty approvedRun, Replayable x.1 x.2 := by decide +kernel
  exact (replay_faithful env Store.empty approvedRun worker positioned_empty (by decide +kernel)
    (by decide +kernel) (by decide +kernel)).2 hcalls

open SampleGateway SampleReplay in
/-- An execution that succeeded with ten tokens is replayed as one that failed with seven. -/
theorem marked_execution_misread :
    ¬ ∀ (env : GatewayEnv) (store : Store Bytes) (ops : List GatewayCall) (agent : AgentId),
      store.scan .auditLog = [] → ops.length < 2 ^ 64 →
      (replaySession env.digest (run (gatewayStep env) (withStore store) ops).store
          agent.asStr).steps.filterMap (fun s => s.kind.execution) =
        executionsOf env store ops agent := by
  intro h
  have hsame := h env Store.empty markedRun worker rfl (by decide +kernel)
  have hread : (replaySession env.digest (run (gatewayStep env) (withStore Store.empty) markedRun).store
      worker.asStr).steps.filterMap (fun s => s.kind.execution) = [(false, 7)] := by decide +kernel
  have hdone : executionsOf env Store.empty markedRun worker = [(true, 10)] := by decide +kernel
  rw [hread, hdone] at hsame
  exact absurd hsame (by decide)

end GaussMatrix.Agent
