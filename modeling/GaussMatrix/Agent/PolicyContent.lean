import GaussMatrix.Agent.Capability
import GaussMatrix.Agent.Events

/-!
# Policies as event content

A policy set is published as the content of a state event, where a matcher that is left out is the
empty string.  So a matcher that is the empty string comes back as one that matches anything.
-/

namespace GaussMatrix.Agent

open Library Util

inductive PolicyError
  | missingField (field : Str)
  | invalidField (field : Str)
  deriving DecidableEq

def Effect.asStr : Effect → Str
  | .allow => "allow".toList
  | .requireReview => "review".toList
  | .deny => "deny".toList

def Effect.parse (s : Str) : Option Effect :=
  if s = "allow".toList then some .allow
  else if s = "review".toList then some .requireReview
  else if s = "deny".toList then some .deny
  else none

/-- A rule as a list of four strings. -/
def PolicyRule.toValue (rule : PolicyRule) : Value :=
  .list [.str rule.effect.asStr, .str (rule.tool.getD []), .str (rule.room.getD []),
    .str (rule.argsContains.getD [])]

def PolicySet.toContent (policy : PolicySet) : Content :=
  SortedMap.empty.insertAll [("default_effect".toList, .str policy.defaultEffect.asStr),
    ("rules".toList, .list (policy.rules.map PolicyRule.toValue))]

/-- A field that has to be there and to be well formed. -/
def policyField {α : Type} (content : Content) (key : Str) (read : Value → Option α) :
    Except PolicyError α :=
  match content.get key with
  | none => .error (.missingField key)
  | some value =>
      match read value with
      | none => .error (.invalidField key)
      | some a => .ok a

/-- A matcher of a rule; the empty string is none. -/
def matcherOf (value : Value) : Option (Option Str) :=
  value.asStr.map fun s => if s = [] then none else some s

def PolicyRule.ofValue : Value → Option PolicyRule
  | .list [effect, tool, room, argsContains] => do
      let effect ← effect.asStr.bind Effect.parse
      let tool ← matcherOf tool
      let room ← matcherOf room
      let argsContains ← matcherOf argsContains
      some { effect, tool, room, argsContains }
  | _ => none

def PolicySet.fromContent (content : Content) : Except PolicyError PolicySet := do
  let defaultEffect ← policyField content "default_effect" fun value =>
    value.asStr.bind Effect.parse
  let rules ← policyField content "rules" fun value =>
    value.asList.bind fun values => values.mapM PolicyRule.ofValue
  pure { rules, defaultEffect }

/-! ## What is read back -/

/-- A matcher as it is read back. -/
def published (matcher : Option Str) : Option Str := matcher.filter (· ≠ [])

/-- A rule as it is read back. -/
def PolicyRule.published (rule : PolicyRule) : PolicyRule where
  effect := rule.effect
  tool := Agent.published rule.tool
  room := Agent.published rule.room
  argsContains := Agent.published rule.argsContains

theorem Effect.parse_asStr (effect : Effect) : Effect.parse effect.asStr = some effect := by
  cases effect <;> decide

theorem matcherOf_getD (matcher : Option Str) :
    matcherOf (.str (matcher.getD [])) = some (published matcher) := by
  cases matcher with
  | none => rfl
  | some s =>
      by_cases hs : s = []
      · rw [hs]
        rfl
      · have hkept : published (some s) = some s := Option.filter_some_pos (by simpa using hs)
        rw [hkept]
        show some (if s = [] then none else some s) = some (some s)
        rw [if_neg hs]

theorem PolicyRule.ofValue_toValue (rule : PolicyRule) :
    PolicyRule.ofValue rule.toValue = some rule.published := by
  have heffect : (Value.str rule.effect.asStr).asStr.bind Effect.parse = some rule.effect :=
    Effect.parse_asStr rule.effect
  rw [PolicyRule.toValue, PolicyRule.ofValue]
  simp only [heffect, matcherOf_getD, Option.bind_eq_bind, Option.bind_some]
  rfl

theorem mapM_ofValue_toValue (rules : List PolicyRule) :
    (rules.map PolicyRule.toValue).mapM PolicyRule.ofValue =
      some (rules.map PolicyRule.published) := by
  induction rules with
  | nil => rfl
  | cons rule rules ih =>
      rw [List.map_cons, List.mapM_cons, PolicyRule.ofValue_toValue, ih]
      rfl

/-- A published policy is read back with its empty matchers left out. -/
theorem PolicySet.fromContent_toContent (policy : PolicySet) :
    PolicySet.fromContent policy.toContent =
      .ok { rules := policy.rules.map PolicyRule.published
            defaultEffect := policy.defaultEffect } := by
  have hne : "default_effect".toList ≠ "rules".toList := by decide
  have hdefault : policy.toContent.get "default_effect".toList =
      some (.str policy.defaultEffect.asStr) := by
    rw [PolicySet.toContent]
    show ((SortedMap.empty.insert _ _).insert _ _).get _ = _
    rw [SortedMap.get_insert_ne _ hne, SortedMap.get_insert_self]
  have hrules : policy.toContent.get "rules".toList =
      some (.list (policy.rules.map PolicyRule.toValue)) := SortedMap.get_insert_self _ _ _
  have heffect : (Value.str policy.defaultEffect.asStr).asStr.bind Effect.parse =
      some policy.defaultEffect := Effect.parse_asStr policy.defaultEffect
  rw [PolicySet.fromContent]
  simp only [policyField, hdefault, hrules, heffect, Value.asList, Option.bind_some,
    mapM_ofValue_toValue]
  rfl

/-! ## What it means -/

/-- Whether a rule matches when its empty matchers stand for any tool and any room, as they do on
the wire. -/
def PolicyRule.matchesOnWire (rule : PolicyRule) (tool room argsSummary : Str) : Bool :=
  (rule.tool.all fun t => t = [] || t = tool) && (rule.room.all fun r => r = [] || r = room) &&
    rule.argsContains.all (contains argsSummary)

/-- The effect of the first rule that matches so. -/
def PolicySet.evaluateOnWire (policy : PolicySet) (tool room argsSummary : Str) : Effect :=
  ((policy.rules.find? fun rule => rule.matchesOnWire tool room argsSummary).map
    PolicyRule.effect).getD policy.defaultEffect

theorem all_published (matcher : Option Str) (test : Str → Bool) :
    (published matcher).all test = matcher.all fun s => s = [] || test s := by
  cases matcher with
  | none => rfl
  | some s =>
      by_cases hs : s = []
      · simp [published, hs]
      · simp [published, hs]

/-- Every text has the empty one in it. -/
theorem contains_nil (text : Str) : contains text [] = true := by
  simp [contains]

theorem PolicyRule.matches_published (rule : PolicyRule) (tool room argsSummary : Str) :
    rule.published.matches tool room argsSummary = rule.matchesOnWire tool room argsSummary := by
  have hargs : (Agent.published rule.argsContains).all (contains argsSummary) =
      rule.argsContains.all (contains argsSummary) := by
    rw [all_published]
    congr 1
    funext s
    by_cases hs : s = []
    · simp [hs, contains_nil]
    · simp [hs]
  rw [PolicyRule.matches, PolicyRule.matchesOnWire, PolicyRule.published]
  simp only [hargs]
  simp only [all_published]

theorem PolicyRule.matchesOnWire_of_ne {rule : PolicyRule} (htool : rule.tool ≠ some [])
    (hroom : rule.room ≠ some []) (tool room argsSummary : Str) :
    rule.matchesOnWire tool room argsSummary = rule.matches tool room argsSummary := by
  have hmatcher : ∀ (matcher : Option Str) (s : Str), matcher ≠ some [] →
      (matcher.all fun t => t = [] || t = s) = matcher.all fun t => t = s := by
    intro matcher s hne
    cases matcher with
    | none => rfl
    | some t =>
        have ht : t ≠ [] := fun h => hne (congrArg some h)
        simp [ht]
  rw [PolicyRule.matchesOnWire, PolicyRule.matches, hmatcher _ _ htool, hmatcher _ _ hroom]

theorem PolicySet.evaluateOnWire_of_ne {policy : PolicySet}
    (h : ∀ rule ∈ policy.rules, rule.tool ≠ some [] ∧ rule.room ≠ some [])
    (tool room argsSummary : Str) :
    policy.evaluateOnWire tool room argsSummary = policy.evaluate tool room argsSummary := by
  have hfind : ∀ rules : List PolicyRule, (∀ rule ∈ rules, rule ∈ policy.rules) →
      (rules.find? fun rule => rule.matchesOnWire tool room argsSummary) =
        rules.find? fun rule => rule.matches tool room argsSummary := by
    intro rules hrules
    induction rules with
    | nil => rfl
    | cons rule rules ih =>
        obtain ⟨hrule, hrules⟩ := List.forall_mem_cons.mp hrules
        obtain ⟨htool, hroom⟩ := h rule hrule
        rw [List.find?_cons, List.find?_cons, PolicyRule.matchesOnWire_of_ne htool hroom, ih hrules]
  rw [PolicySet.evaluateOnWire, PolicySet.evaluate, hfind policy.rules fun _ hrule => hrule]

/-- A published policy can be read back.  It then judges every call as the policy does whose empty
tool and room matchers stand for anything, and so as the policy itself where no rule has one. -/
theorem policy_means_the_same_after_publication (policy : PolicySet) :
    ∃ decoded, PolicySet.fromContent policy.toContent = .ok decoded ∧
      ∀ tool room argsSummary,
        decoded.evaluate tool room argsSummary =
          policy.evaluateOnWire tool room argsSummary ∧
        ((∀ rule ∈ policy.rules, rule.tool ≠ some [] ∧ rule.room ≠ some []) →
          decoded.evaluate tool room argsSummary = policy.evaluate tool room argsSummary) := by
  refine ⟨_, policy.fromContent_toContent, fun tool room argsSummary => ?_⟩
  have hwire : PolicySet.evaluate
      ⟨policy.rules.map PolicyRule.published, policy.defaultEffect⟩ tool room argsSummary =
        policy.evaluateOnWire tool room argsSummary := by
    rw [PolicySet.evaluate, PolicySet.evaluateOnWire, List.find?_map, Option.map_map]
    simp only [Function.comp_def, PolicyRule.matches_published]
    rfl
  apply And.intro hwire
  intro h
  rw [hwire]
  exact PolicySet.evaluateOnWire_of_ne h tool room argsSummary

/-- A rule that allows the tool of the empty name, over a policy that denies, allows every tool once
it is published. -/
theorem published_policy_allows_more : ∃ decoded,
    PolicySet.fromContent (PolicySet.toContent ⟨[⟨.allow, some [], none, none⟩], .deny⟩) =
        .ok decoded ∧
      decoded.evaluate "deploy".toList "!r:host".toList [] = .allow ∧
      PolicySet.evaluate ⟨[⟨.allow, some [], none, none⟩], .deny⟩ "deploy".toList "!r:host".toList [] = .deny :=
  ⟨_, PolicySet.fromContent_toContent _, by decide, by decide⟩

end GaussMatrix.Agent
