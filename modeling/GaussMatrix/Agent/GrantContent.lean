import GaussMatrix.Agent.GrantMirror

/-!
# Grants as event content

A grant is decoded from a content exactly when the content has the fields of the grant as they are
published, where the two daily limits may be left out.
-/

namespace GaussMatrix.Agent

open Library Util

namespace CapabilityGrant

/-- An override as a pair of a tool and a class. -/
def overrideValue (o : Str × ActionClass) : Value := .list [.str o.1, .str o.2.asStr]

/-- The grant as event content. -/
def toContent (grant : CapabilityGrant) : Content :=
  SortedMap.empty.insertAll
    [("agent".toList, .str grant.agent.asStr),
      ("rate_limit_per_min".toList, .u64 grant.rateLimitPerMin.toUInt64),
      ("daily_call_limit".toList, .u64 grant.dailyCallLimit.toUInt64),
      ("daily_token_budget".toList, .u64 grant.dailyTokenBudget),
      ("default_class".toList, .str grant.defaultClass.asStr),
      ("allowed_tools".toList, .list (grant.allowedTools.map .str)),
      ("accessible_rooms".toList, .list (grant.accessibleRooms.map fun r => .str r.asStr)),
      ("overrides".toList, .list (grant.overrides.map overrideValue))]

end CapabilityGrant

/-! ## Fields and their values -/

theorem ActionClass.parse_eq_some_iff {s : Str} {cls : ActionClass} :
    ActionClass.parse s = some cls ↔ s = cls.asStr := by
  constructor
  · intro h
    unfold ActionClass.parse at h
    split_ifs at h with hauto hreview hforbidden
    · rw [← Option.some.inj h]
      exact hauto
    · rw [← Option.some.inj h]
      exact hreview
    · rw [← Option.some.inj h]
      exact hforbidden
  · intro h
    rw [h]
    cases cls <;> decide

theorem u32OfU64_eq_some_iff {n : UInt64} {m : UInt32} :
    u32OfU64 n = some m ↔ n = m.toUInt64 := by
  unfold u32OfU64
  constructor
  · intro h
    split_ifs at h with hsmall
    rw [← Option.some.inj h]
    apply UInt64.toNat_inj.mp
    rw [UInt32.toNat_toUInt64, UInt64.toNat_toUInt32, Nat.mod_eq_of_lt hsmall]
  · intro h
    have hsmall : n.toNat < 2 ^ 32 := by
      rw [h, UInt32.toNat_toUInt64]
      exact m.toNat_lt
    rw [if_pos hsmall, h, UInt32.toUInt32_toUInt64]

theorem Value.asU64_eq_some_iff {v : Value} {n : UInt64} : v.asU64 = some n ↔ v = .u64 n := by
  cases v <;> simp [asU64]

theorem userId_parse_eq_some_iff {s : Str} {user : UserId} :
    UserId.parse s = some user ↔ s = user.asStr :=
  ⟨fun h => (UserId.asStr_of_parse h).symm, fun h => h ▸ UserId.parse_asStr user⟩

theorem roomId_parse_eq_some_iff {s : Str} {room : RoomId} :
    RoomId.parse s = some room ↔ s = room.asStr :=
  ⟨fun h => (RoomId.asStr_of_parse h).symm, fun h => h ▸ RoomId.parse_asStr room⟩

theorem room_of_value {v : Value} {room : RoomId} :
    v.asStr.bind RoomId.parse = some room ↔ v = .str room.asStr := by
  rw [Option.bind_eq_some_iff]
  constructor
  · intro ⟨s, hs, hroom⟩
    rw [Value.asStr_eq_some_iff.mp hs, roomId_parse_eq_some_iff.mp hroom]
  · intro h
    exact ⟨room.asStr, Value.asStr_eq_some_iff.mpr h, RoomId.parse_asStr room⟩

theorem class_of_value {v : Value} {cls : ActionClass} :
    v.asStr.bind ActionClass.parse = some cls ↔ v = .str cls.asStr := by
  rw [Option.bind_eq_some_iff]
  constructor
  · intro ⟨s, hs, hcls⟩
    rw [Value.asStr_eq_some_iff.mp hs, ActionClass.parse_eq_some_iff.mp hcls]
  · intro h
    exact ⟨cls.asStr, Value.asStr_eq_some_iff.mpr h, ActionClass.parse_eq_some_iff.mpr rfl⟩

theorem override_of_value {v : Value} {o : Str × ActionClass} :
    overrideOf v = some o ↔ v = CapabilityGrant.overrideValue o := by
  constructor
  · intro h
    unfold overrideOf at h
    split at h
    · rename_i tool cls
      obtain ⟨t, ht, h⟩ := Option.bind_eq_some_iff.mp h
      obtain ⟨c, hc, h⟩ := Option.map_eq_some_iff.mp h
      rw [Value.asStr_eq_some_iff.mp ht, class_of_value.mp hc, ← h]
      rfl
    · cases h
  · intro h
    have hcls : (Value.str o.2.asStr).asStr.bind ActionClass.parse = some o.2 :=
      class_of_value.mpr rfl
    rw [h]
    show (Value.str o.1).asStr.bind (fun tool =>
      ((Value.str o.2.asStr).asStr.bind ActionClass.parse).map fun cls => (tool, cls)) = some o
    rw [hcls]
    rfl

section

variable {content : Content} {key : Str} {grant : CapabilityGrant}

/-- The entries of a list are well formed exactly when they are what is published for something. -/
theorem mapM_wellFormed_eq_ok_iff {α : Type} {read : Value → Option α} {publish : α → Value}
    (hread : ∀ v a, read v = some a ↔ v = publish a) {entries : List Value} {as : List α} :
    (entries.mapM fun entry => wellFormed key (read entry)) = .ok as ↔
      entries = as.map publish := by
  induction entries generalizing as with
  | nil =>
      cases as with
      | nil => exact iff_of_true rfl rfl
      | cons a as => exact iff_of_false (fun h => nomatch Except.ok.inj h) (fun h => nomatch h)
  | cons entry entries ih =>
      rw [List.mapM_cons, bind_eq_ok_iff]
      constructor
      · intro ⟨a, ha, h⟩
        obtain ⟨rest, hrest, h⟩ := bind_eq_ok_iff.mp h
        rw [← Except.ok.inj h, List.map_cons, ih.mp hrest,
          (hread entry a).mp (wellFormed_eq_ok_iff.mp ha)]
      · intro h
        cases as with
        | nil => exact nomatch h
        | cons a as =>
            obtain ⟨hentry, hentries⟩ := List.cons.inj h
            refine ⟨a, wellFormed_eq_ok_iff.mpr ((hread entry a).mpr hentry), ?_⟩
            exact bind_eq_ok_iff.mpr ⟨as, ih.mpr hentries, rfl⟩

theorem stringList_eq_ok_iff {read : List Str} :
    stringList content key = .ok read ↔ content.get key = some (.list (read.map .str)) := by
  rw [stringList, bind_eq_ok_iff]
  simp only [listField_eq_ok_iff,
    mapM_wellFormed_eq_ok_iff fun v s => @Value.asStr_eq_some_iff v s]
  constructor
  · rintro ⟨values, hvalues, heq⟩
    rw [hvalues, heq]
  · intro h
    exact ⟨_, h, rfl⟩

theorem optionalField_eq_ok_iff {α : Type} {absent : α} {read : Value → Option α}
    {publish : α → Value} (hread : ∀ v a, read v = some a ↔ v = publish a) {a : α} :
    optionalField content key absent read = .ok a ↔
      content.get key = some (publish a) ∨ content.get key = none ∧ absent = a := by
  unfold optionalField
  cases content.get key with
  | none => simp
  | some v => simp [hread]

/-- The content has the fields of the grant as they are published; the daily limits may be left out
where they are zero. -/
structure ContentOf (grant : CapabilityGrant) (content : Content) : Prop where
  agent : content.get "agent" = some (.str grant.agent.asStr)
  rateLimitPerMin : content.get "rate_limit_per_min" = some (.u64 grant.rateLimitPerMin.toUInt64)
  dailyCallLimit : content.get "daily_call_limit" = some (.u64 grant.dailyCallLimit.toUInt64) ∨
    content.get "daily_call_limit" = none ∧ 0 = grant.dailyCallLimit
  dailyTokenBudget : content.get "daily_token_budget" = some (.u64 grant.dailyTokenBudget) ∨
    content.get "daily_token_budget" = none ∧ 0 = grant.dailyTokenBudget
  defaultClass : content.get "default_class" = some (.str grant.defaultClass.asStr)
  allowedTools : content.get "allowed_tools" = some (.list (grant.allowedTools.map .str))
  accessibleRooms : content.get "accessible_rooms" =
    some (.list (grant.accessibleRooms.map fun room => .str room.asStr))
  overrides : content.get "overrides" =
    some (.list (grant.overrides.map CapabilityGrant.overrideValue))

/-- The decoder accepts the contents of a grant and no others. -/
theorem fromContent_eq_ok_iff :
    CapabilityGrant.fromContent content = .ok grant ↔ ContentOf grant content := by
  have hdaily : ∀ (v : Value) (n : UInt32), v.asU64.bind u32OfU64 = some n ↔
      v = .u64 n.toUInt64 := by
    intro v n
    rw [Option.bind_eq_some_iff]
    simp only [Value.asU64_eq_some_iff, u32OfU64_eq_some_iff]
    exact ⟨fun ⟨_, hv, hn⟩ => hn ▸ hv, fun h => ⟨_, h, rfl⟩⟩
  have htokens : ∀ (v : Value) (n : UInt64), v.asU64 = some n ↔ v = .u64 n :=
    fun v n => Value.asU64_eq_some_iff
  rw [CapabilityGrant.fromContent]
  simp only [bind_eq_ok_iff, field_eq_ok_iff, wellFormed_eq_ok_iff, listField_eq_ok_iff,
    stringList_eq_ok_iff, optionalField_eq_ok_iff hdaily, optionalField_eq_ok_iff htokens,
    mapM_wellFormed_eq_ok_iff fun v a => @room_of_value v a,
    mapM_wellFormed_eq_ok_iff fun v a => @override_of_value v a,
    Value.asStr_eq_some_iff, Value.asU64_eq_some_iff, class_of_value, userId_parse_eq_some_iff,
    u32OfU64_eq_some_iff]
  constructor
  · intro ⟨_, hagent, _, hstr, agent, hparse, _, hrate, _, hu64, rate, hu32, limit, hlimit, tokens,
      hbudget, _, hcls, cls, hclsStr, tools, htools, _, hrooms, rooms, hroomsEq, _, hoverrides,
      overrides, hoverridesEq, h⟩
    rw [← Except.ok.inj h]
    exact
      { agent := by rw [hagent, hstr, hparse]
        rateLimitPerMin := by rw [hrate, hu64, hu32]
        dailyCallLimit := hlimit
        dailyTokenBudget := hbudget
        defaultClass := by rw [hcls, hclsStr]
        allowedTools := htools
        accessibleRooms := by rw [hrooms, hroomsEq]
        overrides := by rw [hoverrides, hoverridesEq] }
  · intro h
    exact ⟨_, h.agent, _, rfl, _, rfl, _, h.rateLimitPerMin, _, rfl, _, rfl, _, h.dailyCallLimit,
      _, h.dailyTokenBudget, _, h.defaultClass, _, rfl, _, h.allowedTools, _, h.accessibleRooms, _,
      rfl, _, h.overrides, _, rfl, rfl⟩

/-! ## Publishing -/

/-- The fields of a published grant. -/
theorem get_toContent_iff {value : Value} : grant.toContent.get key = some value ↔
    (key, value) ∈
      [("agent".toList, .str grant.agent.asStr),
        ("rate_limit_per_min".toList, .u64 grant.rateLimitPerMin.toUInt64),
        ("daily_call_limit".toList, .u64 grant.dailyCallLimit.toUInt64),
        ("daily_token_budget".toList, .u64 grant.dailyTokenBudget),
        ("default_class".toList, .str grant.defaultClass.asStr),
        ("allowed_tools".toList, .list (grant.allowedTools.map .str)),
        ("accessible_rooms".toList, .list (grant.accessibleRooms.map fun r => .str r.asStr)),
        ("overrides".toList, .list (grant.overrides.map CapabilityGrant.overrideValue))] := by
  apply SortedMap.get_insertAll_eq_some_iff
  intro v v' h h'
  refine congrArg Prod.snd (List.inj_on_of_nodup_map (f := Prod.fst) ?_ h h' rfl)
  show ["agent".toList, "rate_limit_per_min".toList, "daily_call_limit".toList,
    "daily_token_budget".toList, "default_class".toList, "allowed_tools".toList,
    "accessible_rooms".toList, "overrides".toList].Nodup
  decide

theorem contentOf_toContent (grant : CapabilityGrant) : ContentOf grant grant.toContent := by
  constructor <;> simp [get_toContent_iff]

/-- A content that decodes to a grant has, of the fields of the published grant, each as it is
published. -/
theorem ContentOf.agrees (h : ContentOf grant content) {published value : Value}
    (hpublished : grant.toContent.get key = some published) (hvalue : content.get key = some value) :
    value = published := by
  rw [get_toContent_iff] at hpublished
  have hrequired : ∀ {v : Value}, content.get key = some v → value = v :=
    fun hv => Option.some.inj (hvalue.symm.trans hv)
  simp only [List.mem_cons, Prod.mk.injEq, List.not_mem_nil, or_false] at hpublished
  rcases hpublished with ⟨rfl, rfl⟩ | ⟨rfl, rfl⟩ | ⟨rfl, rfl⟩ | ⟨rfl, rfl⟩ | ⟨rfl, rfl⟩ |
    ⟨rfl, rfl⟩ | ⟨rfl, rfl⟩ | ⟨rfl, rfl⟩
  · exact hrequired h.agent
  · exact hrequired h.rateLimitPerMin
  · rcases h.dailyCallLimit with hsome | ⟨hnone, -⟩
    · exact hrequired hsome
    · exact nomatch hvalue.symm.trans hnone
  · rcases h.dailyTokenBudget with hsome | ⟨hnone, -⟩
    · exact hrequired hsome
    · exact nomatch hvalue.symm.trans hnone
  · exact hrequired h.defaultClass
  · exact hrequired h.allowedTools
  · exact hrequired h.accessibleRooms
  · exact hrequired h.overrides

/-- A published grant is decoded to what it was, and any content that is decoded to a grant has the
fields of the published grant as they are there, as far as it has them. -/
theorem grant_round_trips (grant : CapabilityGrant) :
    CapabilityGrant.fromContent grant.toContent = .ok grant ∧
      ∀ content, CapabilityGrant.fromContent content = .ok grant →
        ∀ key published value, grant.toContent.get key = some published →
          content.get key = some value → value = published :=
  ⟨fromContent_eq_ok_iff.mpr (contentOf_toContent grant),
    fun _ h _ _ _ => (fromContent_eq_ok_iff.mp h).agrees⟩

end

end GaussMatrix.Agent
