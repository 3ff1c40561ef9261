import GaussMatrix.Fed.Delivery
import GaussMatrix.StateRes.Application
import GaussMatrix.StateRes.PowerLevels

/-!
# Authority after redaction

Redaction keeps in each state event what the auth rules read of it, so a verdict over the redacted
state is the verdict over the state, save for what printing does to the content: an infinite level,
which the rules pass over, comes back as zero.
-/

namespace GaussMatrix.StateRes

open Library Util Api Api.Events Fed

/-! ## One event -/

section

variable {sha256 : List UInt8 → List UInt8} {roomVersion : Nat} {p : Pdu} {c : Json}

/-- An event after redaction, read back as an event. -/
def redactedPdu (sha256 : List UInt8 → List UInt8) (roomVersion : Nat) (p : Pdu) :
    Except PduError Pdu :=
  Pdu.fromJson (redact (p.toJson sha256) roomVersion)

/-- What redaction keeps of a content. -/
def struckContent (roomVersion : Nat) (p : Pdu) : Json :=
  .object (redactedContent p.kind (some (embedded p.contentJson)) roomVersion)

/-- The event with its content struck, as it is read back. -/
def struck (roomVersion : Nat) (p : Pdu) : Pdu :=
  { p with
    originServerTs := throughDouble p.originServerTs
    depth := throughDouble p.depth
    contentJson := (struckContent roomVersion p).write }

-- stated for any timestamp and depth first, so that no step computes with doubles
theorem fields_with (p : Pdu) (ts depth : UInt64) (content : Str) :
    let q : Pdu := { p with originServerTs := ts, depth := depth, contentJson := content }
    q.kind = p.kind ∧ q.stateKey = p.stateKey ∧ q.sender = p.sender :=
  ⟨rfl, rfl, rfl⟩

theorem struck_fields (roomVersion : Nat) (p : Pdu) :
    (struck roomVersion p).kind = p.kind ∧ (struck roomVersion p).stateKey = p.stateKey ∧
      (struck roomVersion p).sender = p.sender :=
  fields_with p (throughDouble p.originServerTs) (throughDouble p.depth)
    (struckContent roomVersion p).write

@[simp] theorem struck_kind (roomVersion : Nat) (p : Pdu) : (struck roomVersion p).kind = p.kind :=
  (struck_fields roomVersion p).1

@[simp] theorem struck_stateKey (roomVersion : Nat) (p : Pdu) :
    (struck roomVersion p).stateKey = p.stateKey :=
  (struck_fields roomVersion p).2.1

@[simp] theorem struck_sender (roomVersion : Nat) (p : Pdu) :
    (struck roomVersion p).sender = p.sender :=
  (struck_fields roomVersion p).2.2

theorem redactedPdu_eq (sha256 : List UInt8 → List UInt8) (roomVersion : Nat) (p : Pdu) :
    redactedPdu sha256 roomVersion p = .ok (struck roomVersion p) := by
  obtain ⟨hid, hroom, hsender, hkind, hkey, htime, hdepth, hprev, hauth, hcontent⟩ :=
    @toJson_fields sha256 p
  obtain ⟨obj, hobj⟩ : ∃ obj, p.toJson sha256 = .object obj := ⟨_, rfl⟩
  rw [hobj] at hid hroom hsender hkind hkey htime hdepth hprev hauth hcontent
  have htype : ((obj.lookup "type".toList).bind Json.asStr).getD [] = p.kind := by
    have hget : obj.lookup "type".toList = some (.string p.kind) := hkind
    rw [hget]
    rfl
  have hredacted : redact (p.toJson sha256) roomVersion =
      .object (SortedList.insert "content".toList (struckContent roomVersion p)
        (keepKeys obj preservedTopKeys)) := by
    have hget : obj.lookup "content".toList = some (embedded p.contentJson) := hcontent
    rw [hobj, redact]
    show Json.object (SortedList.insert _ (.object (redactedContent
      (((obj.lookup "type".toList).bind Json.asStr).getD []) (obj.lookup "content".toList)
      roomVersion)) _) = _
    rw [htype, hget]
    rfl
  have hcontentKept : (redact (p.toJson sha256) roomVersion).get "content".toList =
      some (struckContent roomVersion p) := by
    rw [hredacted]
    exact (Json.lookup_insert _ _ _ _).trans (if_pos rfl)
  have hkept {key : Str} (hne : key ≠ "content".toList) (hmem : key ∈ preservedTopKeys)
      {o : Option Json} (h : (Json.object obj).get key = o) :
      (redact (p.toJson sha256) roomVersion).get key = o := by
    rw [hredacted]
    show (SortedList.insert _ _ _).lookup key = o
    rw [Json.lookup_insert, if_neg hne, lookup_keepKeys obj hmem]
    exact h
  exact fromJson_of_fields (hkept (by decide) (by decide) hid) (hkept (by decide) (by decide) hroom)
    (hkept (by decide) (by decide) hsender) (hkept (by decide) (by decide) hkind)
    (hkept (by decide) (by decide) hkey) (hkept (by decide) (by decide) htime)
    (hkept (by decide) (by decide) hdepth) (hkept (by decide) (by decide) hprev)
    (hkept (by decide) (by decide) hauth) hcontentKept

/-- What is kept comes from the content, in order. -/
theorem redactedContent_sub {kind : Str} (hordered : c.Ordered) :
    SortedList.Sorted (redactedContent kind (some c) roomVersion) ∧
      ∀ f ∈ redactedContent kind (some c) roomVersion, ∃ fields, c = .object fields ∧ f ∈ fields := by
  unfold redactedContent
  split
  · exact ⟨List.Pairwise.nil, fun _ h => absurd h List.not_mem_nil⟩
  · rename_i fields hfields
    have hobj : c = .object fields := by
      cases c <;> cases hfields
      rfl
    split
    · rw [hobj] at hordered
      have hsorted := of_decide_eq_true (Json.everywhere_object.mp hordered).1
      exact ⟨hsorted, fun f hf => ⟨fields, hobj, hf⟩⟩
    · refine ⟨sorted_keepKeys fields _, fun f hf => ⟨fields, hobj, ?_⟩⟩
      obtain ⟨front, back, hsplit, -⟩ := List.lookup_eq_some_iff.mp (mem_keepKeys hf).2
      rw [hsplit]
      exact List.mem_append_right front List.mem_cons_self

theorem parse_of_content (hc : p.content = some c) : Json.parse p.contentJson = .ok c := by
  rw [Pdu.content] at hc
  generalize Json.parse p.contentJson = parsed at *
  cases parsed with
  | error err => cases hc
  | ok v => exact congrArg Except.ok (Option.some.inj hc)

theorem embedded_of_content (hc : p.content = some c) : embedded p.contentJson = c := by
  rw [embedded, parse_of_content hc]
  rfl

/-- The content of a struck event reads back, whatever the content was. -/
theorem parse_struck (roomVersion : Nat) (p : Pdu) :
    Json.parse (struck roomVersion p).contentJson = .ok (struckContent roomVersion p).written := by
  have hordered := ordered_embedded p.contentJson
  have hnest := nesting_embedded_le p.contentJson
  obtain ⟨hsorted, hsub⟩ :=
    @redactedContent_sub roomVersion (embedded p.contentJson) p.kind hordered
  have hkeptOrdered : (struckContent roomVersion p).Ordered := by
    refine Json.everywhere_object.mpr ⟨decide_eq_true hsorted, fun f hf => ?_⟩
    obtain ⟨fields, hobj, hmem⟩ := hsub f hf
    rw [hobj] at hordered
    exact (Json.everywhere_object.mp hordered).2 f hmem
  have hkeptNest : (struckContent roomVersion p).nesting ≤ maxDepth := by
    refine Json.nestingFields_le_iff.mpr fun f hf => ?_
    obtain ⟨fields, hobj, hmem⟩ := hsub f hf
    rw [hobj] at hnest
    exact Json.nestingFields_le_iff.mp hnest f hmem
  show Json.parse (struckContent roomVersion p).write = _
  rw [Json.parse_write hkeptOrdered, if_pos hkeptNest]

/-- The content of a struck event, as the rules read it. -/
theorem content_struck (roomVersion : Nat) (p : Pdu) :
    (struck roomVersion p).content = some (struckContent roomVersion p).written := by
  rw [Pdu.content, parse_struck]
  rfl

/-- A key that redaction keeps. -/
def Keeps (roomVersion : Nat) (kind key : Str) : Prop :=
  key ∈ allowedContentKeys kind roomVersion ∨ kind = roomCreate ∧ 11 ≤ roomVersion

theorem get_struckContent (hc : p.content = some c) {key : Str} (h : Keeps roomVersion p.kind key) :
    (struckContent roomVersion p).get key = c.get key := by
  rw [struckContent, embedded_of_content hc]
  show (redactedContent p.kind (some c) roomVersion).lookup key = c.get key
  unfold redactedContent Json.get
  rw [Option.bind_some]
  cases hfields : c.asObject with
  | none => rfl
  | some fields =>
      show (if p.kind = roomCreate ∧ 11 ≤ roomVersion then fields
        else keepKeys fields (allowedContentKeys p.kind roomVersion)).lookup key = fields.lookup key
      split
      · rfl
      · rename_i hnot
        rcases h with h | h
        · exact lookup_keepKeys fields h
        · exact absurd h hnot

/-- Before version 11 a create event loses all but its creator. -/
theorem get_struckContent_create (hc : p.content = some c) (hkind : p.kind = roomCreate)
    (hversion : ¬ 11 ≤ roomVersion) {key : Str} (hkey : key ≠ "creator".toList) :
    (struckContent roomVersion p).get key = none := by
  rw [struckContent, embedded_of_content hc, hkind]
  show (redactedContent roomCreate (some c) roomVersion).lookup key = none
  unfold redactedContent
  rw [Option.bind_some]
  cases hfields : c.asObject with
  | none => rfl
  | some fields =>
      have hnot : ¬ (roomCreate = roomCreate ∧ 11 ≤ roomVersion) := fun h => hversion h.2
      have hallowed : allowedContentKeys roomCreate roomVersion = ["creator".toList] := by
        rw [allowedContentKeys, if_neg (by decide), if_pos rfl]
      show (if roomCreate = roomCreate ∧ 11 ≤ roomVersion then fields
        else keepKeys fields (allowedContentKeys roomCreate roomVersion)).lookup key = none
      rw [if_neg hnot, hallowed, Option.eq_none_iff_forall_ne_some]
      intro v hv
      obtain ⟨front, back, hsplit, -⟩ := List.lookup_eq_some_iff.mp hv
      have hmem : (key, v) ∈ keepKeys fields ["creator".toList] := by
        rw [hsplit]
        exact List.mem_append_right front List.mem_cons_self
      exact hkey (List.mem_singleton.mp (mem_keepKeys hmem).1)

theorem asStr_written (v : Json) : v.written.asStr = v.asStr := by
  cases v <;> rfl

/-- A string that redaction keeps is read as before. -/
theorem contentStr_struck (hc : p.content = some c) {key : String}
    (h : Keeps roomVersion p.kind key.toList) :
    (struck roomVersion p).contentStr key = p.contentStr key := by
  rw [Pdu.contentStr, Pdu.contentStr, content_struck, hc, Option.bind_some, Option.bind_some,
    Json.get_written, get_struckContent hc h]
  cases c.get key.toList with
  | none => rfl
  | some v => exact asStr_written v

end

/-! ## The view of a state -/

/-- The view whose power levels have been printed and read: an infinite level is zero. -/
def AuthView.printed (view : AuthView) : AuthView :=
  { view with powerLevels := view.powerLevels.map Json.written }

/-- Two views that answer the questions of the rules alike. -/
structure SameAnswers (view view' : AuthView) : Prop where
  create : view'.create.isSome = view.create.isSome
  creator : view'.creator = view.creator
  members : view'.members = view.members
  thirdPartyInvites : view'.thirdPartyInvites = view.thirdPartyInvites
  joinRule : view'.joinRule = view.joinRule
  inviteLevel : view'.inviteLevel = view.inviteLevel
  kickLevel : view'.kickLevel = view.kickLevel
  banLevel : view'.banLevel = view.banLevel
  redactLevel : view'.redactLevel = view.redactLevel
  eventLevel : ∀ kind isState, view'.eventLevel kind isState = view.eventLevel kind isState
  powerLevel : ∀ user, view'.powerLevel user = view.powerLevel user

section

variable {verifyB64 : VerifyB64} {event : Pdu} {view view' : AuthView}

theorem SameAnswers.membership (h : SameAnswers view view') (user : Str) :
    view'.membership user = view.membership user := by
  rw [AuthView.membership, AuthView.membership, h.members]

theorem SameAnswers.restrictedJoinAuthorised (h : SameAnswers view view') (event : Pdu) :
    restrictedJoinAuthorised event view' = restrictedJoinAuthorised event view := by
  unfold StateRes.restrictedJoinAuthorised
  simp only [h.membership, h.inviteLevel, h.powerLevel]

theorem SameAnswers.thirdPartyInviteIsValid (h : SameAnswers view view') (event : Pdu) :
    thirdPartyInviteIsValid verifyB64 event view' = thirdPartyInviteIsValid verifyB64 event view := by
  have hkey : view'.thirdPartyPublicKey = view.thirdPartyPublicKey := by
    funext token
    rw [AuthView.thirdPartyPublicKey, AuthView.thirdPartyPublicKey, h.thirdPartyInvites]
  unfold StateRes.thirdPartyInviteIsValid
  rw [hkey]

theorem SameAnswers.checkMemberAuth (h : SameAnswers view view') (event : Pdu) :
    checkMemberAuth verifyB64 event view' = checkMemberAuth verifyB64 event view := by
  unfold StateRes.checkMemberAuth
  simp only [h.membership, h.creator, h.joinRule, h.restrictedJoinAuthorised,
    h.thirdPartyInviteIsValid, h.powerLevel, h.inviteLevel, h.kickLevel, h.banLevel]

theorem SameAnswers.checkAuthView (h : SameAnswers view view') (event : Pdu) :
    checkAuthView verifyB64 event view' = checkAuthView verifyB64 event view := by
  have hcreate : (view'.create = none) = (view.create = none) := by
    rw [← Option.isNone_iff_eq_none, ← Option.isNone_iff_eq_none, ← Option.not_isSome,
      ← Option.not_isSome, h.create]
  unfold StateRes.checkAuthView
  simp only [h.create, hcreate, h.checkMemberAuth, h.membership, h.powerLevel, h.redactLevel,
    h.eventLevel]

end

/-! ## The view of a struck state -/

section

variable {roomVersion : Nat} {state : List Pdu}

theorem lastOfKind_struck (kind : Str) :
    lastOfKind kind (state.map (struck roomVersion)) =
      (lastOfKind kind state).map (struck roomVersion) := by
  have hkind : ((fun p : Pdu => decide (p.kind = kind)) ∘ struck roomVersion) =
      fun p => decide (p.kind = kind) := by
    funext p
    rw [Function.comp_apply, struck_kind]
  rw [lastOfKind, lastOfKind, List.filter_map, List.getLast?_map, hkind]

/-- The contents of a state parse. -/
def Readable (state : List Pdu) : Prop := ∀ p ∈ state, p.content.isSome

theorem Readable.content_struck (h : Readable state) {p : Pdu} (hp : p ∈ state) :
    ∃ c, p.content = some c ∧
      (struck roomVersion p).content = some (struckContent roomVersion p).written := by
  obtain ⟨c, hc⟩ := Option.isSome_iff_exists.mp (h p hp)
  exact ⟨c, hc, StateRes.content_struck roomVersion p⟩

theorem filterMap_memberEntry_struck (h : Readable state) :
    (state.map (struck roomVersion)).filterMap memberEntry = state.filterMap memberEntry := by
  rw [List.filterMap_map]
  apply List.filterMap_congr
  intro p hp
  have hcontent := @Readable.content_struck roomVersion state h p hp
  obtain ⟨c, hc, -⟩ := hcontent
  show memberEntry (struck roomVersion p) = memberEntry p
  by_cases hkind : p.kind = roomMember
  · have hkeeps : Keeps roomVersion p.kind "membership".toList := by
      left
      rw [hkind, allowedContentKeys, if_pos rfl]
      exact List.mem_cons_self
    have hread : (struck roomVersion p).contentStr "membership" = p.contentStr "membership" :=
      contentStr_struck hc hkeeps
    unfold memberEntry
    rw [hread, struck_kind, struck_stateKey]
  · have hkind' : (struck roomVersion p).kind ≠ roomMember := by
      rw [struck_kind]
      exact hkind
    rw [memberEntry_of_ne hkind, memberEntry_of_ne hkind']

theorem filterMap_inviteEntry_nil (h : ∀ p ∈ state, p.kind ≠ roomThirdPartyInvite) :
    state.filterMap inviteEntry = [] := by
  rw [List.filterMap_eq_nil_iff]
  intro p hp
  exact inviteEntry_of_ne (h p hp)

/-- A create event of the version that redaction goes by names the same creator. -/
theorem creatorOf_struck {p : Pdu} {c : Json} (hc : p.content = some c) (hkind : p.kind = roomCreate)
    (hversion : createRoomVersion p = roomVersion) :
    creatorOf (struck roomVersion p) = creatorOf p := by
  by_cases hnew : 11 ≤ roomVersion
  · have hread : (struck roomVersion p).contentStr "room_version" = p.contentStr "room_version" :=
      contentStr_struck hc (Or.inr ⟨hkind, hnew⟩)
    have hsame : createRoomVersion (struck roomVersion p) = createRoomVersion p := by
      rw [createRoomVersion, createRoomVersion, hread]
    rw [creatorOf, creatorOf, hsame, hversion, if_pos hnew, if_pos hnew, struck_sender]
  · have hgone : (struck roomVersion p).contentStr "room_version" = none := by
      rw [Pdu.contentStr, content_struck, Option.bind_some, Json.get_written,
        get_struckContent_create hc hkind hnew (by decide)]
      rfl
    have hdefault : createRoomVersion (struck roomVersion p) = 1 := by
      rw [createRoomVersion, hgone]
      rfl
    have hkeeps : Keeps roomVersion p.kind "creator".toList := by
      left
      rw [hkind, allowedContentKeys, if_neg (by decide), if_pos rfl]
      exact List.mem_cons_self
    have hread : (struck roomVersion p).contentStr "creator" = p.contentStr "creator" :=
      contentStr_struck hc hkeeps
    rw [creatorOf, creatorOf, hdefault, hversion, if_neg (by decide), if_neg hnew, hread]

/-- The keys of the power levels that redaction keeps. -/
def powerKeys : List Str :=
  ["ban", "events", "events_default", "kick", "redact", "state_default", "users", "users_default",
    "invite", "notifications"]

/-- Power levels that agree under every key kept. -/
def SameLevels : Option Json → Option Json → Prop
  | none, none => True
  | some pl, some pl' => ∀ key ∈ powerKeys, pl'.get key = pl.get key
  | _, _ => False

section

variable {view view' : AuthView}

theorem SameLevels.level (h : SameLevels view.powerLevels view'.powerLevels) {key : String}
    (hkey : key.toList ∈ powerKeys) (default : Int) :
    view'.level key default = view.level key default := by
  unfold AuthView.level
  generalize view.powerLevels = pl at *
  generalize view'.powerLevels = pl' at *
  match pl, pl', h with
  | none, none, _ => rfl
  | some pl, some pl', h => rw [Option.bind_some, Option.bind_some, h _ hkey]

theorem SameLevels.eventLevel (h : SameLevels view.powerLevels view'.powerLevels) (kind : Str)
    (isState : Bool) : view'.eventLevel kind isState = view.eventLevel kind isState := by
  have hstate : view'.stateDefault = view.stateDefault := h.level (by decide) _
  have hevents : view'.eventsDefault = view.eventsDefault := h.level (by decide) _
  unfold AuthView.eventLevel
  rw [hstate, hevents]
  generalize view.powerLevels = pl at *
  generalize view'.powerLevels = pl' at *
  match pl, pl', h with
  | none, none, _ => rfl
  | some pl, some pl', h => rw [Option.bind_some, Option.bind_some, h "events".toList (by decide)]

/-- The power of a user where there are power levels. -/
theorem AuthView.powerLevel_of_some {pl : Json} (h : view.powerLevels = some pl) (user : Str) :
    view.powerLevel user = (((pl.get "users").bind (·.get user)).bind Json.asI64).getD
      (((pl.get "users_default").bind Json.asI64).getD 0) := by
  simp only [AuthView.powerLevel, h]
  cases ((pl.get "users").bind (·.get user)).bind Json.asI64 <;> rfl

theorem SameLevels.powerLevel (h : SameLevels view.powerLevels view'.powerLevels)
    (hcreator : view'.creator = view.creator) (user : Str) :
    view'.powerLevel user = view.powerLevel user := by
  cases hpl : view.powerLevels with
  | none =>
      cases hpl' : view'.powerLevels with
      | none => simp only [AuthView.powerLevel, hpl, hpl', hcreator]
      | some pl' =>
          rw [hpl, hpl'] at h
          exact h.elim
  | some pl =>
      cases hpl' : view'.powerLevels with
      | none =>
          rw [hpl, hpl'] at h
          exact h.elim
      | some pl' =>
          rw [hpl, hpl'] at h
          rw [AuthView.powerLevel_of_some hpl', AuthView.powerLevel_of_some hpl,
            h "users".toList (by decide), h "users_default".toList (by decide)]

end

theorem joinRules_new (state : List Pdu) : (AuthView.new state).joinRules =
    (lastOfKind roomJoinRules state).bind Pdu.content := by
  rw [AuthView.new_eq]

theorem create_struck (state : List Pdu) (roomVersion : Nat) :
    (AuthView.new (state.map (struck roomVersion))).create =
      (AuthView.new state).create.map (struck roomVersion) := by
  rw [AuthView.new_eq, AuthView.new_eq, lastOfKind_struck]

/-- The creator is the same when the event is struck by the rules of the version it names. -/
theorem creator_struck (h : Readable state)
    (hversion : (lastOfKind roomCreate state).all fun c => createRoomVersion c = roomVersion) :
    (AuthView.new (state.map (struck roomVersion))).creator =
      (AuthView.new state).printed.creator := by
  show (AuthView.new (state.map (struck roomVersion))).create.bind creatorOf =
    (AuthView.new state).create.bind creatorOf
  rw [create_struck, AuthView.new_eq]
  cases hlast : lastOfKind roomCreate state with
  | none => rfl
  | some p =>
      obtain ⟨hmem, hkind⟩ := mem_of_lastOfKind hlast
      obtain ⟨c, hc⟩ := Option.isSome_iff_exists.mp (h p hmem)
      rw [hlast] at hversion
      exact creatorOf_struck hc hkind (of_decide_eq_true hversion)

theorem sameLevels_struck (h : Readable state) (roomVersion : Nat) :
    SameLevels (AuthView.new state).printed.powerLevels
      (AuthView.new (state.map (struck roomVersion))).powerLevels := by
  show SameLevels ((AuthView.new state).powerLevels.map Json.written) _
  rw [powerLevels_new, powerLevels_new, lastOfKind_struck]
  cases hlast : lastOfKind roomPowerLevels state with
  | none => exact trivial
  | some p =>
      obtain ⟨hmem, hkind⟩ := mem_of_lastOfKind hlast
      obtain ⟨c, hc⟩ := Option.isSome_iff_exists.mp (h p hmem)
      show SameLevels (p.content.map Json.written) ((struck roomVersion p).content)
      rw [content_struck, hc]
      intro key hkey
      have hkeeps : Keeps roomVersion p.kind key := by
        left
        rw [hkind]
        exact hkey
      rw [Json.get_written, Json.get_written, get_struckContent hc hkeeps]

theorem joinRule_struck (h : Readable state) (roomVersion : Nat) :
    (AuthView.new (state.map (struck roomVersion))).joinRule =
      (AuthView.new state).printed.joinRule := by
  show (((AuthView.new (state.map (struck roomVersion))).joinRules.bind _).getD _) =
    (((AuthView.new state).joinRules.bind _).getD _)
  rw [joinRules_new, joinRules_new, lastOfKind_struck]
  cases hlast : lastOfKind roomJoinRules state with
  | none => rfl
  | some p =>
      obtain ⟨hmem, hkind⟩ := mem_of_lastOfKind hlast
      obtain ⟨c, hc⟩ := Option.isSome_iff_exists.mp (h p hmem)
      -- every room version keeps the rule, the later ones the rooms it allows as well
      have hkeeps : Keeps roomVersion p.kind "join_rule".toList := by
        left
        rw [hkind]
        by_cases hnew : 8 ≤ roomVersion
        · rw [allowedContentKeys, if_neg (by decide), if_neg (by decide), if_pos ⟨rfl, hnew⟩]
          exact List.mem_cons_self
        · rw [allowedContentKeys, if_neg (by decide), if_neg (by decide),
            if_neg fun hand => hnew hand.2, if_pos rfl]
          exact List.mem_cons_self
      exact congrArg (fun rule => rule.getD "invite".toList) (contentStr_struck hc hkeeps)

/-- A struck state answers the rules as the state does with its levels printed. -/
theorem sameAnswers_struck (h : Readable state)
    (hinvites : ∀ p ∈ state, p.kind ≠ roomThirdPartyInvite)
    (hversion : (lastOfKind roomCreate state).all fun c => createRoomVersion c = roomVersion) :
    SameAnswers (AuthView.new state).printed (AuthView.new (state.map (struck roomVersion))) := by
  have hcreator := creator_struck h hversion
  have hlevels := sameLevels_struck h roomVersion
  constructor
  case create =>
    rw [create_struck, Option.isSome_map]
    rfl
  case creator => exact hcreator
  case members =>
    rw [AuthView.new_eq, AuthView.printed, AuthView.new_eq]
    exact filterMap_memberEntry_struck h
  case thirdPartyInvites =>
    have hstruck : ∀ p ∈ state.map (struck roomVersion), p.kind ≠ roomThirdPartyInvite := by
      intro q hq
      obtain ⟨p, hp, rfl⟩ := List.mem_map.mp hq
      rw [struck_kind]
      exact hinvites p hp
    rw [AuthView.new_eq, AuthView.printed, AuthView.new_eq]
    exact (filterMap_inviteEntry_nil hstruck).trans (filterMap_inviteEntry_nil hinvites).symm
  case joinRule => exact joinRule_struck h roomVersion
  case inviteLevel => exact hlevels.level (by decide) _
  case kickLevel => exact hlevels.level (by decide) _
  case banLevel => exact hlevels.level (by decide) _
  case redactLevel => exact hlevels.level (by decide) _
  case eventLevel => exact hlevels.eventLevel
  case powerLevel => exact hlevels.powerLevel hcreator

end

/-! ## The comparison of powers -/

/-- The comparison of powers that the rules make for a membership event, with the powers of `levels`;
none where they decide without one. -/
def memberPowerTest (verifyB64 : VerifyB64) (event : Pdu) (target : Str) (view levels : AuthView) :
    Option Bool :=
  let sender := event.sender.asStr
  let new := (event.contentStr "membership").getD []
  let targetCurrent := view.membership target
  if new = "join".toList then
    if target ≠ sender then none
    else if targetCurrent = some "ban".toList then none
    else if view.creator = some sender ∧ targetCurrent = none then none
    else if targetCurrent = some "invite".toList then none
    else if view.joinRule = "public".toList then none
    else if view.joinRule = "restricted".toList ∨ view.joinRule = "knock_restricted".toList then
      some (restrictedJoinAuthorised event levels)
    else none
  else if new = "invite".toList then
    if view.membership sender ≠ some "join".toList then none
    else if targetCurrent = some "join".toList ∨ targetCurrent = some "ban".toList then none
    else if thirdPartyInviteIsValid verifyB64 event view then none
    else some (levels.inviteLevel ≤ levels.powerLevel sender)
  else if new = "leave".toList then
    if target = sender then none
    else if view.membership sender ≠ some "join".toList then none
    else some (levels.kickLevel ≤ levels.powerLevel sender ∧
      levels.powerLevel target < levels.powerLevel sender)
  else if new = "ban".toList then
    if view.membership sender ≠ some "join".toList then none
    else some (levels.banLevel ≤ levels.powerLevel sender ∧
      levels.powerLevel target < levels.powerLevel sender)
  else none

/-- The comparison of powers that the rules make for an event. -/
def powerTest (verifyB64 : VerifyB64) (event : Pdu) (view levels : AuthView) : Option Bool :=
  let sender := event.sender.asStr
  if event.kind = roomCreate then none
  else if view.create = none then none
  else if event.kind = roomMember then
    event.stateKey.bind fun target => memberPowerTest verifyB64 event target view levels
  else if view.membership sender ≠ some "join".toList then none
  else if event.kind = roomRedaction then
    if redactionTargetsOwnDomain event then none
    else some (levels.redactLevel ≤ levels.powerLevel sender)
  else some (levels.eventLevel event.kind event.isState ≤ levels.powerLevel sender)

section

variable {verifyB64 : VerifyB64} {event : Pdu} {view : AuthView}

/-- Two choices by one condition agree when their branches do. -/
theorem ite_eq_iff_ite_eq {α β : Type} {C : Prop} [Decidable C] {a a' b b' : α} {t t' u u' : β}
    (hthen : C → (a' = a ↔ t' = t)) (helse : ¬ C → (b' = b ↔ u' = u)) :
    (if C then a' else b') = (if C then a else b) ↔
      (if C then t' else u') = if C then t else u := by
  split
  · rename_i h
    exact hthen h
  · rename_i h
    exact helse h

/-- Nothing depends on the powers here. -/
theorem eq_iff_eq_of_refl {α β : Type} {C : Prop} {a : α} {t : β} (_ : C) : a = a ↔ t = t :=
  iff_of_true rfl rfl

/-- Two refusals for want of power agree exactly when the comparisons do. -/
theorem refusal_eq_iff {P P' Q Q' : Prop} [Decidable P] [Decidable P'] [Decidable Q] [Decidable Q']
    (hQ : Q ↔ ¬ P) (hQ' : Q' ↔ ¬ P') {err : AuthError} :
    ((if P' then .error err else .ok () : Except AuthError Unit) =
        if P then .error err else .ok ()) ↔
      some (decide Q') = some (decide Q) := by
  by_cases h : P <;> by_cases h' : P' <;> simp [h, h', hQ, hQ']

theorem outranks_refusal_iff {a b c d e f : Int} : ((if a < b ∨ a ≤ c then
      .error .insufficientPower else .ok () : Except AuthError Unit) =
        if d < e ∨ d ≤ f then .error .insufficientPower else .ok ()) ↔
      some (decide (b ≤ a ∧ c < a)) = some (decide (e ≤ d ∧ f < d)) := by
  apply refusal_eq_iff
  · omega
  · omega

theorem checkMemberAuth_printed_iff : checkMemberAuth verifyB64 event view.printed =
      checkMemberAuth verifyB64 event view ↔
    (event.stateKey.bind fun target => memberPowerTest verifyB64 event target view view.printed) =
      event.stateKey.bind fun target => memberPowerTest verifyB64 event target view view := by
  cases htarget : event.stateKey with
  | none =>
      unfold checkMemberAuth
      rw [htarget]
      exact iff_of_true rfl rfl
  | some target =>
      rw [Option.bind_some, Option.bind_some]
      unfold checkMemberAuth memberPowerTest
      rw [htarget]
      -- the views differ in their powers only
      apply ite_eq_iff_ite_eq
      · intro _
        apply ite_eq_iff_ite_eq eq_iff_eq_of_refl
        intro _
        apply ite_eq_iff_ite_eq eq_iff_eq_of_refl
        intro _
        apply ite_eq_iff_ite_eq eq_iff_eq_of_refl
        intro _
        apply ite_eq_iff_ite_eq eq_iff_eq_of_refl
        intro _
        apply ite_eq_iff_ite_eq eq_iff_eq_of_refl
        intro _
        refine ite_eq_iff_ite_eq (fun _ => ?_) eq_iff_eq_of_refl
        cases restrictedJoinAuthorised event view.printed <;>
          cases restrictedJoinAuthorised event view <;> simp
      · intro _
        apply ite_eq_iff_ite_eq
        · intro _
          apply ite_eq_iff_ite_eq eq_iff_eq_of_refl
          intro _
          apply ite_eq_iff_ite_eq eq_iff_eq_of_refl
          intro _
          apply ite_eq_iff_ite_eq eq_iff_eq_of_refl
          intro _
          exact refusal_eq_iff not_lt.symm not_lt.symm
        · intro _
          apply ite_eq_iff_ite_eq
          · intro _
            apply ite_eq_iff_ite_eq eq_iff_eq_of_refl
            intro _
            apply ite_eq_iff_ite_eq eq_iff_eq_of_refl
            intro _
            exact outranks_refusal_iff
          · intro _
            apply ite_eq_iff_ite_eq
            · intro _
              apply ite_eq_iff_ite_eq eq_iff_eq_of_refl
              intro _
              exact outranks_refusal_iff
            · exact eq_iff_eq_of_refl

/-- The rules give the same verdict with the levels printed exactly when the comparison that they make
comes out the same. -/
theorem checkAuthView_printed_iff : checkAuthView verifyB64 event view.printed =
      checkAuthView verifyB64 event view ↔
    powerTest verifyB64 event view view.printed = powerTest verifyB64 event view view := by
  unfold checkAuthView powerTest
  apply ite_eq_iff_ite_eq eq_iff_eq_of_refl
  intro _
  apply ite_eq_iff_ite_eq eq_iff_eq_of_refl
  intro _
  apply ite_eq_iff_ite_eq fun _ => checkMemberAuth_printed_iff
  intro _
  apply ite_eq_iff_ite_eq eq_iff_eq_of_refl
  intro _
  apply ite_eq_iff_ite_eq
  · intro _
    apply ite_eq_iff_ite_eq eq_iff_eq_of_refl
    intro _
    by_cases h : view.redactLevel ≤ view.powerLevel event.sender.asStr <;>
      by_cases h' : view.printed.redactLevel ≤ view.printed.powerLevel event.sender.asStr <;>
      simp [h, h']
  · intro _
    exact refusal_eq_iff not_lt.symm not_lt.symm

end

/-- For a state whose contents parse and that has no third-party invite, and the version its create
event declares: redaction yields a state again, and over it an event gets the same verdict exactly
when the comparison of powers that the rules make for it comes out the same with the levels
printed. -/
theorem redacted_verdict_iff (sha256 : List UInt8 → List UInt8) (verifyB64 : VerifyB64) (event : Pdu)
    (state : List Pdu) (roomVersion : Nat) (hread : Readable state)
    (hinvites : ∀ p ∈ state, p.kind ≠ roomThirdPartyInvite)
    (hversion : (AuthView.new state).create.map createRoomVersion = some roomVersion) :
    ∃ state', state.mapM (redactedPdu sha256 roomVersion) = .ok state' ∧
      (checkAuth verifyB64 event state' = checkAuth verifyB64 event state ↔
        let view := AuthView.new state
        powerTest verifyB64 event view view.printed = powerTest verifyB64 event view view) := by
  have hstate : state.mapM (redactedPdu sha256 roomVersion) =
      .ok (state.map (struck roomVersion)) := by
    have hall : (state.map id).mapM (redactedPdu sha256 roomVersion) =
        .ok (state.map (struck roomVersion)) :=
      mapM_map_ok state fun p _ => redactedPdu_eq sha256 roomVersion p
    rwa [List.map_id] at hall
  have hcreate : (lastOfKind roomCreate state).all fun c => createRoomVersion c = roomVersion := by
    rw [AuthView.new_eq] at hversion
    obtain ⟨c, hc, hv⟩ := Option.map_eq_some_iff.mp hversion
    have hlast : lastOfKind roomCreate state = some c := hc
    rw [hlast, Option.all_some, decide_eq_true_iff]
    exact hv
  refine ⟨state.map (struck roomVersion), hstate, ?_⟩
  have hsame := sameAnswers_struck hread hinvites hcreate
  rw [checkAuth, checkAuth, hsame.checkAuthView]
  exact checkAuthView_printed_iff

/-! ## Finite levels -/

theorem finite_of_get {v w : Json} (h : v.Finite) {key : Str} (hget : v.get key = some w) :
    w.Finite := by
  obtain ⟨fields, hfields, hlookup⟩ := Option.bind_eq_some_iff.mp hget
  have hobj : v = .object fields := by
    cases v <;> cases hfields
    rfl
  obtain ⟨front, back, hsplit, -⟩ := List.lookup_eq_some_iff.mp hlookup
  rw [hobj] at h
  refine (Json.everywhere_object.mp h).2 (key, w) ?_
  rw [hsplit]
  exact List.mem_append_right front List.mem_cons_self

theorem asI64_written {v : Json} (h : v.Finite) : v.written.asI64 = v.asI64 := by
  cases v with
  | number n =>
      have hint : (Json.writtenNumber n).toInt? = n.toInt? := by
        cases n with
        | inf neg => cases h
        | nan => cases h
        | finite neg units fits =>
            by_cases hzero : units = 0
            · subst hzero
              simp only [Json.writtenNumber, F64.toInt?, Nat.zero_mod, Nat.zero_div, Int.natCast_zero,
                neg_zero, ite_self]
            · rw [Json.writtenNumber]
              simp [hzero]
      simp only [Json.written, Json.asI64, hint]
  | null => rfl
  | bool b => rfl
  | string s => rfl
  | array items => rfl
  | object fields => rfl

theorem get_written_asI64 {v : Json} (h : v.Finite) (key : Str) :
    (v.written.get key).bind Json.asI64 = (v.get key).bind Json.asI64 := by
  rw [Json.get_written]
  cases hget : v.get key with
  | none => rfl
  | some w => exact asI64_written (finite_of_get h hget)

theorem get_get_written_asI64 {v : Json} (h : v.Finite) (key key' : Str) :
    ((v.written.get key).bind (·.get key')).bind Json.asI64 =
      ((v.get key).bind (·.get key')).bind Json.asI64 := by
  rw [Json.get_written]
  cases hget : v.get key with
  | none => rfl
  | some w => exact get_written_asI64 (finite_of_get h hget) key'

/-- Finite levels are printed as they are. -/
theorem sameAnswers_printed {view : AuthView} (h : ∀ pl ∈ view.powerLevels, pl.Finite) :
    SameAnswers view view.printed := by
  -- printing keeps a level that is finite
  have hlevel (key : String) (default : Int) :
      view.printed.level key default = view.level key default := by
    unfold AuthView.level AuthView.printed
    cases hpl : view.powerLevels with
    | none => rfl
    | some pl => exact congrArg (Option.getD · default) (get_written_asI64 (h pl hpl) key)
  constructor
  case create => rfl
  case creator => rfl
  case members => rfl
  case thirdPartyInvites => rfl
  case joinRule => rfl
  case inviteLevel => exact hlevel "invite" _
  case kickLevel => exact hlevel "kick" _
  case banLevel => exact hlevel "ban" _
  case redactLevel => exact hlevel "redact" _
  case eventLevel =>
    intro kind isState
    have hstate : view.printed.stateDefault = view.stateDefault := hlevel "state_default" _
    have hevents : view.printed.eventsDefault = view.eventsDefault := hlevel "events_default" _
    unfold AuthView.eventLevel
    rw [hstate, hevents]
    unfold AuthView.printed
    cases hpl : view.powerLevels with
    | none => rfl
    | some pl =>
        rw [Option.map_some, Option.bind_some, Option.bind_some,
          get_get_written_asI64 (h pl hpl) "events".toList kind]
  case powerLevel =>
    intro user
    have hcreator : view.printed.creator = view.creator := rfl
    have hprinted : view.printed.powerLevels = view.powerLevels.map Json.written := rfl
    cases hpl : view.powerLevels with
    | none =>
        rw [hpl] at hprinted
        simp only [AuthView.powerLevel, hpl, hprinted, hcreator, Option.map_none]
    | some pl =>
        rw [hpl] at hprinted
        rw [AuthView.powerLevel_of_some hprinted, AuthView.powerLevel_of_some hpl,
          get_get_written_asI64 (h pl hpl) "users".toList user,
          get_written_asI64 (h pl hpl) "users_default".toList]

/-- With finite power levels every comparison of powers comes out the same with the levels printed. -/
theorem powerTest_printed_of_finite {verifyB64 : VerifyB64} {event : Pdu} {view : AuthView}
    (h : ∀ pl ∈ view.powerLevels, pl.Finite) :
    powerTest verifyB64 event view view.printed = powerTest verifyB64 event view view :=
  checkAuthView_printed_iff.mp ((sameAnswers_printed h).checkAuthView event)

namespace SampleRedaction

open Sample

/-- A room with these power levels. -/
def roomWith (levels : String) : List Pdu :=
  [create, aliceJoin, bobJoin, stateEvent 'p' alice roomPowerLevels [] 3 levels.toList]

/-- Alice at 10. -/
def finiteLevels : String := "\x7b\"users\":\x7b\"@a:x\":10\x7d\x7d"

/-- Alice at 10, and a level for bans that overflows. -/
def overflowingLevels : String := "\x7b\"ban\":1e400,\"users\":\x7b\"@a:x\":10\x7d\x7d"

/-- Alice bans Bob. -/
def banBob : Pdu := stateEvent 'n' alice roomMember "@b:x" 4 (content "membership" "ban")

end SampleRedaction

open Sample SampleRedaction in
/-- With finite levels a ban is judged the same after redaction. -/
theorem redacted_verdict_sample :
    ∃ state', (roomWith finiteLevels).mapM (redactedPdu id 1) = .ok state' ∧
      checkAuth noSignature banBob state' = checkAuth noSignature banBob (roomWith finiteLevels) := by
  have hread : Readable (roomWith finiteLevels) := by
    unfold Readable
    decide +kernel
  obtain ⟨state', hstate, hsame⟩ := redacted_verdict_iff id noSignature banBob
    (roomWith finiteLevels) 1 hread (by decide +kernel) (by decide +kernel)
  exact ⟨state', hstate, hsame.mpr (by decide +kernel)⟩

open Sample SampleRedaction in
/-- A level for bans that overflows keeps Alice from banning Bob, until the state is redacted. -/
theorem redaction_lets_alice_ban :
    (∀ p ∈ roomWith overflowingLevels, p.content.isSome ∧ p.kind ≠ roomThirdPartyInvite) ∧
      checkAuth noSignature banBob (roomWith overflowingLevels) = .error .insufficientPower ∧
      ((roomWith overflowingLevels).mapM (redactedPdu id 1)).toOption.map
        (checkAuth noSignature banBob) = some (.ok ()) := by
  decide +kernel

end GaussMatrix.StateRes
