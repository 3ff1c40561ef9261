import GaussMatrix.Api.Pdu
import GaussMatrix.Library.Walk

/-!
# Event authorization

Whether an event is allowed at all given a room's state.  The state is read once into an
`AuthView`; the rules then ask the view.  The Ed25519 check of a third-party invite is the
parameter `verifyB64`.
-/

namespace GaussMatrix.StateRes

open Library Util Api Api.Events

/-- Why an event was refused by the auth rules. -/
inductive AuthError
  | duplicateCreate
  | noCreateEvent
  | senderNotJoined
  | insufficientPower
  | membershipForbidden
  | missingAuthEvent
  deriving DecidableEq

/-- Verification of a base64 signature over a message under a base64 public key. -/
abbrev VerifyB64 := List UInt8 → Str → Str → Bool

def defaultStatePower : Int := 50
def defaultEventsPower : Int := 0
def defaultInvitePower : Int := 0
def defaultKickPower : Int := 50
def defaultBanPower : Int := 50
def defaultRedactPower : Int := 50

/-- The power a room creator holds before `m.room.power_levels` is set. -/
def creatorPower : Int := 100

/-! ## The view of a state -/

/-- A read-only view of a room's state for the auth checks. -/
@[ext] structure AuthView where
  create : Option Pdu
  powerLevels : Option Json
  joinRules : Option Json
  /-- `(user, membership)`, in the order of the state. -/
  members : List (Str × Str)
  /-- Outstanding third-party invites: `(token, advertised public key)`. -/
  thirdPartyInvites : List (Str × Str)

namespace AuthView

/-- The view of an empty state. -/
def blank : AuthView := ⟨none, none, none, [], []⟩

/-- What one state event adds to the view.  A create, power-levels or join-rules event replaces
the one before it, also when its content does not parse. -/
def visit (v : AuthView) (pdu : Pdu) : AuthView :=
  if pdu.kind = roomCreate then { v with create := some pdu }
  else if pdu.kind = roomPowerLevels then { v with powerLevels := pdu.content }
  else if pdu.kind = roomJoinRules then { v with joinRules := pdu.content }
  else if pdu.kind = roomThirdPartyInvite then
    match pdu.stateKey with
    | none => v
    | some token =>
        let publicKey := (pdu.contentStr "public_key").getD []
        { v with thirdPartyInvites := v.thirdPartyInvites ++ [(token, publicKey)] }
  else if pdu.kind = roomMember then
    match pdu.stateKey, pdu.contentStr "membership" with
    | some user, some membership => { v with members := v.members ++ [(user, membership)] }
    | _, _ => v
  else v

def new (state : List Pdu) : AuthView := state.foldl visit blank

/-- The public key advertised by an outstanding third-party invite with this token. -/
def thirdPartyPublicKey (v : AuthView) (token : Str) : Option Str := v.thirdPartyInvites.lookup token

def membership (v : AuthView) (user : Str) : Option Str := v.members.lookup user

/-- The join rule, `invite` when there is none. -/
def joinRule (v : AuthView) : Str :=
  (v.joinRules.bind (fun j => (j.get "join_rule").bind Json.asStr)).getD "invite".toList

/-- A power level by key, or `default`. -/
def level (v : AuthView) (key : Str) (default : Int) : Int :=
  (v.powerLevels.bind (fun pl => (pl.get key).bind Json.asI64)).getD default

def inviteLevel (v : AuthView) : Int := v.level "invite" defaultInvitePower
def kickLevel (v : AuthView) : Int := v.level "kick" defaultKickPower
def banLevel (v : AuthView) : Int := v.level "ban" defaultBanPower
def redactLevel (v : AuthView) : Int := v.level "redact" defaultRedactPower
def stateDefault (v : AuthView) : Int := v.level "state_default" defaultStatePower
def eventsDefault (v : AuthView) : Int := v.level "events_default" defaultEventsPower

/-- The power required for an event of `kind`: an override, else the state or events default. -/
def eventLevel (v : AuthView) (kind : Str) (isState : Bool) : Int :=
  match v.powerLevels.bind (fun pl => ((pl.get "events").bind (·.get kind)).bind Json.asI64) with
  | some level => level
  | none => if isState then v.stateDefault else v.eventsDefault

end AuthView

/-- A `u8` as `str::parse` reads it: digits after an optional plus sign, at most 255. -/
def parseU8 (s : Str) : Option Nat :=
  let digits := match s with
    | '+' :: cs => cs
    | cs => cs
  (parseDecimal digits).filter (· ≤ 255)

/-- The room version a create event declares, `1` when absent or unrecognised. -/
def createRoomVersion (create : Pdu) : Nat :=
  ((create.contentStr "room_version").bind parseU8).getD 1

/-- The creator a create event names: from room version 11 its sender, before it a content field. -/
def creatorOf (create : Pdu) : Option Str :=
  if 11 ≤ createRoomVersion create then some create.sender.asStr else create.contentStr "creator"

namespace AuthView

def creator (v : AuthView) : Option Str := v.create.bind creatorOf

/-- The power level of a user; before power levels exist, the creator is all-powerful. -/
def powerLevel (v : AuthView) (user : Str) : Int :=
  match v.powerLevels with
  | some pl =>
      match ((pl.get "users").bind (·.get user)).bind Json.asI64 with
      | some level => level
      | none => ((pl.get "users_default").bind Json.asI64).getD 0
  | none => if v.creator = some user then creatorPower else 0

end AuthView

/-! ## The rules -/

/-- Whether a redaction targets an event of the redactor's own server: the domains after the first
colon of the redacted id and of the sender agree. -/
def redactionTargetsOwnDomain (event : Pdu) : Bool :=
  match (event.contentStr "redacts").bind (splitOnce ':') with
  | none => false
  | some (_, targetDomain) =>
      match splitOnce ':' event.sender.asStr with
      | none => false
      | some (_, senderDomain) => senderDomain = targetDomain

/-- Whether a join into a restricted room is authorised: the user it names is joined and holds the
invite power. -/
def restrictedJoinAuthorised (event : Pdu) (view : AuthView) : Bool :=
  match event.contentStr "join_authorised_via_users_server" with
  | none => false
  | some authoriser =>
      view.membership authoriser = some "join".toList ∧
        view.inviteLevel ≤ view.powerLevel authoriser

/-- The object without its `signatures`, whose text the signatures are over. -/
def withoutSignatures : Json → Json
  | .object fields => .object (SortedList.erase "signatures".toList fields)
  | j => j

/-- Whether an invite redeems a third-party invite: its `signed` block names a token the room has
an outstanding invite for, and carries a signature that verifies under the advertised key. -/
def thirdPartyInviteIsValid (verifyB64 : VerifyB64) (event : Pdu) (view : AuthView) : Bool :=
  match event.content.bind (fun c => (c.get "third_party_invite").bind (·.get "signed")) with
  | none => false
  | some signed =>
      match ((signed.get "token").bind Json.asStr).bind view.thirdPartyPublicKey with
      | none => false
      | some publicKey =>
          let bytes := utf8Bytes (withoutSignatures signed).write
          match (signed.get "signatures").bind Json.asObject with
          | none => false
          | some signatures =>
              signatures.any fun byKey =>
                match byKey.2.asObject with
                | none => false
                | some keys => keys.any fun sig =>
                    match sig.2.asStr with
                    | none => false
                    | some s => verifyB64 bytes s publicKey

/-- Authorize an `m.room.member` event against the membership state machine. -/
def checkMemberAuth (verifyB64 : VerifyB64) (event : Pdu) (view : AuthView) :
    Except AuthError Unit :=
  let sender := event.sender.asStr
  match event.stateKey with
  | none => .error .membershipForbidden
  | some target =>
      let new := (event.contentStr "membership").getD []
      let targetCurrent := view.membership target
      if new = "join".toList then
        if target ≠ sender then .error .membershipForbidden
        else if targetCurrent = some "ban".toList then .error .membershipForbidden
        else if view.creator = some sender ∧ targetCurrent = none then .ok ()
        else if targetCurrent = some "invite".toList then .ok ()
        else if view.joinRule = "public".toList then .ok ()
        else if view.joinRule = "restricted".toList ∨ view.joinRule = "knock_restricted".toList then
          if restrictedJoinAuthorised event view then .ok () else .error .membershipForbidden
        else .error .membershipForbidden
      else if new = "invite".toList then
        if view.membership sender ≠ some "join".toList then .error .senderNotJoined
        else if targetCurrent = some "join".toList ∨ targetCurrent = some "ban".toList then
          .error .membershipForbidden
        else if thirdPartyInviteIsValid verifyB64 event view then .ok ()
        else if view.powerLevel sender < view.inviteLevel then .error .insufficientPower
        else .ok ()
      else if new = "leave".toList then
        -- leaving or declining an invite for oneself is always allowed
        if target = sender then .ok ()
        else if view.membership sender ≠ some "join".toList then .error .senderNotJoined
        else if view.powerLevel sender < view.kickLevel ∨
            view.powerLevel sender ≤ view.powerLevel target then .error .insufficientPower
        else .ok ()
      else if new = "ban".toList then
        if view.membership sender ≠ some "join".toList then .error .senderNotJoined
        else if view.powerLevel sender < view.banLevel ∨
            view.powerLevel sender ≤ view.powerLevel target then .error .insufficientPower
        else .ok ()
      else if new = "knock".toList then
        if target = sender ∧
            (view.joinRule = "knock".toList ∨ view.joinRule = "knock_restricted".toList) ∧
            ¬ (targetCurrent = some "join".toList ∨ targetCurrent = some "ban".toList) then .ok ()
        else .error .membershipForbidden
      else .error .membershipForbidden

/-- The auth rules over the view of a state. -/
def checkAuthView (verifyB64 : VerifyB64) (event : Pdu) (view : AuthView) : Except AuthError Unit :=
  if event.kind = roomCreate then
    if view.create.isSome then .error .duplicateCreate else .ok ()
  else if view.create = none then .error .noCreateEvent
  else if event.kind = roomMember then checkMemberAuth verifyB64 event view
  else
    let sender := event.sender.asStr
    if view.membership sender ≠ some "join".toList then .error .senderNotJoined
    else if event.kind = roomRedaction then
      if redactionTargetsOwnDomain event then .ok ()
      else if view.redactLevel ≤ view.powerLevel sender then .ok ()
      else .error .insufficientPower
    else if view.powerLevel sender < view.eventLevel event.kind event.isState then
      .error .insufficientPower
    else .ok ()

/-- Check whether `event` is authorized given a room's current `state` events. -/
def checkAuth (verifyB64 : VerifyB64) (event : Pdu) (state : List Pdu) : Except AuthError Unit :=
  checkAuthView verifyB64 event (AuthView.new state)

/-! ## Auth-chain validation -/

/-- The auth events of an id, none when `byId` does not have it. -/
def authParents (byId : PduMap) (id : EventId) : List EventId :=
  match byId.get id with
  | some pdu => pdu.authEvents
  | none => []

/-- The ids reachable from `roots` by `auth_events`, roots included.  An id is expanded once, so
the pushes are bounded by the roots and all the citations in `byId`. -/
def authChain (roots : List EventId) (byId : PduMap) : List EventId :=
  reach (authParents byId)
    (roots.length + (byId.values.map fun pdu => pdu.authEvents.length).sum + 1) roots

theorem authParents_of_not_mem {byId : PduMap} {id : EventId} (h : id ∉ byId.keys) :
    authParents byId id = [] := by
  rw [SortedMap.mem_keys_iff, not_exists] at h
  rw [authParents, Option.eq_none_iff_forall_ne_some.mpr h]

/-- Every citation of `byId` is pushed at most once. -/
theorem length_authParents_keys (byId : PduMap) :
    byId.keys.map (fun a => (authParents byId a).length) =
      byId.values.map (fun pdu => pdu.authEvents.length) := by
  rw [SortedMap.keys, SortedMap.values, List.map_map, List.map_map]
  apply List.map_congr_left
  rintro ⟨a, pdu⟩ he
  simp [authParents, (byId.mem_entries_iff a pdu).mp he]

theorem mem_authChain_iff {roots : List EventId} {byId : PduMap} {id : EventId} :
    id ∈ authChain roots byId ↔
      ∃ root ∈ roots, Relation.ReflTransGen (fun a b => b ∈ authParents byId a) root id := by
  refine mem_reach_iff byId.nodup_keys (fun _ => authParents_of_not_mem) ?_ id
  rw [length_authParents_keys]
  exact Nat.lt_succ_self _

/-- The events `event` cites directly, those that `byId` has. -/
def citedEvents (event : Pdu) (byId : PduMap) : List Pdu := event.authEvents.filterMap byId.get

/-- Authorize `event` against the state its own `auth_events` form, not the room's current state;
its whole auth chain must be present, and a non-create event's chain must reach a create event. -/
def checkAuthWithChain (verifyB64 : VerifyB64) (event : Pdu) (byId : PduMap) :
    Except AuthError Unit :=
  let chain := authChain event.authEvents byId
  if chain.any (fun id => (byId.get id).isNone) then .error .missingAuthEvent
  else if event.kind ≠ roomCreate ∧
      ¬ ((chain.filterMap byId.get).any (fun p => p.kind = roomCreate)) then .error .noCreateEvent
  else checkAuth verifyB64 event (citedEvents event byId)

end GaussMatrix.StateRes
