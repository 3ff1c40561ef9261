import GaussMatrix.Http.Service
import GaussMatrix.Library.Changes
import GaussMatrix.Svc.MembershipAutomaton

/-!
# Where events and tokens come from

No request but a login changes the sessions, and none changes the accounts.  So an event that turns up
in a run came with the signed transaction of another server, or its sender logged in before with the
password of the account and the request that appended it carried the token of that login.
-/

namespace GaussMatrix.Http.Ingress

open Library Util Api Api.Events StateRes Svc Fed RoomService

section

variable {env : ServerEnv} {s t : Data} {call : ServiceCall} {room : RoomId} {p : Pdu} {user : UserId}
  {token : Str} {req : Request} {clock : Clock}

/-! ## Families that calls leave alone -/

theorem callStep_of_ne {cf : Cf} (hkeys : cf ≠ .deviceKeys) (hotk : cf ≠ .deviceOtk) (s : Data)
    (call : DeviceKeyStore.Call) : DeviceKeyStore.callStep s call cf = s cf := by
  cases call with
  | storeDeviceKeys user deviceId keys => exact Store.put_of_ne _ hkeys _ _
  | storeOneTimeKeys user deviceId keys =>
      exact (DeviceKeyStore.storeOneTimeKeys_data keys s user deviceId).1 cf hotk
  | claimOneTimeKey user deviceId algorithm =>
      show (claimOneTimeKey s user deviceId algorithm).2 cf = s cf
      unfold claimOneTimeKey
      split
      · rfl
      · split
        · rfl
        · exact if_neg hotk

/-- The families that the operations of rooms, presence, receipts and typing write. -/
def roomFamilies : List Cf :=
  [.events, .roomState, .eventStream, .transactions, .deviceKeys, .presence, .receipts, .typing]

/-- The families that the calls of the service write. -/
def serviceFamilies : List Cf := roomFamilies ++ [.deviceOtk, .crossSigning]

theorem ephemeralStep_of_ne {cf : Cf} (hcf : cf ∉ roomFamilies) (s : Data) (op : EphemeralOp) :
    ephemeralStep env.toEnv s op cf = s cf := by
  simp only [roomFamilies, List.mem_cons, List.not_mem_nil, or_false, not_or] at hcf
  obtain ⟨hevents, hstate, hstream, htxn, hkeys, hpresence, hreceipts, htyping⟩ := hcf
  cases op with
  | server op =>
      cases op with
      | room op => exact step_of_ne ⟨hevents, hstate, hstream⟩ htxn hkeys s op
      | setPresence user presence statusMsg => exact Store.put_of_ne _ hpresence _ _
  | setReadReceipt user room eventId now => exact setReadReceipt_of_ne hreceipts s user room eventId now
  | setTyping user room typing timeoutMs now =>
      exact setTyping_of_ne htyping s user room typing timeoutMs now

theorem serviceStep_of_ne {cf : Cf} (hcf : cf ∉ serviceFamilies) (s : Data) (call : ServiceCall) :
    serviceStep env s call cf = s cf := by
  rw [serviceFamilies, List.mem_append, not_or] at hcf
  obtain ⟨hroom, hothers⟩ := hcf
  simp only [List.mem_cons, List.not_mem_nil, or_false, not_or] at hothers
  obtain ⟨hotk, hcross⟩ := hothers
  cases call with
  | ephemeral op => exact ephemeralStep_of_ne hroom s op
  | keys call =>
      have hkeys : cf ≠ .deviceKeys := by
        rintro rfl
        exact hroom (by decide)
      exact callStep_of_ne hkeys hotk s call
  | storeCrossSigningKey user usage keyJson => exact Store.put_of_ne _ hcross _ _

theorem run_serviceStep_of_ne {cf : Cf} (hcf : cf ∉ serviceFamilies) (calls : List ServiceCall) :
    run (serviceStep env) s calls cf = s cf := by
  induction calls generalizing s with
  | nil => rfl
  | cons call calls ih => rw [run_cons, ih, serviceStep_of_ne hcf]

theorem Served.data_of_ne {cf : Cf} (hcf : cf ∉ serviceFamilies) {allowed : ServiceCall → Prop}
    {r : Response × Data} (h : Served env s allowed r) : r.2 cf = s cf := by
  cases h with
  | refused _ => rfl
  | partly _ _ _ => exact run_serviceStep_of_ne hcf _
  | answered _ _ => exact run_serviceStep_of_ne hcf _

/-- A request changes no other family, but for the session of a login. -/
theorem requestStep_of_ne {cf : Cf} (hcf : cf ∉ serviceFamilies) (htokens : cf ≠ .accessTokens)
    (s : Data) (x : Request × Clock) : requestStep env s x cf = s cf := by
  unfold requestStep
  rcases handle_cases env s x.1 x.2 with hlogin | hserved
  · rw [hlogin]
    rcases serveLogin_cases env s x.1.body with ⟨-, hsame⟩ | ⟨_, _, _, _, _, -, -, -, -, -, hdone⟩
    · rw [hsame]
    · rw [hdone]
      exact Store.put_of_ne _ htokens _ _
  · exact hserved.data_of_ne hcf

/-! ## Logins -/

/-- The request logs the user in: it answers with the token, and its password is the one of the
account. -/
structure LogsIn (env : ServerEnv) (accounts : Data) (x : Data × (Request × Clock)) (user : UserId)
    (token : Str) : Prop where
  answer : (handle env x.1 x.2.1 x.2.2).1 = .jsonOk (loginResponse ⟨user, token⟩)
  credentials : ∃ body parsed name password, x.2.1.body = some body ∧ Json.parse body = .ok parsed ∧
    loginUser parsed = some name ∧ (parsed.get "password").bind Json.asStr = some password ∧
      Credentials env.accountHash env.serverName accounts user name password

/-- A token that comes to authenticate a user is the answer to the user's login. -/
theorem logsIn_of_userFor {x : Request × Clock} (hbefore : SessionStore.userFor s token ≠ some user)
    (hafter : SessionStore.userFor (requestStep env s x) token = some user) :
    LogsIn env s (s, x) user token := by
  unfold requestStep at hafter
  rcases handle_cases env s x.1 x.2 with hlogin | hserved
  · rw [hlogin] at hafter
    rcases serveLogin_cases env s x.1.body with ⟨-, hsame⟩ |
      ⟨caller, text, parsed, name, password, hbody, hparse, hname, hpassword, hcredentials, hdone⟩
    · rw [hsame] at hafter
      exact absurd hafter hbefore
    · rw [hdone, SessionStore.userFor, Store.get_put] at hafter
      split at hafter
      · rename_i htoken
        simp only [Record.asText, Option.bind_some, UserId.parse_asStr, Option.some.injEq] at hafter
        rw [← hafter, htoken]
        refine ⟨?_, text, parsed, name, password, hbody, hparse, hname, hpassword, hcredentials⟩
        show (handle env s x.1 x.2).1 = _
        rw [hlogin, hdone]
      · exact absurd hafter hbefore
  · rw [SessionStore.userFor, Store.get, hserved.data_of_ne (by decide)] at hafter
    exact absurd hafter hbefore

/-! ## Events -/

theorem mem_timeline_of_append {q : Pdu} (h : p ∈ timeline (append s q) room) :
    p ∈ timeline s room ∨ p = q := by
  obtain ⟨e, he, hdecode⟩ := List.mem_filterMap.mp h
  obtain ⟨hscan, hprefix⟩ := List.mem_filter.mp he
  obtain ⟨key, value⟩ := e
  have hget : (append s q).get .events key = some value :=
    ((append s q .events).mem_entries_iff _ _).mp hscan
  rw [Store.get, append_events, SortedMap.get_insert] at hget
  split at hget
  · -- the entry is the one written
    obtain rfl := Option.some.inj hget
    exact .inr (Option.some.inj hdecode).symm
  · have hold : (key, value) ∈ s.scan .events := ((s .events).mem_entries_iff _ _).mpr hget
    exact .inl (List.mem_filterMap.mpr ⟨_, List.mem_filter.mpr ⟨hold, hprefix⟩, hdecode⟩)

theorem mem_timeline_of_appends {qs : List Pdu} (h : p ∈ timeline (qs.foldl append s) room) :
    p ∈ timeline s room ∨ p ∈ qs := by
  induction qs generalizing s with
  | nil => exact .inl h
  | cons q qs ih =>
      rcases ih h with h | h
      · rcases mem_timeline_of_append h with h | rfl
        · exact .inl h
        · exact .inr List.mem_cons_self
      · exact .inr (List.mem_cons_of_mem _ h)

/-- An operation appends events of its caller, or those of a transaction. -/
theorem author_of_appended {env : Env} {op : Op} (h : p ∈ appended env s op) :
    opActor op = some p.sender ∨ ∃ txn, op = .receiveTransaction txn ∧ p ∈ transactionPdus txn := by
  cases op with
  | createRoom creator name topic now =>
      have hcreated : p ∈ createdEvents env s creator name topic now := h
      rw [createdEvents] at hcreated
      split at hcreated
      · cases hcreated
      · obtain ⟨-, hsender, -⟩ := built_of_mem_initialEvents hcreated
        exact .inl (by rw [hsender]; rfl)
  | changeMembership actor room target membership now =>
      obtain ⟨q, hq, hp⟩ := Option.bind_eq_some_iff.mp (Option.mem_toList.mp h)
      obtain ⟨rfl, -⟩ := authorized_eq_some_iff.mp hp
      exact .inl (by rw [(membershipEvent_fields hq).2.1]; rfl)
  | sendMessage sender room eventType txnId content now =>
      rw [appended] at h
      split at h
      · cases h
      · obtain ⟨q, hq, hp⟩ := Option.bind_eq_some_iff.mp (Option.mem_toList.mp h)
        obtain ⟨rfl, -⟩ := authorized_eq_some_iff.mp hp
        exact .inl (by rw [(messageEvent_fields hq).2.1]; rfl)
  | receiveTransaction txn =>
      obtain ⟨x, hx, rfl⟩ := List.mem_map.mp h
      exact .inr ⟨txn, rfl, mem_of_mem_trace (List.mem_of_mem_filter hx)⟩

/-- The calls that do not write room history keep every timeline. -/
theorem timeline_serviceStep (hop : ∀ op, call ≠ roomCall op) :
    timeline (serviceStep env s call) room = timeline s room := by
  have hsame : serviceStep env s call .events = s .events := by
    cases call with
    | ephemeral op =>
        cases op with
        | server op =>
            cases op with
            | room op => exact absurd rfl (hop op)
            | setPresence user presence statusMsg => rfl
        | setReadReceipt user room eventId now =>
            exact setReadReceipt_of_ne (by decide) s user room eventId now
        | setTyping user room typing timeoutMs now =>
            exact setTyping_of_ne (by decide) s user room typing timeoutMs now
    | keys call => exact callStep_of_ne (by decide) (by decide) s call
    | storeCrossSigningKey user usage keyJson => rfl
  unfold timeline Store.scan
  rw [hsame]

/-- An event that calls bring is appended by one of them. -/
theorem appended_of_calls {calls : List ServiceCall}
    (h : p ∈ timeline (run (serviceStep env) s calls) room) : p ∈ timeline s room ∨
      ∃ t op, roomCall op ∈ calls ∧ p ∈ appended env.toEnv t op := by
  induction calls generalizing s with
  | nil => exact .inl h
  | cons call calls ih =>
      rcases ih h with h | ⟨t, op, hmem, hnew⟩
      · by_cases hop : ∃ op, call = roomCall op
        · obtain ⟨op, rfl⟩ := hop
          have hstep : p ∈ timeline (step env.toEnv s op) room := h
          rw [(step_sameRooms env.toEnv s op).timeline] at hstep
          rcases mem_timeline_of_appends hstep with hold | hnew
          · exact .inl hold
          · exact .inr ⟨s, op, List.mem_cons_self, hnew⟩
        · rw [timeline_serviceStep fun op hcall => hop ⟨op, hcall⟩] at h
          exact .inl h
      · exact .inr ⟨t, op, List.mem_cons_of_mem _ hmem, hnew⟩

/-- An event that a request brings is appended by an operation that the request may call. -/
theorem appended_of_request {x : Request × Clock} (h : p ∈ timeline (requestStep env s x) room) :
    p ∈ timeline s room ∨
      ∃ t op, Permitted env s x.1 x.2.gate (roomCall op) ∧ p ∈ appended env.toEnv t op := by
  have hcalls : ∀ calls : List ServiceCall, (∀ c ∈ calls, Permitted env s x.1 x.2.gate c) →
      p ∈ timeline (run (serviceStep env) s calls) room → p ∈ timeline s room ∨
        ∃ t op, Permitted env s x.1 x.2.gate (roomCall op) ∧ p ∈ appended env.toEnv t op := by
    intro calls hpermitted hmem
    rcases appended_of_calls hmem with hold | ⟨t, op, hop, hnew⟩
    · exact .inl hold
    · exact .inr ⟨t, op, hpermitted _ hop, hnew⟩
  unfold requestStep at h
  rcases handle_cases env s x.1 x.2 with hlogin | hserved
  · -- a login writes a session only
    rw [hlogin] at h
    have hsame : (serveLogin env s x.1.body).2 .events = s .events := by
      rcases serveLogin_cases env s x.1.body with ⟨-, hsame⟩ | ⟨_, _, _, _, _, -, -, -, -, -, hdone⟩
      · rw [hsame]
      · rw [hdone]
        rfl
    rw [timeline, Store.scan, hsame] at h
    exact .inl h
  · generalize handle env s x.1 x.2 = r at hserved h
    cases hserved with
    | refused _ => exact .inl h
    | partly _ _ hallowed => exact hcalls _ hallowed h
    | answered _ hallowed => exact hcalls _ hallowed h

/-- The request brings the event in the transaction of another server that signed it. -/
structure BringsSigned (env : ServerEnv) (x : Data × (Request × Clock)) (p : Pdu) : Prop where
  verified : verifyFederationRequest env.toEnv x.1 x.2.1.federation x.2.2.gate = true
  carried : ∃ txn, Json.parse (x.2.1.body.getD []) = .ok txn ∧ p ∈ transactionPdus txn

/-- A request that brings an event is its sender's, or brings it signed. -/
theorem author_of_request {x : Request × Clock} (hbefore : p ∉ timeline s room)
    (hafter : p ∈ timeline (requestStep env s x) room) :
    requester s x.1.toRequest = some p.sender ∨ BringsSigned env (s, x) p := by
  rcases appended_of_request hafter with hold | ⟨t, op, hpermitted, hnew⟩
  · exact absurd hold hbefore
  cases hpermitted with
  | acting hreq hactor hjson =>
      rcases author_of_appended hnew with hauthor | ⟨txn, rfl, -⟩
      · have hsame : opActor op = some _ := hactor
        rw [hauthor] at hsame
        exact .inl (hreq.trans hsame.symm)
      · cases hactor
  | transaction hverified hparse =>
      rcases author_of_appended hnew with hauthor | ⟨txn, heq, htxn⟩
      · cases hauthor
      · cases heq
        exact .inr ⟨hverified, _, hparse, htxn⟩

/-- On a server that nobody is logged in to, the user of a request logged in earlier in the run, with the
password of the account, and the request carries the token of that login. -/
theorem login_before (hfresh : ∀ token, SessionStore.userFor s token = none)
    {xs : List (Request × Clock)} {x : Data × (Request × Clock)}
    (hmem : x ∈ trace (requestStep env) s xs) (hreq : requester x.1 x.2.1.toRequest = some user) :
    ∃ login token, [login, x].Sublist (trace (requestStep env) s xs) ∧
      LogsIn env s login user token ∧
      accessToken x.2.1.authorization x.2.1.target = some token := by
  obtain ⟨token, htoken, huser⟩ := Option.bind_eq_some_iff.mp hreq
  -- the token authenticates nobody at first, so a step before the request brings it about
  have hnobody : ¬ SessionStore.userFor s token = some user := by
    simp [hfresh token]
  obtain ⟨login, hnot, hthen, hsub⟩ := exists_step_of_change
    (P := fun t => SessionStore.userFor t token = some user) hmem hnobody huser
  have hlogin := logsIn_of_userFor hnot hthen
  have haccounts : login.1 .accounts = s .accounts := by
    have hlogin' : (login.1, login.2) ∈ trace (requestStep env) s xs :=
      hsub.subset List.mem_cons_self
    obtain ⟨before, after, -, hstate⟩ := exists_prefix_of_mem_trace hlogin'
    rw [hstate]
    exact run_of_step (fun t x ht => (requestStep_of_ne (by decide) (by decide) t x).trans ht) rfl before
  obtain ⟨body, parsed, name, password, hbody, hparse, hname, hpassword, hcredentials⟩ :=
    hlogin.credentials
  exact ⟨login, token, hsub, ⟨hlogin.answer, body, parsed, name, password, hbody, hparse, hname,
    hpassword, hcredentials.congr haccounts.symm⟩, htoken⟩

end

/-- Over every run of requests on a server that nobody is logged in to, an event that turns up was
signed by another server, or its sender logged in earlier in the run with the password of the account
and the request that brought it carried the token of that login. -/
theorem event_author_logged_in (env : ServerEnv) (s : Data)
    (hfresh : ∀ token, SessionStore.userFor s token = none) (xs : List (Request × Clock))
    (room : RoomId) (p : Pdu) (hold : p ∉ timeline s room)
    (hnew : p ∈ timeline (run (requestStep env) s xs) room) :
    (∃ x ∈ trace (requestStep env) s xs, BringsSigned env x p) ∨
    ∃ login request token, [login, request].Sublist (trace (requestStep env) s xs) ∧
      LogsIn env s login p.sender token ∧
      accessToken request.2.1.authorization request.2.1.target = some token := by
  obtain ⟨request, hmem, hbefore, hafter⟩ :=
    exists_change_of_run (P := fun t => p ∈ timeline t room) hold hnew
  rcases author_of_request hbefore hafter with hreq | hsigned
  · obtain ⟨login, token, hsub, hlogin, htoken⟩ := login_before hfresh hmem hreq
    exact .inr ⟨login, request, token, hsub, hlogin, htoken⟩
  · exact .inl ⟨request, hmem, hsigned⟩

namespace SampleRequests

def alice : UserId := ⟨"@a:x", valid_alice⟩

def env : ServerEnv where
  sha256 := fun _ => List.Vector.replicate 32 0
  ed := { publicKey := fun seed => seed, sign := fun _ _ => List.Vector.replicate 64 0,
          verify := fun _ _ _ => false }
  roomHash := fun _ _ _ => 0
  sessionHash := fun _ n => UInt64.ofNat n
  accountHash := fun _ password => UInt64.ofNat password.length
  serverName := "x"

def clock : Clock := ⟨0, fun _ => 0, fun _ => 0⟩

/-- The data of a server with an account for Alice. -/
def registered : Data := (registerAccount env.accountHash env.serverName Store.empty "a" "pw").2

def loginRequest : Request where
  method := .post
  target := "/_matrix/client/v3/login"
  authorization := none
  body := some "\x7b\"type\":\"m.login.password\",\"user\":\"a\",\"password\":\"pw\"\x7d"

/-- Alice creates a room with the token of her login. -/
def createRequest : Request where
  method := .post
  target := "/_matrix/client/v3/createRoom"
  authorization := some "Bearer gmt_0000000000000000"
  body := none

def requests : List (Request × Clock) := [(loginRequest, clock), (createRequest, clock)]

def room : RoomId := ⟨"!0000000000000000:x", valid_mintedRoom⟩

theorem valid_zeroDigest : isEventId ('$' :: List.replicate 43 'A') = true := by decide

/-- The first event of the room. -/
def created : Pdu where
  eventId := ⟨'$' :: List.replicate 43 'A', valid_zeroDigest⟩
  roomId := room
  sender := alice
  kind := "m.room.create"
  stateKey := some []
  originServerTs := 0
  depth := 1
  prevEvents := []
  authEvents := []
  contentJson := createContent alice

theorem registered_of_ne {cf : Cf} (hcf : cf ≠ .accounts) : registered cf = SortedMap.empty :=
  registerAccount_of_ne hcf _ _ _ _ _

theorem userFor_registered (token : Str) : SessionStore.userFor registered token = none := by
  unfold SessionStore.userFor Store.get
  rw [registered_of_ne (by decide)]
  rfl

end SampleRequests

open SampleRequests in
theorem event_author_logged_in_created :
    (∃ x ∈ trace (requestStep SampleRequests.env) registered requests,
      BringsSigned SampleRequests.env x created) ∨
    ∃ login request token,
      [login, request].Sublist (trace (requestStep SampleRequests.env) registered requests) ∧
      LogsIn SampleRequests.env registered login created.sender token ∧
      accessToken request.2.1.authorization request.2.1.target = some token :=
  event_author_logged_in SampleRequests.env registered userFor_registered requests
    SampleRequests.room created (by decide +kernel) (by decide +kernel)

end GaussMatrix.Http.Ingress
