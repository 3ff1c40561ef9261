import GaussMatrix.Fed.Reencode
import GaussMatrix.Http.RoomReads
import GaussMatrix.Http.Server
import GaussMatrix.Svc.KeyStore

/-!
# What a request does

But for a login, every handler comes down to calls of the service: none where it refuses or only
reads, and otherwise calls that act for the user of the request's token, draw one-time keys, or take in
the transaction of another server.
-/

namespace GaussMatrix.Http.Ingress

open Library Util Api Api.Events StateRes Svc Fed RoomService

/-! ## Calls of the service -/

inductive ServiceCall
  | ephemeral (op : EphemeralOp)
  | keys (call : DeviceKeyStore.Call)
  | storeCrossSigningKey (user : UserId) (usage keyJson : Str)

def serviceStep (env : ServerEnv) (s : Data) : ServiceCall → Data
  | .ephemeral op => ephemeralStep env.toEnv s op
  | .keys call => DeviceKeyStore.callStep s call
  | .storeCrossSigningKey user usage keyJson => storeCrossSigningKey s user usage keyJson

def opActor : Op → Option UserId
  | .createRoom creator _ _ _ => some creator
  | .changeMembership actor _ _ _ _ => some actor
  | .sendMessage sender _ _ _ _ _ => some sender
  | .receiveTransaction _ => none

/-- The user that a call acts for. -/
def ServiceCall.actor : ServiceCall → Option UserId
  | .ephemeral (.server (.room op)) => opActor op
  | .ephemeral (.server (.setPresence user _ _)) => some user
  | .ephemeral (.setReadReceipt user _ _ _) => some user
  | .ephemeral (.setTyping user _ _ _ _) => some user
  | .keys (.storeDeviceKeys user _ _) => some user
  | .keys (.storeOneTimeKeys user _ _) => some user
  -- the caller draws the keys of others
  | .keys (.claimOneTimeKey _ _ _) => none
  | .storeCrossSigningKey user _ _ => some user

abbrev roomCall (op : Op) : ServiceCall := .ephemeral (.server (.room op))

/-- A JSON text as the server writes it. -/
def IsWritten (json : Str) : Prop := ∃ v, Json.parse json = .ok v ∧ v.write = json

/-- The one-time keys that a call stores are JSON. -/
def ServiceCall.StoresJson : ServiceCall → Prop
  | .keys (.storeOneTimeKeys _ _ stored) => ∀ key ∈ stored, IsWritten key.2
  | _ => True

def claimPath : Str := "/_matrix/client/v3/keys/claim"

/-- The request asks to claim one-time keys. -/
def IsClaim (req : Request) : Prop :=
  ∃ m, resolve req.method req.target = .found m ∧ m.endpoint.method = .post ∧
    m.endpoint.path = claimPath

/-- A call that a request may make, by how it authenticates. -/
inductive Permitted (env : ServerEnv) (s : Data) (req : Request) (gate : UInt64) : ServiceCall → Prop
  | acting {call : ServiceCall} {user : UserId} (hreq : requester s req.toRequest = some user)
      (hactor : call.actor = some user) (hjson : call.StoresJson) : Permitted env s req gate call
  | claim {user target : UserId} {deviceId algorithm : Str}
      (hreq : requester s req.toRequest = some user) (hclaim : IsClaim req) :
      Permitted env s req gate (.keys (.claimOneTimeKey target deviceId algorithm))
  | transaction {txn : Json} (hverified : verifyFederationRequest env.toEnv s req.federation gate = true)
      (hparse : Json.parse (req.body.getD []) = .ok txn) :
      Permitted env s req gate (roomCall (.receiveTransaction txn))

/-- What a handler did: it refused and did nothing, it refused after it had stored cross-signing keys,
or it made its calls and answered. -/
inductive Served (env : ServerEnv) (s : Data) (allowed : ServiceCall → Prop) : Response × Data → Prop
  | refused {r : Response} (hstatus : r.status ≠ 200) : Served env s allowed (r, s)
  | partly {r : Response} {calls : List ServiceCall} (hstatus : r.status ≠ 200)
      (hkeys : ∀ c ∈ calls, ∃ user usage keyJson, c = .storeCrossSigningKey user usage keyJson)
      (hallowed : ∀ c ∈ calls, allowed c) : Served env s allowed (r, run (serviceStep env) s calls)
  | answered {r : Response} {calls : List ServiceCall} (hstatus : r.status = 200)
      (hallowed : ∀ c ∈ calls, allowed c) : Served env s allowed (r, run (serviceStep env) s calls)

/-- What acts for the user of the request, and stores JSON, is allowed. -/
def Acting (allowed : ServiceCall → Prop) (user : Option UserId) : Prop :=
  ∀ caller, user = some caller →
    ∀ call : ServiceCall, call.actor = some caller → call.StoresJson → allowed call

section

variable {env : ServerEnv} {s : Data} {allowed : ServiceCall → Prop} {m : RouteMatch}
  {user : Option UserId} {body : Option Str} {now : UInt64}

theorem Served.read (r : Response) : Served env s allowed (r, s) := by
  by_cases hstatus : r.status = 200
  · have hnone : ∀ c ∈ ([] : List ServiceCall), allowed c := by simp
    exact .answered hstatus hnone
  · exact .refused hstatus

theorem Served.one {r : Response} {call : ServiceCall} {s' : Data} (hstatus : r.status = 200)
    (h : allowed call) (hstep : serviceStep env s call = s') : Served env s allowed (r, s') := by
  rw [← hstep]
  have hallowed : ∀ c ∈ [call], allowed c := by simpa using h
  exact .answered hstatus hallowed

/-! ## The handlers, one by one -/

/-- A login mints a token for the user whose credentials the body has, or does nothing. -/
theorem serveLogin_cases (env : ServerEnv) (s : Data) (body : Option Str) :
    ((serveLogin env s body).1.status ≠ 200 ∧ (serveLogin env s body).2 = s) ∨
    ∃ user text parsed name password, body = some text ∧ Json.parse text = .ok parsed ∧
      loginUser parsed = some name ∧ (parsed.get "password").bind Json.asStr = some password ∧
      Credentials env.accountHash env.serverName s user name password ∧
      serveLogin env s body =
        (.jsonOk (loginResponse ⟨user, SessionStore.mint env.sessionHash s user⟩),
          s.put .accessTokens (SessionStore.mint env.sessionHash s user) (.text user.asStr)) := by
  have hbad : (400 : Nat) ≠ 200 := by decide
  have hforbidden : (403 : Nat) ≠ 200 := by decide
  unfold serveLogin
  split
  · exact .inl ⟨hbad, rfl⟩
  · rename_i text
    split
    · exact .inl ⟨hbad, rfl⟩
    · rename_i parsed hparse
      split
      · exact .inl ⟨hbad, rfl⟩
      · split
        · rename_i name password hname hpassword
          rcases passwordLogin_cases env.sessionHash env.accountHash env.serverName s name password
            with hnone | ⟨user, hcredentials, hsome⟩
          · rw [hnone]
            exact .inl ⟨hforbidden, rfl⟩
          · rw [hsome]
            exact .inr ⟨user, text, parsed, name, password, rfl, hparse, hname, hpassword,
              hcredentials, rfl⟩
        · exact .inl ⟨hbad, rfl⟩

theorem changeMembership_of_none {actor target : UserId} {room : RoomId} {membership : Str}
    (h : (changeMembership env.toEnv s actor room target membership now).1 = none) :
    (changeMembership env.toEnv s actor room target membership now).2 = s := by
  unfold changeMembership at h ⊢
  split
  · rfl
  · rename_i p hp
    rw [hp] at h
    cases h

theorem serveMembershipSelf_served {membership : Str} (h : Acting allowed user) :
    Served env s allowed (serveMembershipSelf env s m user membership now) := by
  unfold serveMembershipSelf
  split
  · exact .read _
  · rename_i actor
    split
    · exact .read _
    · rename_i room hroom
      have hcall := h actor rfl (roomCall (.changeMembership actor room actor membership now)) rfl trivial
      split
      · rename_i heq
        exact .one rfl hcall (congrArg Prod.snd heq)
      · rename_i heq
        have hsame := changeMembership_of_none (congrArg Prod.fst heq)
        rw [heq] at hsame
        dsimp only at hsame
        rw [hsame]
        exact .read _

theorem serveMembershipTarget_served {membership : Str} (h : Acting allowed user) :
    Served env s allowed (serveMembershipTarget env s m user body membership now) := by
  unfold serveMembershipTarget
  split
  · exact .read _
  · rename_i actor
    split
    · exact .read _
    · rename_i room hroom
      split
      · exact .read _
      · rename_i target htarget
        have hcall := h actor rfl (roomCall (.changeMembership actor room target membership now)) rfl trivial
        split
        · rename_i heq
          exact .one rfl hcall (congrArg Prod.snd heq)
        · rename_i heq
          have hsame := changeMembership_of_none (congrArg Prod.fst heq)
          rw [heq] at hsame
          dsimp only at hsame
          rw [hsame]
          exact .read _

theorem serveTyping_served (h : Acting allowed user) :
    Served env s allowed (serveTyping s m user body now) := by
  unfold serveTyping
  split
  · exact .read _
  · rename_i caller
    split
    · rename_i roomId userId hroomId huserId
      split
      · exact .read _
      · rename_i room hroom
        split
        · exact .read _
        · split
          · rename_i fields hparse
            split
            · exact .read _
            · rename_i typing htyping
              dsimp only
              generalize (((Json.object fields).get "timeout".toList).bind Json.asU64).getD 30000 =
                timeoutMs
              have hcall := h caller rfl (.ephemeral (.setTyping caller room typing timeoutMs now)) rfl trivial
              split
              · rename_i heq
                exact .one rfl hcall (congrArg Prod.snd heq)
              · rename_i s' heq
                -- a caller who is not joined sets nothing
                have hsame : s' = s := by
                  unfold setTyping at heq
                  split at heq
                  · split at heq <;> cases heq
                  · exact (congrArg Prod.snd heq).symm
                rw [hsame]
                exact .read _
          · exact .read _
    · exact .read _

theorem serveReceipt_served (h : Acting allowed user) :
    Served env s allowed (serveReceipt s m user now) := by
  unfold serveReceipt
  split
  · exact .read _
  · rename_i caller
    split
    · rename_i roomId receiptType eventId hroomId htype heventId
      split
      · exact .read _
      · rename_i room hroom
        split
        · exact .read _
        · have hcall := h caller rfl (.ephemeral (.setReadReceipt caller room eventId now)) rfl trivial
          split
          · rename_i heq
            exact .one rfl hcall (congrArg Prod.snd heq)
          · rename_i s' heq
            have hsame : s' = s := by
              unfold setReadReceipt at heq
              split at heq
              · cases heq
              · exact (congrArg Prod.snd heq).symm
            rw [hsame]
            exact .read _
    · exact .read _

theorem serveSetPresence_served (h : Acting allowed user) :
    Served env s allowed (serveSetPresence s m user body) := by
  unfold serveSetPresence
  split
  · exact .read _
  · rename_i caller
    split
    · exact .read _
    · split
      · exact .read _
      · split
        · rename_i fields hparse
          split
          · exact .read _
          · rename_i presence hpresence
            have hcall := h caller rfl (.ephemeral (.server (.setPresence caller presence
              (((Json.object fields).get "status_msg".toList).bind Json.asStr)))) rfl trivial
            exact .one rfl hcall rfl
        · exact .read _

theorem serveSend_served (h : Acting allowed user) :
    Served env s allowed (serveSend env.toEnv s m user body now) := by
  cases hsent : sentEvent env.toEnv s m user body now with
  | none =>
      have hsame := serveSend_of_no_event hsent
      rw [← Prod.mk.eta (p := serveSend env.toEnv s m user body now), hsame]
      exact .read _
  | some p =>
      obtain ⟨sender, roomId, eventType, txnId, room, fields, rfl, -, -, htxn, -, -, hnew, hsend⟩ :=
        sentEvent_cases hsent
      obtain ⟨sender', txnId', hsender, htxn', hanswer⟩ := serveSend_of_event hsent
      obtain rfl := Option.some.inj hsender
      obtain rfl := Option.some.inj (htxn.symm.trans htxn')
      have hcall := h sender rfl
        (roomCall (.sendMessage sender room eventType txnId (body.getD []) now)) rfl trivial
      rw [hanswer]
      apply Served.one rfl hcall
      show (sendMessage env.toEnv s sender room eventType txnId (body.getD []) now).2 = _
      simp only [sendMessage, hnew, hsend]

theorem withReferenceId_isSome (env : ServerEnv) (p : Pdu) :
    (withReferenceId env.toEnv p).isSome := by
  have hdigest : ∀ bytes, base64urlEncode (env.toEnv.sha256 bytes) ≠ [] := by
    intro bytes hnil
    have hnone : base64urlEncode [] = [] := rfl
    have hempty := base64urlEncode_injective (hnil.trans hnone.symm)
    have hlength := congrArg List.length hempty
    simp [ServerEnv.toEnv] at hlength
  have hvalid : ∀ rest, rest ≠ [] → (EventId.parse ('$' :: rest)).isSome := by
    intro rest hrest
    have hid : isEventId ('$' :: rest) = true := by simp [isEventId, stripPrefix, hrest]
    rw [EventId.parse, dif_pos hid]
    rfl
  rw [withReferenceId, Option.isSome_map]
  exact hvalid _ (hdigest _)

theorem length_initialEvents (env : ServerEnv) (room : RoomId) (creator : UserId)
    (now : Nat → UInt64) (i : Nat) (prevEvents : List EventId) (contents : List (Str × Str × Str)) :
    (initialEvents env.toEnv room creator now i prevEvents contents).length = contents.length := by
  induction contents generalizing i prevEvents with
  | nil => rfl
  | cons content rest ih =>
      obtain ⟨kind, stateKey, content⟩ := content
      rw [initialEvents]
      split
      · rename_i hnone
        have hsome := withReferenceId_isSome env
          { eventId := placeholderEventId
            roomId := room
            sender := creator
            kind
            stateKey := some stateKey
            originServerTs := now (i + 1)
            depth := UInt64.ofNat (i + 1)
            prevEvents
            authEvents := []
            contentJson := content }
        rw [hnone] at hsome
        cases hsome
      · rw [List.length_cons, List.length_cons, ih]

theorem serveCreateRoom_served {now : Nat → UInt64} (h : Acting allowed user) :
    Served env s allowed (serveCreateRoom env s user body now) := by
  unfold serveCreateRoom
  split
  · exact .read _
  · rename_i creator
    split
    · exact .read _
    · rename_i name topic hoptions
      have hcall := h creator rfl (roomCall (.createRoom creator name topic now)) rfl trivial
      split
      · rename_i heq
        exact .one rfl hcall (congrArg Prod.snd heq)
      · rename_i s' heq
        -- every event gets an id, so only a room id that is none refuses
        have hsame : s' = s := by
          unfold createRoom at heq
          split at heq
          · exact (congrArg Prod.snd heq).symm
          · dsimp only at heq
            rw [length_initialEvents, if_pos rfl] at heq
            cases heq
        rw [hsame]
        exact .read _

/-- The members of a printable object are printable. -/
theorem printable_of_mem {v w : Json} {fields : List (Str × Json)} {k : Str} (h : Printable v)
    (hfields : v.asObject = some fields) (hmem : (k, w) ∈ fields) : Printable w := by
  cases v with
  | object members =>
      obtain rfl := Option.some.inj hfields
      have hnesting : w.nesting + 1 ≤ maxDepth := Json.nestingFields_le_iff.mp h.1 _ hmem
      exact ⟨by omega, (Json.everywhere_object.mp h.2).2 _ hmem⟩
  | _ => cases hfields

/-- What an upload stores of one-time keys is JSON again. -/
theorem isWritten_of_mem_uploaded {text : Str} {v : Json} (hparse : Json.parse text = .ok v)
    {key : Str × Str} (hkey : key ∈ uploadedOneTimeKeys v) : IsWritten key.2 := by
  obtain ⟨field, hfield, rfl⟩ := List.mem_map.mp hkey
  obtain ⟨name, w⟩ := field
  -- the field is a member of a member of the body
  cases hkeys : (v.get "one_time_keys".toList).bind Json.asObject with
  | none =>
      rw [hkeys, Option.getD_none] at hfield
      cases hfield
  | some fields =>
      rw [hkeys, Option.getD_some] at hfield
      obtain ⟨otk, hget, hotk⟩ := Option.bind_eq_some_iff.mp hkeys
      have hmembers : Printable otk := Printable.get (Json.fits_of_parse hparse) hget
      obtain ⟨hnesting, hordered⟩ := printable_of_mem hmembers hotk hfield
      refine ⟨w.written, ?_, Json.write_written w⟩
      rw [Json.parse_write hordered, if_pos hnesting]

theorem serveKeysUpload_served (h : Acting allowed user) :
    Served env s allowed (serveKeysUpload env.ed s user body) := by
  unfold serveKeysUpload
  split
  · exact .read _
  · rename_i caller
    split
    · rename_i fields hparse
      split
      · exact .read _
      · rename_i stored hstored
        have hjson : ∀ key ∈ uploadedOneTimeKeys (.object fields), IsWritten key.2 :=
          fun key => isWritten_of_mem_uploaded hparse
        generalize hdevice : uploadedDeviceId (.object fields) = deviceId at *
        generalize uploadedOneTimeKeys (.object fields) = keys at *
        have hkeys := h caller rfl (.keys (.storeOneTimeKeys caller deviceId keys)) rfl hjson
        unfold storeUploadedKeys at hstored
        split at hstored
        · obtain rfl := Option.some.inj hstored
          exact .one rfl hkeys rfl
        · rename_i deviceKeys hget
          split at hstored
          · cases hstored
          · obtain rfl := Option.some.inj hstored
            rw [hdevice]
            have hcall := h caller rfl
              (.keys (.storeDeviceKeys caller deviceId deviceKeys.write)) rfl trivial
            have hallowed : ∀ c ∈ [ServiceCall.keys (.storeDeviceKeys caller deviceId
                deviceKeys.write), .keys (.storeOneTimeKeys caller deviceId keys)], allowed c := by
              simpa using ⟨hcall, hkeys⟩
            exact .answered rfl hallowed
    · exact .read _

theorem claimDevices_run (env : ServerEnv) (target : UserId) (devices : List (Str × Json)) (s : Data) :
    ∃ calls, (claimDevices target devices s).2 = run (serviceStep env) s calls ∧
      ∀ c ∈ calls, ∃ deviceId algorithm, c = .keys (.claimOneTimeKey target deviceId algorithm) := by
  induction devices generalizing s with
  | nil => exact ⟨[], rfl, by simp⟩
  | cons entry rest ih =>
      obtain ⟨device, value⟩ := entry
      rw [claimDevices]
      split
      · exact ih s
      · rename_i algorithm halgorithm
        -- whatever the claim finds, the loop goes on from the data after it
        obtain ⟨calls, hcalls, hclaims⟩ := ih (claimOneTimeKey s target device algorithm).2
        refine ⟨.keys (.claimOneTimeKey target device algorithm) :: calls, ?_, ?_⟩
        · rw [run_cons]
          show _ = run (serviceStep env) (claimOneTimeKey s target device algorithm).2 calls
          rw [← hcalls]
          cases claimOneTimeKey s target device algorithm with
          | mk key s' =>
              cases key with
              | none => rfl
              | some key =>
                  dsimp only
                  cases Json.parse key.2 <;> rfl
        · intro c hc
          rcases List.mem_cons.mp hc with rfl | hc
          · exact ⟨device, algorithm, rfl⟩
          · exact hclaims c hc

theorem claimUsers_run (env : ServerEnv) (users : List (Str × Json)) (s : Data) :
    ∃ calls, (claimUsers users s).2 = run (serviceStep env) s calls ∧
      ∀ c ∈ calls, ∃ target deviceId algorithm,
        c = .keys (.claimOneTimeKey target deviceId algorithm) := by
  induction users generalizing s with
  | nil => exact ⟨[], rfl, by simp⟩
  | cons entry rest ih =>
      obtain ⟨userId, devices⟩ := entry
      rw [claimUsers]
      split
      · rename_i target devices htarget hdevices
        obtain ⟨first, hfirst, hfirstClaims⟩ := claimDevices_run env target devices s
        obtain ⟨later, hlater, hlaterClaims⟩ := ih (claimDevices target devices s).2
        refine ⟨first ++ later, ?_, ?_⟩
        · rw [run_append, ← hfirst, ← hlater]
        · intro c hc
          rcases List.mem_append.mp hc with hc | hc
          · exact ⟨target, hfirstClaims c hc⟩
          · exact hlaterClaims c hc
      · exact ih s

theorem serveKeysClaim_served
    (h : ∀ target deviceId algorithm, allowed (.keys (.claimOneTimeKey target deviceId algorithm))) :
    Served env s allowed (serveKeysClaim s body) := by
  unfold serveKeysClaim
  split
  · rename_i fields hparse
    obtain ⟨calls, hcalls, hclaims⟩ := claimUsers_run env (claimRequest (.object fields)) s
    show Served env s allowed (.jsonOk _, (claimUsers _ s).2)
    rw [hcalls]
    apply Served.answered rfl
    intro c hc
    obtain ⟨target, deviceId, algorithm, rfl⟩ := hclaims c hc
    exact h target deviceId algorithm
  · exact .read _

theorem serveDeviceSigningUpload_served (h : Acting allowed user) :
    Served env s allowed (serveDeviceSigningUpload env.ed s user body) := by
  unfold serveDeviceSigningUpload
  split
  · exact .read _
  · rename_i caller
    split
    · rename_i fields hparse
      rw [storeUploaded_eq]
      generalize takenKeys env.ed caller (.object fields) crossSigningFields = keys
      have hkeys : keys.foldl (storeKey caller) s = run (serviceStep env) s
          (keys.map fun k => .storeCrossSigningKey caller k.usage k.key.write) := by
        rw [run, List.foldl_map]
        rfl
      rw [hkeys]
      split
      · apply Served.partly (by decide)
        · intro c hc
          obtain ⟨k, -, rfl⟩ := List.mem_map.mp hc
          exact ⟨caller, k.usage, k.key.write, rfl⟩
        · intro c hc
          obtain ⟨k, -, rfl⟩ := List.mem_map.mp hc
          exact h caller rfl _ rfl trivial
      · apply Served.answered rfl
        intro c hc
        obtain ⟨k, -, rfl⟩ := List.mem_map.mp hc
        exact h caller rfl _ rfl trivial
    · exact .read _

theorem serveTransaction_served
    (h : ∀ txn, Json.parse (body.getD []) = .ok txn → allowed (roomCall (.receiveTransaction txn))) :
    Served env s allowed (serveTransaction env s body) := by
  unfold serveTransaction
  split
  · rename_i fields hparse
    exact .one rfl (h _ hparse) rfl
  · exact .read _
  · exact .read _

end

/-! ## The whole ingress -/

section

variable {env : ServerEnv} {s : Data} {c : Call} {req : Request} {clock : Clock}

theorem mem_of_route {routes : List ((Method × Str) × Handler)} {key : Method × Str}
    {handler : Handler} (h : routes.lookup key = some handler) : (key, handler) ∈ routes := by
  obtain ⟨before, after, rfl, -⟩ := List.lookup_eq_some_iff.mp h
  simp

def loginKey : Method × Str := (.post, "/_matrix/client/v3/login".toList)

/-- The request is for the endpoint that logs in. -/
def IsLogin (req : Request) : Prop :=
  ∃ m, resolve req.method req.target = .found m ∧ (m.endpoint.method, m.endpoint.path) = loginKey

theorem publicRoutes_served : ∀ route ∈ publicRoutes, route.1 ≠ loginKey →
    Served env s (Permitted env s c.req c.clock.gate) (route.2 env s c) := by
  simp only [publicRoutes, List.forall_mem_cons]
  exact ⟨fun _ => .read _, fun _ => .read _, fun h => absurd rfl h, fun _ => .read _, by simp⟩

theorem clientReads_served : ∀ route ∈ clientReads,
    Served env s (Permitted env s c.req c.clock.gate) (route.2 env s c) := by
  simp only [clientReads, List.forall_mem_cons]
  exact ⟨.read _, .read _, .read _, .read _, .read _, .read _, .read _, .read _, .read _, .read _,
    .read _, by simp⟩

theorem clientWrites_served {user : UserId} (hc : c.user = some user)
    (hreq : requester s c.req.toRequest = some user)
    (hresolve : resolve c.req.method c.req.target = .found c.m) : ∀ route ∈ clientWrites,
    route.1 = (c.m.endpoint.method, c.m.endpoint.path) →
      Served env s (Permitted env s c.req c.clock.gate) (route.2 env s c) := by
  have hact : Acting (Permitted env s c.req c.clock.gate) c.user := by
    intro caller hcaller call hactor hjson
    rw [hc] at hcaller
    rw [← Option.some.inj hcaller] at hactor
    exact .acting hreq hactor hjson
  simp only [clientWrites, List.forall_mem_cons]
  refine ⟨fun _ => serveSend_served hact, fun _ => serveTyping_served hact,
    fun _ => serveReceipt_served hact, fun _ => serveSetPresence_served hact,
    fun _ => serveMembershipSelf_served hact, fun _ => serveMembershipSelf_served hact,
    fun _ => serveMembershipTarget_served hact, fun _ => serveMembershipTarget_served hact,
    fun _ => serveMembershipTarget_served hact, fun _ => serveCreateRoom_served hact,
    fun _ => serveKeysUpload_served hact, fun hkey => ?_,
    fun _ => serveDeviceSigningUpload_served hact, by simp⟩
  apply serveKeysClaim_served
  intro target deviceId algorithm
  exact .claim hreq ⟨c.m, hresolve, (congrArg Prod.fst hkey).symm, (congrArg Prod.snd hkey).symm⟩

theorem federationRoutes_served
    (hverified : verifyFederationRequest env.toEnv s c.req.federation c.clock.gate = true) :
    ∀ route ∈ federationRoutes,
      Served env s (Permitted env s c.req c.clock.gate) (route.2 env s c) := by
  simp only [federationRoutes, List.forall_mem_cons]
  refine ⟨?_, .read _, .read _, .read _, .read _, .read _, by simp⟩
  apply serveTransaction_served
  intro txn hparse
  exact .transaction hverified hparse

/-- Where the client writes are served a token is required, and where the federation routes are a
signature. -/
theorem auth_of_route : ∀ e ∈ Endpoint.surface,
    ((e.method, e.path) ∈ clientWrites.map Prod.fst → e.auth = .accessToken) ∧
      ((e.method, e.path) ∈ federationRoutes.map Prod.fst → e.auth = .federation) := by
  decide +kernel

theorem authenticate_accessToken {m : RouteMatch} {user : Option UserId}
    (hauth : m.endpoint.auth = .accessToken)
    (h : authenticate env s m req clock.gate = .ok user) :
    ∃ caller, user = some caller ∧ requester s req.toRequest = some caller := by
  unfold authenticate at h
  rw [hauth] at h
  dsimp only at h
  split at h
  · cases h
  · rename_i token htoken
    split at h
    · rename_i caller hcaller
      refine ⟨caller, (Except.ok.inj h).symm, ?_⟩
      rw [requester, htoken, Option.bind_some, hcaller]
    · cases h

theorem authenticate_refused {m : RouteMatch} {gate : UInt64} {refused : Response}
    (h : authenticate env s m req gate = .error refused) : ∃ e, refused = .error 401 e := by
  unfold authenticate at h
  split at h
  · cases h
  · cases h
  · split at h
    · exact ⟨_, (Except.error.inj h).symm⟩
    · split at h
      · cases h
      · exact ⟨_, (Except.error.inj h).symm⟩
  · split at h
    · cases h
    · exact ⟨_, (Except.error.inj h).symm⟩

theorem authenticate_federation {m : RouteMatch} {user : Option UserId}
    (hauth : m.endpoint.auth = .federation)
    (h : authenticate env s m req clock.gate = .ok user) :
    verifyFederationRequest env.toEnv s req.federation clock.gate = true := by
  unfold authenticate at h
  rw [hauth] at h
  dsimp only at h
  split at h
  · assumption
  · cases h

theorem auth_of_login : ∀ e ∈ Endpoint.surface, (e.method, e.path) = loginKey → e.auth = .none := by
  decide +kernel

/-- A login is not authenticated. -/
theorem handle_login (h : IsLogin req) : handle env s req clock = serveLogin env s req.body := by
  obtain ⟨m, hresolve, hkey⟩ := h
  have hauth := auth_of_login m.endpoint (resolve_found hresolve).1 hkey
  have hroute : routes.lookup loginKey = some fun env s c => serveLogin env s c.req.body := rfl
  unfold handle
  simp only [hresolve, authenticate, hauth, serve, hkey, hroute]

/-- Every other request is served by calls that it may make. -/
theorem handle_served (h : ¬ IsLogin req) :
    Served env s (Permitted env s req clock.gate) (handle env s req clock) := by
  unfold handle
  split
  · rename_i m hresolve
    split
    · exact .read _
    · rename_i user huser
      obtain ⟨hsurface, -⟩ := resolve_found hresolve
      obtain ⟨htoken, hsigned⟩ := auth_of_route m.endpoint hsurface
      unfold serve
      split
      · rename_i handler hroute
        have hmem := mem_of_route hroute
        simp only [routes, List.mem_append] at hmem
        rcases hmem with ((hmem | hmem) | hmem) | hmem
        · exact publicRoutes_served (c := ⟨m, user, req, clock⟩) _ hmem
            fun hkey => h ⟨m, hresolve, hkey⟩
        · exact clientReads_served (c := ⟨m, user, req, clock⟩) _ hmem
        · obtain ⟨caller, rfl, hreq⟩ :=
            authenticate_accessToken (htoken (List.mem_map_of_mem hmem)) huser
          exact clientWrites_served (c := ⟨m, some caller, req, clock⟩) rfl hreq hresolve _ hmem rfl
        · have hverified := authenticate_federation (hsigned (List.mem_map_of_mem hmem)) huser
          exact federationRoutes_served (c := ⟨m, user, req, clock⟩) hverified _ hmem
      · exact .read _
  · exact .read _
  · exact .read _

/-- Every request is a login, or served by calls that it may make. -/
theorem handle_cases (env : ServerEnv) (s : Data) (req : Request) (clock : Clock) :
    handle env s req clock = serveLogin env s req.body ∨
      Served env s (Permitted env s req clock.gate) (handle env s req clock) := by
  by_cases h : IsLogin req
  · exact .inl (handle_login h)
  · exact .inr (handle_served h)

/-! ## Reads and refusals -/

theorem get_routes_read : ∀ route ∈ routes, route.1.1 = .get → (route.2 env s c).2 = s := by
  have hpost : ∀ {r : Data}, Method.post = .get → r = s := fun h => Method.noConfusion h
  have hput : ∀ {r : Data}, Method.put = .get → r = s := fun h => Method.noConfusion h
  have hnone : ∀ route ∈ ([] : List ((Method × Str) × Handler)), route.1.1 = .get →
      (route.2 env s c).2 = s := by simp
  simp only [routes, List.forall_mem_append]
  refine ⟨⟨⟨?_, ?_⟩, ?_⟩, ?_⟩
  · simp only [publicRoutes, List.forall_mem_cons]
    exact ⟨fun _ => rfl, fun _ => rfl, hpost, fun _ => rfl, hnone⟩
  · simp only [clientReads, List.forall_mem_cons]
    exact ⟨fun _ => rfl, fun _ => rfl, fun _ => rfl, fun _ => rfl, fun _ => rfl, fun _ => rfl,
      fun _ => rfl, fun _ => rfl, fun _ => rfl, hpost, fun _ => rfl, hnone⟩
  · -- no client write is a `GET`
    have hmethods : ∀ route ∈ clientWrites, route.1.1 ≠ .get := by
      simp [clientWrites]
    exact fun route hroute hget => absurd hget (hmethods route hroute)
  · simp only [federationRoutes, List.forall_mem_cons]
    exact ⟨hput, fun _ => rfl, fun _ => rfl, fun _ => rfl, fun _ => rfl, fun _ => rfl, hnone⟩

theorem handle_get (hget : req.method = .get) : (handle env s req clock).2 = s := by
  unfold handle
  split
  · rename_i m hresolve
    split
    · rfl
    · unfold serve
      split
      · rename_i handler hroute
        have hmethod := (resolve_found hresolve).2.1
        exact get_routes_read _ (mem_of_route hroute) (hmethod.trans hget)
      · rfl
  · rfl
  · rfl

/-- A call of cross-signing keys writes under the name of its user. -/
theorem get_run_crossSigning {user : UserId} {cf : Cf} {key : Str} {calls : List ServiceCall}
    (hcalls : ∀ c ∈ calls, ∃ usage keyJson, c = .storeCrossSigningKey user usage keyJson)
    (hchange : (run (serviceStep env) s calls).get cf key ≠ s.get cf key) :
    cf = .crossSigning ∧ ∃ usage, key = crossSigningName user usage := by
  induction calls generalizing s with
  | nil => exact absurd rfl hchange
  | cons call calls ih =>
      obtain ⟨hcall, hrest⟩ := List.forall_mem_cons.mp hcalls
      obtain ⟨usage, keyJson, rfl⟩ := hcall
      rw [run_cons] at hchange
      by_cases hlater : (run (serviceStep env) (storeCrossSigningKey s user usage keyJson) calls).get
          cf key = (storeCrossSigningKey s user usage keyJson).get cf key
      · have hfirst : (storeCrossSigningKey s user usage keyJson).get cf key ≠ s.get cf key := by
          rw [← hlater]
          exact hchange
        by_cases hcf : cf = .crossSigning
        · rw [hcf, storeCrossSigningKey, Store.get_put] at hfirst
          split at hfirst
          · rename_i hkey
            exact ⟨hcf, usage, hkey⟩
          · exact absurd rfl hfirst
        · rw [storeCrossSigningKey, Store.get, Store.put_of_ne _ hcf] at hfirst
          exact absurd rfl hfirst
      · exact ih hrest hlater

end

/-- A `GET` changes nothing, and so does a request that is refused; only a refused upload of
cross-signing keys may have stored keys of its caller. -/
theorem reads_and_refusals_change_nothing (env : ServerEnv) (s : Data) (req : Request)
    (clock : Clock) :
    (req.method = .get → (handle env s req clock).2 = s) ∧
    ((handle env s req clock).1.status ≠ 200 → ∀ cf key,
      (handle env s req clock).2.get cf key ≠ s.get cf key →
        cf = .crossSigning ∧ ∃ user usage, requester s req.toRequest = some user ∧
          key = crossSigningName user usage) := by
  refine ⟨handle_get, ?_⟩
  intro hstatus cf key hchange
  rcases handle_cases env s req clock with hlogin | hserved
  · rw [hlogin] at hstatus hchange
    rcases serveLogin_cases env s req.body with ⟨-, hsame⟩ | ⟨_, _, _, _, _, -, -, -, -, -, hdone⟩
    · rw [hsame] at hchange
      exact absurd rfl hchange
    · rw [hdone] at hstatus
      exact absurd rfl hstatus
  · generalize handle env s req clock = r at hserved hstatus hchange
    cases hserved with
    | refused _ => exact absurd rfl hchange
    | answered hok _ => exact absurd hok hstatus
    | @partly r calls _ hkeys hallowed =>
        cases hreq : requester s req.toRequest with
        | none =>
            -- nobody asked, so there is no call
            have hnone : calls = [] := by
              apply List.eq_nil_iff_forall_not_mem.mpr
              intro c hc
              obtain ⟨user, usage, keyJson, rfl⟩ := hkeys c hc
              cases hallowed _ hc with
              | acting hacting _ _ => simp [hreq] at hacting
            rw [hnone] at hchange
            exact absurd rfl hchange
        | some caller =>
            have hcalls : ∀ c ∈ calls, ∃ usage keyJson,
                c = .storeCrossSigningKey caller usage keyJson := by
              intro c hc
              obtain ⟨user, usage, keyJson, rfl⟩ := hkeys c hc
              cases hallowed _ hc with
              | acting hacting hactor _ =>
                  rw [hreq] at hacting
                  obtain rfl := Option.some.inj hacting
                  obtain rfl := Option.some.inj hactor
                  exact ⟨usage, keyJson, rfl⟩
            obtain ⟨hcf, usage, hname⟩ := get_run_crossSigning hcalls hchange
            exact ⟨hcf, caller, usage, rfl, hname⟩

end GaussMatrix.Http.Ingress
