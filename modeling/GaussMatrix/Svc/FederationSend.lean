import GaussMatrix.Svc.History
import GaussMatrix.Svc.ServerKeys

/-!
# A federation request

The request that brings a transaction is authenticated for its origin; its units are then taken for
what they say, whoever their senders and the owners of their devices are.
-/

namespace GaussMatrix.Svc

open Library Util Api Fed RoomService

/-- An error answer of the front: status, code and text. -/
structure ErrorResponse where
  status : Nat
  errcode : Str
  error : Str
  deriving DecidableEq

def invalidSignature : ErrorResponse :=
  { status := 401, errcode := "M_UNAUTHORIZED".toList, error := "invalid federation signature".toList }

def notAnObject : ErrorResponse :=
  { status := 400, errcode := "M_BAD_JSON".toList, error := "transaction must be an object".toList }

def notJson : ErrorResponse :=
  { status := 400, errcode := "M_NOT_JSON".toList, error := "body is not JSON".toList }

/-- Take in the transaction of a request: the acknowledgement or the error, and the data. -/
def serveFederationSend (env : Env) (s : Data) (request : FederationRequest) (now : UInt64) :
    Except ErrorResponse Json × Data :=
  if verifyFederationRequest env s request now then
    match Json.parse (request.content.getD []) with
    | .ok (.object fields) =>
        let received := receiveTransaction env s (.object fields)
        (.ok received.1, received.2)
    | .ok _ => (.error notAnObject, s)
    | .error _ => (.error notJson, s)
  else (.error invalidSignature, s)

/-- The request is authenticated for the origin, and its body is the transaction. -/
structure Delivers (env : Env) (s : Data) (request : FederationRequest) (now : UInt64) (origin : Str)
    (txn : Json) : Prop where
  origin : request.auth.map XMatrixAuth.origin = some origin
  verified : verifyFederationRequest env s request now = true
  object : txn.asObject.isSome
  body : Json.parse (request.content.getD []) = .ok txn

/-! ## Device keys -/

/-- The texts that a family holds under a user's name: what the name goes on with, and the text. -/
def userEntries (s : Data) (cf : Cf) (user : UserId) : List (Str × Str) :=
  (s.scan cf).filterMap fun (key, value) => do
    let rest ← stripPrefix (user.asStr ++ [sep]) key
    return (rest, ← value.asText)

/-- The devices of a user, with their keys. -/
def deviceKeysOf (s : Data) (user : UserId) : List (Str × Str) :=
  (s.scan .deviceKeys).filterMap fun (key, value) => do
    let device ← stripPrefix (user.asStr ++ [sep]) key
    return (device, ← value.asText)

/-- What a device-list update writes. -/
structure DeviceUpdate where
  user : UserId
  deviceId : Str
  keys : Str

def DeviceUpdate.key (update : DeviceUpdate) : Str := update.user.asStr ++ sep :: update.deviceId

/-- The update that an ephemeral unit carries out. -/
def deviceUpdate (edu : Edu) : Option DeviceUpdate := do
  if edu.eduType ≠ "m.device_list_update".toList then none
  let content ← (Json.parse edu.contentJson).toOption
  let userId ← (content.get "user_id").bind Json.asStr
  let deviceId ← (content.get "device_id").bind Json.asStr
  let user ← UserId.parse userId
  let keys := match content.get "keys" with
    | some k => k.write
    | none => "{}".toList
  return { user, deviceId, keys }

def storeUpdate (s : Data) (update : DeviceUpdate) : Data :=
  s.put .deviceKeys update.key (.text update.keys)

/-- The device-list updates of a transaction, in order. -/
def deviceUpdates (txn : Json) : List DeviceUpdate := (transactionEdus txn).filterMap deviceUpdate

/-- The last update of a transaction under a name of the family. -/
def lastUpdate (txn : Json) (key : Str) : Option DeviceUpdate :=
  (deviceUpdates txn).reverse.find? fun update => update.key = key

section

variable {env : Env} {s t : Data} {txn : Json} {user : UserId}

theorem receiveEdu_eq (edu : Edu) : receiveEdu s edu = (deviceUpdate edu).elim s (storeUpdate s) := by
  unfold receiveEdu deviceUpdate
  by_cases htype : edu.eduType ≠ "m.device_list_update".toList
  · rw [if_pos htype, if_pos htype]
    rfl
  · rw [if_neg htype, if_neg htype]
    cases (Json.parse edu.contentJson).toOption with
    | none => rfl
    | some content =>
        simp only [Option.bind_eq_bind, Option.bind_some]
        cases (content.get "user_id").bind Json.asStr with
        | none => rfl
        | some userId =>
            cases (content.get "device_id").bind Json.asStr with
            | none => rfl
            | some deviceId =>
                cases hparse : UserId.parse userId with
                | none => simp [hparse]
                | some user =>
                    simp only [hparse, Option.bind_some]
                    rfl

theorem receiveEdus_eq (edus : List Edu) :
    edus.foldl receiveEdu s = (edus.filterMap deviceUpdate).foldl storeUpdate s := by
  induction edus generalizing s with
  | nil => rfl
  | cons edu edus ih =>
      rw [List.foldl_cons, ih, receiveEdu_eq, List.filterMap_cons]
      cases deviceUpdate edu <;> rfl

@[simp] theorem append_deviceKeys (p : Pdu) : append s p .deviceKeys = s .deviceKeys :=
  append_of_ne (by decide) s p

/-- The device keys after a transaction are those of its last updates, over those before. -/
theorem get_deviceKeys_receiveTransaction (key : Str) :
    (receiveTransaction env s txn).2.get .deviceKeys key =
      ((lastUpdate txn key).map fun update => .text update.keys).or (s.get .deviceKeys key) := by
  have hpdus : ∀ (r : Receipt) (pdus : List Pdu),
      (run (receivePdu env) r pdus).data.get .deviceKeys key = r.data.get .deviceKeys key := by
    intro r pdus
    induction pdus generalizing r with
    | nil => rfl
    | cons p pdus ih =>
        rw [run_cons, ih, receivePdu_data]
        split
        · rw [Store.get, append_deviceKeys, Store.get]
        · rfl
  rw [receiveTransaction]
  show ((transactionEdus txn).foldl receiveEdu _).get .deviceKeys key = _
  rw [receiveEdus_eq]
  have hlast := Store.get_foldl_put (run (receivePdu env) (Receipt.start s (transactionPdus txn))
    (transactionPdus txn)).data .deviceKeys DeviceUpdate.key (fun update => .text update.keys)
    (deviceUpdates txn) key
  rw [hpdus] at hlast
  exact hlast

theorem mem_userEntries {cf : Cf} {rest text : Str} : (rest, text) ∈ userEntries s cf user ↔
    s.get cf (user.asStr ++ sep :: rest) = some (.text text) := by
  have hkey : ∀ key, stripPrefix (user.asStr ++ [sep]) key = some rest ↔
      key = user.asStr ++ sep :: rest := by
    intro key
    rw [stripPrefix_eq_some_iff]
    simp
  rw [userEntries, List.mem_filterMap, Store.get, ← SortedMap.mem_entries_iff]
  constructor
  · rintro ⟨⟨key, value⟩, hmem, hread⟩
    obtain ⟨rest', hstrip, hread⟩ := Option.bind_eq_some_iff.mp hread
    obtain ⟨text', htext, hread⟩ := Option.bind_eq_some_iff.mp hread
    obtain ⟨rfl, rfl⟩ := Prod.mk.inj (Option.some_inj.mp hread)
    rw [(hkey key).mp hstrip] at hmem
    cases value with
    | text t =>
        rw [Option.some_inj.mp htext] at hmem
        exact hmem
    | pdu p => exact absurd htext (by simp [Record.asText])
  · intro hmem
    refine ⟨_, hmem, ?_⟩
    show (stripPrefix _ _).bind _ = _
    rw [(hkey _).mpr rfl]
    rfl

theorem mem_deviceKeysOf {device keys : Str} : (device, keys) ∈ deviceKeysOf s user ↔
    s.get .deviceKeys (user.asStr ++ sep :: device) = some (.text keys) :=
  mem_userEntries

theorem lastUpdate_some {key : Str} {update : DeviceUpdate} (h : lastUpdate txn key = some update) :
    update ∈ deviceUpdates txn ∧ update.key = key := by
  have hmem := List.mem_of_find?_eq_some h
  have hkey := List.find?_some h
  exact ⟨List.mem_reverse.mp hmem, of_decide_eq_true hkey⟩

/-- The devices of a user are read from the names that start with the user's. -/
theorem deviceKeysOf_congr (h : ∀ key, startsWith (user.asStr ++ [sep]) key = true →
    t.get .deviceKeys key = s.get .deviceKeys key) : deviceKeysOf t user = deviceKeysOf s user := by
  have hread : ∀ u : Data, deviceKeysOf u user =
      ((u .deviceKeys).filter fun key _ => startsWith (user.asStr ++ [sep]) key).entries.filterMap
        fun e => (stripPrefix (user.asStr ++ [sep]) e.1).bind fun device =>
          e.2.asText.bind fun text => some (device, text) := by
    intro u
    rw [deviceKeysOf, SortedMap.filter, List.filterMap_filter, Store.scan]
    congr
    funext e
    obtain ⟨key, value⟩ := e
    by_cases hkey : startsWith (user.asStr ++ [sep]) key = true
    · exact (if_pos hkey).symm
    · have hno : stripPrefix (user.asStr ++ [sep]) key = none := by
        rw [startsWith, Bool.not_eq_true, Option.isSome_eq_false_iff,
          Option.isNone_iff_eq_none] at hkey
        exact hkey
      show (stripPrefix (user.asStr ++ [sep]) key).bind _ = _
      rw [if_neg hkey, hno]
      rfl
  have hsame : (t .deviceKeys).filter (fun key _ => startsWith (user.asStr ++ [sep]) key) =
      (s .deviceKeys).filter fun key _ => startsWith (user.asStr ++ [sep]) key := by
    apply SortedMap.ext_get
    intro key
    rw [SortedMap.get_filter, SortedMap.get_filter]
    by_cases hkey : startsWith (user.asStr ++ [sep]) key = true
    · have hget : (t .deviceKeys).get key = (s .deviceKeys).get key := h key hkey
      rw [hget]
    · simp only [hkey]
      cases (t .deviceKeys).get key <;> cases (s .deviceKeys).get key <;> rfl
  rw [hread, hread, hsame]

end

/-! ## Speaking for the origin only -/

/-- The server holds the event. -/
def Held (s : Data) (p : Pdu) : Prop := ∃ key, s.get .events key = some (.pdu p)

/-- Taking in a delivered transaction brings no event of a user of this server that it did not hold,
at no point, and leaves the devices of users of other servers than the origin as they were. -/
structure KeepsToOrigin (env : Env) (s : Data) (request : FederationRequest) (now : UInt64)
    (txn : Json) (origin : Str) : Prop where
  events : ∀ x ∈ receiveSteps env s txn, ∀ p, Held (receivePdu env x.1 x.2).data p →
    p.sender.serverName = env.serverName → Held s p
  devices : ∀ user : UserId, user.serverName ≠ origin →
    deviceKeysOf (serveFederationSend env s request now).2 user = deviceKeysOf s user

/-- The units of a transaction that speak for others change nothing: an event of a user of this server
is held or refused by the auth rules at its turn, and a last device update is one of the origin's
users alone or repeats what is stored. -/
structure UnitsOfOrigin (env : Env) (s : Data) (txn : Json) (origin : Str) : Prop where
  events : ∀ x ∈ receiveSteps env s txn, x.2.sender.serverName = env.serverName →
    Held s x.2 ∨ federationVerdict env x.1.data x.1.byId x.2 ≠ .ok ()
  updates : ∀ key update, lastUpdate txn key = some update → ∀ user : UserId,
    startsWith (user.asStr ++ [sep]) key = true →
      user.serverName = origin ∨ s.get .deviceKeys key = some (.text update.keys)

section

variable {env : Env} {s : Data} {request : FederationRequest} {now : UInt64} {txn : Json}

theorem held_receivePdu (r : Receipt) (p q : Pdu) (h : Held (receivePdu env r p).data q) :
    Held r.data q ∨ (q = p ∧ Accepted env (r, p)) := by
  obtain ⟨key, hget⟩ := h
  rw [receivePdu_data] at hget
  by_cases hok : Accepted env (r, p)
  · rw [if_pos hok, Store.get, append_events, SortedMap.get_insert] at hget
    split at hget
    · have hqp : p = q := by simpa using hget
      exact .inr ⟨hqp.symm, hok⟩
    · exact .inl ⟨key, hget⟩
  · rw [if_neg hok] at hget
    exact .inl ⟨key, hget⟩

theorem serveFederationSend_data {origin : Str} (h : Delivers env s request now origin txn) :
    (serveFederationSend env s request now).2 = (receiveTransaction env s txn).2 := by
  have hobject := h.object
  cases txn with
  | object fields => rw [serveFederationSend, if_pos h.verified, h.body]
  | _ => exact absurd hobject (by simp [Json.asObject])

end

/-- A transaction delivered for an origin keeps to it exactly when its units do. -/
theorem keepsToOrigin_iff (env : Env) (s : Data) (request : FederationRequest) (now : UInt64)
    (origin : Str) (txn : Json) (hdelivers : Delivers env s request now origin txn) :
    KeepsToOrigin env s request now txn origin ↔ UnitsOfOrigin env s txn origin := by
  constructor
  · rintro ⟨hevents, hdevices⟩
    constructor
    · intro x hx hsender
      rw [or_iff_not_imp_right, not_not]
      intro hok
      have haccepted : Accepted env (x.1, x.2) := hok
      -- an accepted event is held right after its turn
      apply hevents x hx x.2 _ hsender
      refine ⟨timelineKey x.2, ?_⟩
      rw [receivePdu_data, if_pos haccepted, Store.get, append_events, SortedMap.get_insert_self]
    · intro key update hlast user hkey
      rw [or_iff_not_imp_left]
      intro hother
      obtain ⟨device, rfl⟩ := startsWith_iff.mp hkey
      have hsame := hdevices user hother
      rw [serveFederationSend_data hdelivers] at hsame
      have hafter : (device, update.keys) ∈ deviceKeysOf (receiveTransaction env s txn).2 user := by
        rw [mem_deviceKeysOf, get_deviceKeys_receiveTransaction]
        rw [List.append_assoc, List.singleton_append] at hlast
        rw [hlast]
        rfl
      rw [hsame, mem_deviceKeysOf] at hafter
      rw [List.append_assoc]
      exact hafter
  · rintro ⟨hevents, hupdates⟩
    constructor
    · -- the events that are held at a turn are held at the start, or of other servers' users
      have hrun := @holds_along_trace _ _ (receivePdu env)
        (fun r => ∀ p, Held r.data p → p.sender.serverName = env.serverName → Held s p)
        (Receipt.start s (transactionPdus txn)) (transactionPdus txn)
        (fun p hp _ => hp) ?_
      · intro x hx p hp hsender
        rcases held_receivePdu x.1 x.2 p hp with hheld | ⟨rfl, hok⟩
        · exact hrun.1 x hx p hheld hsender
        · exact (hevents x hx hsender).resolve_right (not_not.mpr hok)
      · intro x hx hbefore p hp hsender
        rcases held_receivePdu x.1 x.2 p hp with hheld | ⟨rfl, hok⟩
        · exact hbefore p hheld hsender
        · exact (hevents x hx hsender).resolve_right (not_not.mpr hok)
    · intro user hother
      rw [serveFederationSend_data hdelivers]
      apply deviceKeysOf_congr
      intro key hkey
      rw [get_deviceKeys_receiveTransaction]
      cases hlast : lastUpdate txn key with
      | none => rfl
      | some update =>
          have hstored := (hupdates key update hlast user hkey).resolve_left hother
          rw [hstored]
          rfl

/-- The data that some run of the server's operations and key calls on an empty store ends in. -/
def Served (env : Env) (publicKeyB64 : PublicKeyB64) (s : Data) : Prop :=
  ∃ ops : List (Op ⊕ KeyOp),
    s = run (fun s op => op.elim (step env s) (keyStep env publicKeyB64 s)) Store.empty ops

namespace SampleSend

open SampleKeys

/-- A server that has a key of `o.tld`. -/
def data : Data := registerFederationKey Store.empty "o.tld" "K"

/-- The body of a transaction of `o.tld` with one device-list update. -/
def body (user : Str) : Str :=
  "\x7b\"origin\":\"o.tld\",\"origin_server_ts\":1,\"pdus\":[],\"edus\":[\x7b".toList ++
    "\"edu_type\":\"m.device_list_update\",\"content\":\x7b\"user_id\":\"".toList ++ user ++
    "\",\"device_id\":\"D\",\"keys\":1\x7d\x7d]\x7d".toList

def txn (user : Str) : Json := ((Json.parse (body user)).toOption).getD .null

def send (user : Str) : FederationRequest :=
  let signature := sign (signingBytes "PUT" "/send/1" "o.tld" "b.tld" (some (body user))) "K"
  { method := "PUT".toList
    uri := "/send/1".toList
    content := some (body user)
    authorization := some ("X-Matrix origin=\"o.tld\",key=\"k\",sig=\"".toList ++ signature ++
      "\"".toList) }

theorem body_eq {user : Str} (h : ((Json.parse (body user)).toOption).isSome) :
    Json.parse (body user) = .ok (txn user) := by
  rw [txn]
  cases hparse : Json.parse (body user) with
  | ok value => rfl
  | error e =>
      rw [hparse] at h
      exact absurd h (by simp [Except.toOption])

def alice : UserId := ⟨"@alice:b.tld", by decide⟩

end SampleSend

open SampleKeys SampleSend in
/-- An update of a device of the origin's own user. -/
theorem keepsToOrigin_sample :
    KeepsToOrigin env data (send "@bob:o.tld") 7 (txn "@bob:o.tld") "o.tld" := by
  have hdelivers : Delivers env data (send "@bob:o.tld") 7 "o.tld" (txn "@bob:o.tld") :=
    ⟨by decide +kernel, by decide +kernel, by decide +kernel, body_eq (by decide +kernel)⟩
  apply (keepsToOrigin_iff env data (send "@bob:o.tld") 7 "o.tld" (txn "@bob:o.tld") hdelivers).mpr
  have hpdus : transactionPdus (txn "@bob:o.tld") = [] := by decide +kernel
  have hupdates : (deviceUpdates (txn "@bob:o.tld")).map DeviceUpdate.key =
      ["@bob:o.tld".toList ++ sep :: "D".toList] := by
    decide +kernel
  constructor
  · intro x hx
    rw [receiveSteps, hpdus] at hx
    exact absurd hx List.not_mem_nil
  · intro key update hlast user huser
    obtain ⟨hin, hkey⟩ := lastUpdate_some hlast
    have hmem := List.mem_map_of_mem (f := DeviceUpdate.key) hin
    rw [hupdates, hkey, List.mem_singleton] at hmem
    obtain ⟨rest, hrest⟩ := startsWith_iff.mp huser
    -- the name has one separator, which ends the user's id
    have hcount : (user.asStr ++ [sep] ++ rest).count sep = 1 := by
      rw [← hrest, hmem]
      decide
    have hnot : sep ∉ user.asStr := by
      rw [← List.count_eq_zero]
      rw [List.count_append, List.count_append, List.count_singleton_self] at hcount
      omega
    have hsplit : "@bob:o.tld".toList ++ sep :: "D".toList = user.asStr ++ sep :: rest := by
      rw [← hmem, hrest, List.append_assoc, List.singleton_append]
    have hbob : "@bob:o.tld".toList = user.asStr := (append_sep_inj (by decide) hnot hsplit).1
    left
    rw [UserId.serverName, ← hbob]
    decide

open SampleKeys SampleSend in
/-- An update that `o.tld` sends replaces the device keys of a user of `b.tld`. -/
theorem other_servers_device_keys_changed :
    ¬ ∀ (env : Env) (publicKeyB64 : PublicKeyB64) (s : Data), Served env publicKeyB64 s →
      ∀ (request : FederationRequest) (now : UInt64) (origin : Str) (txn : Json),
        origin ≠ env.serverName → Delivers env s request now origin txn →
          KeepsToOrigin env s request now txn origin := by
  intro h
  have hserved : Served env publicKeyB64 data := ⟨[.inr (.registerFederationKey "o.tld" "K")], rfl⟩
  have hdelivers : Delivers env data (send "@alice:b.tld") 7 "o.tld" (txn "@alice:b.tld") :=
    ⟨by decide +kernel, by decide +kernel, by decide +kernel, body_eq (by decide +kernel)⟩
  have hkeeps := h env publicKeyB64 data hserved (send "@alice:b.tld") 7 "o.tld" (txn "@alice:b.tld")
    (by decide) hdelivers
  have hsame := hkeeps.devices alice (by decide)
  revert hsame
  decide +kernel

end GaussMatrix.Svc
