import GaussMatrix.Http.Provenance

/-!
# Whose records a request writes

What the server keeps about a user is written by requests that carry a token of the user.  A claim may
draw a one-time key of anybody, and another server may write device keys under any name.
-/

namespace GaussMatrix.Http.Ingress

open Library Util Api Api.Events StateRes Svc Fed RoomService

/-- A record that the server keeps about a user: the family and the key. -/
inductive RecordOf (user : UserId) : Cf → Str → Prop
  | presence : RecordOf user .presence user.asStr
  | receipt (room : RoomId) : RecordOf user .receipts (receiptKey room user)
  | typing (room : RoomId) : RecordOf user .typing (receiptKey room user)
  | transaction (txnId : Str) : RecordOf user .transactions (txnKey user txnId)
  | deviceKeys (deviceId : Str) : RecordOf user .deviceKeys (user.asStr ++ sep :: deviceId)
  | oneTimeKey (deviceId keyId : Str) : RecordOf user .deviceOtk (otkPrefix user deviceId ++ keyId)
  | crossSigning (usage : Str) : RecordOf user .crossSigning (crossSigningName user usage)

/-- The families of such records. -/
def userFamilies : List Cf :=
  [.presence, .receipts, .typing, .transactions, .deviceKeys, .deviceOtk, .crossSigning]

/-- A signed transaction that writes the record as the keys of a device. -/
structure BringsDevice (env : ServerEnv) (x : Data × (Request × Clock)) (key : Str) (value : Record) :
    Prop where
  verified : verifyFederationRequest env.toEnv x.1 x.2.1.federation x.2.2.gate = true
  carried : ∃ txn update, Json.parse (x.2.1.body.getD []) = .ok txn ∧ update ∈ deviceUpdates txn ∧
    update.key = key ∧ value = .text update.keys

section

variable {env : ServerEnv} {s t : Data} {cf cf' : Cf} {key key' : Str} {value value' : Record}
  {user : UserId} {call : ServiceCall} {calls : List ServiceCall} {x : Request × Clock}

/-! ## What one call changes -/

theorem get_put_frame (h : ¬ (cf = cf' ∧ key = key')) :
    (s.put cf' key' value).get cf key = s.get cf key := by
  by_cases hcf : cf = cf'
  · subst hcf
    rw [Store.get_put, if_neg (fun hkey => h ⟨rfl, hkey⟩)]
  · rw [Store.get, Store.put_of_ne _ hcf, Store.get]

theorem get_delete_frame (h : ¬ (cf = cf' ∧ key = key')) :
    (s.delete cf' key').get cf key = s.get cf key := by
  by_cases hcf : cf = cf'
  · subst hcf
    rw [Store.get_delete, if_neg (fun hkey => h ⟨rfl, hkey⟩)]
  · have hsame : s.delete cf' key' cf = s cf := if_neg hcf
    rw [Store.get, hsame, Store.get]

/-- The families of user records are apart from those of rooms. -/
theorem ne_of_userFamily (hcf : cf ∈ userFamilies) :
    cf ≠ .events ∧ cf ≠ .roomState ∧ cf ≠ .eventStream := by
  refine ⟨?_, ?_, ?_⟩ <;> rintro rfl <;> revert hcf <;> decide

theorem get_append (hcf : cf ∈ userFamilies) (s : Data) (p : Pdu) (key : Str) :
    (append s p).get cf key = s.get cf key := by
  rw [Store.get, append_of_ne (ne_of_userFamily hcf), Store.get]

/-- An operation on rooms changes no record but the transaction of its caller. -/
theorem get_step (hcf : cf ∈ userFamilies) {op : Op} (hactor : opActor op = some user)
    (hkey : ¬ RecordOf user cf key) : (step env.toEnv s op).get cf key = s.get cf key := by
  cases op with
  | createRoom creator name topic now =>
      rw [step, Store.get, createRoom_of_ne (ne_of_userFamily hcf), Store.get]
  | changeMembership actor room target membership now =>
      simp only [step, changeMembership]
      split
      · rfl
      · exact get_append hcf _ _ _
  | sendMessage sender room eventType txnId content now =>
      obtain rfl := Option.some.inj hactor
      simp only [step, sendMessage]
      split
      · rfl
      · split
        · rfl
        · rw [get_put_frame, get_append hcf]
          rintro ⟨rfl, rfl⟩
          exact hkey (.transaction txnId)
  | receiveTransaction txn => cases hactor

theorem get_storeOneTimeKeys_frame {deviceId : Str} (keys : List (Str × Str)) (s : Data)
    (hkey : ¬ RecordOf user cf key) :
    (storeOneTimeKeys s user deviceId keys).2.get cf key = s.get cf key := by
  show (keys.foldl (fun s key => storeOneTimeKey s user deviceId key) s).get cf key = _
  induction keys generalizing s with
  | nil => rfl
  | cons stored keys ih =>
      rw [List.foldl_cons, ih, storeOneTimeKey, get_put_frame]
      rintro ⟨rfl, rfl⟩
      exact hkey (.oneTimeKey deviceId stored.1)

/-- A call changes the records of the user that it acts for only. -/
theorem get_of_actor (hcf : cf ∈ userFamilies) (hactor : call.actor = some user)
    (hkey : ¬ RecordOf user cf key) : (serviceStep env s call).get cf key = s.get cf key := by
  cases call with
  | ephemeral op =>
      cases op with
      | server op =>
          cases op with
          | room op => exact get_step hcf hactor hkey
          | setPresence caller presence statusMsg =>
              obtain rfl := Option.some.inj hactor
              apply get_put_frame
              rintro ⟨rfl, rfl⟩
              exact hkey .presence
      | setReadReceipt caller room eventId now =>
          obtain rfl := Option.some.inj hactor
          simp only [serviceStep, ephemeralStep, setReadReceipt]
          split
          · apply get_put_frame
            rintro ⟨rfl, rfl⟩
            exact hkey (.receipt room)
          · rfl
      | setTyping caller room typing timeoutMs now =>
          obtain rfl := Option.some.inj hactor
          have hne : ¬ (cf = .typing ∧ key = receiptKey room caller) := by
            rintro ⟨rfl, rfl⟩
            exact hkey (.typing room)
          simp only [serviceStep, ephemeralStep, setTyping]
          split
          · split
            · exact get_put_frame hne
            · exact get_delete_frame hne
          · rfl
  | keys call =>
      cases call with
      | storeDeviceKeys caller deviceId keys =>
          obtain rfl := Option.some.inj hactor
          apply get_put_frame
          rintro ⟨rfl, rfl⟩
          exact hkey (.deviceKeys deviceId)
      | storeOneTimeKeys caller deviceId keys =>
          obtain rfl := Option.some.inj hactor
          exact get_storeOneTimeKeys_frame keys s hkey
      | claimOneTimeKey target deviceId algorithm => cases hactor
  | storeCrossSigningKey caller usage keyJson =>
      obtain rfl := Option.some.inj hactor
      apply get_put_frame
      rintro ⟨rfl, rfl⟩
      exact hkey (.crossSigning usage)

/-- A claim draws a one-time key, and changes nothing else. -/
theorem get_claim (s : Data) (target : UserId) (deviceId algorithm : Str) (cf : Cf) (key : Str) :
    (claimOneTimeKey s target deviceId algorithm).2.get cf key = s.get cf key ∨
      cf = .deviceOtk ∧ (claimOneTimeKey s target deviceId algorithm).2.get cf key = none := by
  unfold claimOneTimeKey
  split
  · exact .inl rfl
  · rename_i e hpick
    split
    · exact .inl rfl
    · by_cases hdrawn : cf = .deviceOtk ∧ key = e.1
      · obtain ⟨rfl, rfl⟩ := hdrawn
        exact .inr ⟨rfl, by rw [Store.get_delete, if_pos rfl]⟩
      · exact .inl (get_delete_frame hdrawn)

/-- A transaction writes the device keys of its updates, and no other record. -/
theorem get_receiveTransaction (hcf : cf ∈ userFamilies) (s : Data) (txn : Json) (key : Str) :
    (receiveTransaction env.toEnv s txn).2.get cf key = s.get cf key ∨
      ∃ update ∈ deviceUpdates txn, cf = .deviceKeys ∧ update.key = key ∧
        (receiveTransaction env.toEnv s txn).2.get cf key = some (.text update.keys) := by
  by_cases hkeys : cf = .deviceKeys
  · subst hkeys
    rw [get_deviceKeys_receiveTransaction]
    cases hlast : lastUpdate txn key with
    | none => exact .inl rfl
    | some update =>
        have hmem := List.mem_reverse.mp (List.mem_of_find?_eq_some hlast)
        have hname := List.find?_some hlast
        exact .inr ⟨update, hmem, rfl, of_decide_eq_true hname, rfl⟩
  · left
    have hedus : ∀ (edus : List Edu) (t : Data), (edus.foldl receiveEdu t).get cf key = t.get cf key := by
      intro edus
      induction edus with
      | nil => exact fun _ => rfl
      | cons edu edus ih =>
          intro t
          rw [List.foldl_cons, ih, Store.get, receiveEdu_of_ne hkeys, Store.get]
    simp only [receiveTransaction]
    rw [hedus, run_receivePdu_data, Store.get, foldl_append_of_ne (ne_of_userFamily hcf), Store.get]
    rfl

/-! ## What a request changes -/

/-- Who a change of a record is owed to: a request of the user it is about, a claim, or a signed
transaction. -/
inductive Owed (env : ServerEnv) (s : Data) (x : Request × Clock) (cf : Cf) (key : Str) :
    Option Record → Prop
  | owner {user : UserId} {value : Option Record} (hreq : requester s x.1.toRequest = some user)
      (hrecord : RecordOf user cf key) : Owed env s x cf key value
  | claim {user : UserId} (hreq : requester s x.1.toRequest = some user) (hclaim : IsClaim x.1)
      (hcf : cf = .deviceOtk) : Owed env s x cf key none
  | signed {value : Record} (hcf : cf = .deviceKeys) (hbrings : BringsDevice env (s, x) key value) :
      Owed env s x cf key (some value)

/-- What a permitted call changes is owed to it. -/
theorem owed_of_call (hcf : cf ∈ userFamilies) (h : Permitted env s x.1 x.2.gate call)
    (hchange : (serviceStep env t call).get cf key ≠ t.get cf key) :
    Owed env s x cf key ((serviceStep env t call).get cf key) := by
  cases h with
  | acting hreq hactor hjson =>
      by_contra hnot
      apply hchange
      apply get_of_actor hcf hactor
      exact fun hrecord => hnot (.owner hreq hrecord)
  | claim hreq hclaim =>
      rename_i target deviceId algorithm
      have hclaimed := get_claim t target deviceId algorithm cf key
      rcases hclaimed with hsame | ⟨hotk, hnone⟩
      · exact absurd hsame hchange
      · have hdrawn : (serviceStep env t (.keys (.claimOneTimeKey target deviceId algorithm))).get cf key =
            none := hnone
        rw [hdrawn]
        exact .claim hreq hclaim hotk
  | transaction hverified hparse =>
      rename_i txn
      rcases get_receiveTransaction hcf t txn key with hsame | ⟨update, hmem, hkeys, hname, hvalue⟩
      · exact absurd hsame hchange
      · have hwritten : (serviceStep env t (roomCall (.receiveTransaction txn))).get cf key =
            some (.text update.keys) := hvalue
        rw [hwritten]
        exact .signed hkeys ⟨hverified, txn, update, hparse, hmem, hname, rfl⟩

-- A login writes no such record; the calls of another request go one by one.
theorem owed_of_request (hcf : cf ∈ userFamilies) {value : Option Record}
    (hold : s.get cf key ≠ value) (hnew : (requestStep env s x).get cf key = value) :
    Owed env s x cf key value := by
  have hcalls : ∀ calls : List ServiceCall, (∀ c ∈ calls, Permitted env s x.1 x.2.gate c) →
      (run (serviceStep env) s calls).get cf key = value → Owed env s x cf key value := by
    intro calls hpermitted hlast
    obtain ⟨y, hy, hbefore, hafter⟩ :=
      exists_change_of_run (P := fun t : Data => t.get cf key = value) hold hlast
    rw [← hafter]
    apply owed_of_call hcf (hpermitted _ (mem_of_mem_trace hy))
    rw [hafter]
    exact Ne.symm hbefore
  unfold requestStep at hnew
  rcases handle_cases env s x.1 x.2 with hlogin | hserved
  · rw [hlogin] at hnew
    have hne : cf ≠ .accessTokens := by
      rintro rfl
      revert hcf
      decide
    rcases serveLogin_cases env s x.1.body with ⟨-, hsame⟩ | ⟨_, _, _, _, _, -, -, -, -, -, hdone⟩
    · rw [hsame] at hnew
      exact absurd hnew hold
    · rw [hdone] at hnew
      exact absurd ((get_put_frame fun h => hne h.1).symm.trans hnew) hold
  · generalize handle env s x.1 x.2 = r at hserved hnew
    cases hserved with
    | refused _ => exact absurd hnew hold
    | partly _ _ hallowed => exact hcalls _ hallowed hnew
    | answered _ hallowed => exact hcalls _ hallowed hnew

end

/-- Over every run of requests on a server that nobody is logged in to, a record of a user that is
another at the end was made so by a request with a token from a login of the user, with the password of
the account, earlier in the run; or it is a one-time key that a request with somebody's token claimed,
or the keys of a device that another server signed. -/
theorem records_changed_by_owner (env : ServerEnv) (s : Data)
    (hfresh : ∀ token, SessionStore.userFor s token = none) (xs : List (Request × Clock)) (cf : Cf)
    (key : Str) (hcf : cf ∈ userFamilies)
    (hchange : s.get cf key ≠ (run (requestStep env) s xs).get cf key) :
    (∃ login request user token, [login, request].Sublist (trace (requestStep env) s xs) ∧
      LogsIn env s login user token ∧
      accessToken request.2.1.authorization request.2.1.target = some token ∧
      (RecordOf user cf key ∨
        cf = .deviceOtk ∧ IsClaim request.2.1 ∧ (run (requestStep env) s xs).get cf key = none)) ∨
    cf = .deviceKeys ∧ ∃ request ∈ trace (requestStep env) s xs, ∃ value,
      (run (requestStep env) s xs).get cf key = some value ∧ BringsDevice env request key value := by
  generalize hvalue : (run (requestStep env) s xs).get cf key = value at hchange
  obtain ⟨request, hmem, hbefore, hafter⟩ :=
    exists_change_of_run (P := fun t : Data => t.get cf key = value) hchange hvalue
  cases owed_of_request hcf hbefore hafter with
  | owner hreq hrecord =>
      obtain ⟨login, token, hsub, hlogin, htoken⟩ := login_before hfresh hmem hreq
      exact .inl ⟨login, request, _, token, hsub, hlogin, htoken, .inl hrecord⟩
  | claim hreq hclaim hotk =>
      obtain ⟨login, token, hsub, hlogin, htoken⟩ := login_before hfresh hmem hreq
      exact .inl ⟨login, request, _, token, hsub, hlogin, htoken, .inr ⟨hotk, hclaim, rfl⟩⟩
  | signed hkeys hbrings => exact .inr ⟨hkeys, request, hmem, _, rfl, hbrings⟩

namespace SampleRequests

/-- Alice sets her presence with the token of her login. -/
def presenceRequest : Request where
  method := .put
  target := "/_matrix/client/v3/presence/@a:x/status"
  authorization := some "Bearer gmt_0000000000000000"
  body := some "\x7b\"presence\":\"online\"\x7d"

def presenceRequests : List (Request × Clock) := [(loginRequest, clock), (presenceRequest, clock)]

end SampleRequests

open SampleRequests in
theorem records_changed_by_owner_presence :
    (∃ login request user token,
      [login, request].Sublist (trace (requestStep SampleRequests.env) registered presenceRequests) ∧
      LogsIn SampleRequests.env registered login user token ∧
      accessToken request.2.1.authorization request.2.1.target = some token ∧
      (RecordOf user .presence "@a:x" ∨ Cf.presence = .deviceOtk ∧ IsClaim request.2.1 ∧
        (run (requestStep SampleRequests.env) registered presenceRequests).get .presence "@a:x" =
          none)) ∨
    Cf.presence = .deviceKeys ∧
      ∃ request ∈ trace (requestStep SampleRequests.env) registered presenceRequests, ∃ value,
        (run (requestStep SampleRequests.env) registered presenceRequests).get .presence "@a:x" =
          some value ∧ BringsDevice SampleRequests.env request "@a:x" value :=
  records_changed_by_owner SampleRequests.env registered userFor_registered presenceRequests .presence
    "@a:x" (by decide) (by decide +kernel)

end GaussMatrix.Http.Ingress
