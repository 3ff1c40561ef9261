import GaussMatrix.Http.Provenance

/-!
# One-time keys over the ingress

A one-time key leaves the store only by the answer to a claim, which has it under its user and its
device.  So a key that is handed out twice was uploaded again in between.
-/

namespace GaussMatrix.Http.Ingress

open Library Util Api Api.Events StateRes Svc Fed RoomService DeviceKeyStore

/-! ## Answers with keys -/

/-- The value at a path of keys. -/
def valueAt (v : Json) : List Str → Option Json
  | [] => some v
  | k :: path => (v.get k).bind fun w => valueAt w path

/-- The answer is a document with the text of the key under its user and its device. -/
def Lists (r : Response) (user device keyId json : Str) : Prop :=
  ∃ doc key, r = .jsonOk doc.write ∧
    valueAt doc ["one_time_keys", user, device, keyId] = some key ∧ key.write = json

/-- The request is a claim and its answer has the key with the name. -/
def HandsOut (env : ServerEnv) (x : Data × (Request × Clock)) (name json : Str) : Prop :=
  IsClaim x.2.1 ∧ ∃ user device keyId, name = otkPrefix user device ++ keyId ∧
    Lists (handle env x.1 x.2.1 x.2.2).1 user.asStr device keyId json

/-- The request stores a key with the name for the user of its token. -/
def Uploads (env : ServerEnv) (x : Data × (Request × Clock)) (name : Str) : Prop :=
  ∃ owner device keyId, requester x.1 x.2.1.toRequest = some owner ∧
    name = otkPrefix owner device ++ keyId ∧
      x.1.get .deviceOtk name = none ∧ ((requestStep env x.1 x.2).get .deviceOtk name).isSome

/-- Every one-time key in the store is a JSON text. -/
def JsonKeys (s : Data) : Prop :=
  ∀ name value, s.get .deviceOtk name = some value → ∃ json, value = .text json ∧ IsWritten json

section

variable {env : ServerEnv} {s t u : Data} {L L' : Str → Str → Prop} {user : UserId} {name : Str}
  {req : Request} {clock : Clock}

theorem valueAt_written (v : Json) (path : List Str) :
    valueAt v.written path = (valueAt v path).map Json.written := by
  induction path generalizing v with
  | nil => rfl
  | cons k path ih =>
      rw [valueAt, valueAt, Json.get_written]
      cases v.get k with
      | none => rfl
      | some w => exact ih w

theorem JsonKeys.text (h : JsonKeys s) : TextKeys s := by
  intro name value hget
  obtain ⟨json, htext, -⟩ := h name value hget
  exact ⟨json, htext⟩

/-! ## Drawing keys -/

/-- The second data lack the keys listed, which the first have, and are otherwise the same. -/
structure Draws (s t : Data) (L : Str → Str → Prop) : Prop where
  gone : ∀ name json, L name json →
    s.get .deviceOtk name = some (.text json) ∧ t.get .deviceOtk name = none
  kept : ∀ name, t.get .deviceOtk name = s.get .deviceOtk name ∨ ∃ json, L name json

theorem Draws.nothing (s : Data) : Draws s s fun _ _ => False where
  gone := fun _ _ h => h.elim
  kept := fun _ => .inl rfl

theorem Draws.congr (h : Draws s t L) (hiff : ∀ name json, L' name json ↔ L name json) :
    Draws s t L' where
  gone := fun name json hkey => h.gone name json ((hiff name json).mp hkey)
  kept := by
    intro name
    rcases h.kept name with hsame | ⟨json, hkey⟩
    · exact .inl hsame
    · exact .inr ⟨json, (hiff name json).mpr hkey⟩

/-- Drawing twice draws both lists, which have no name in common. -/
theorem Draws.trans (h : Draws s t L) (h' : Draws t u L') :
    Draws s u fun name json => L name json ∨ L' name json where
  gone := by
    intro name json hkey
    rcases hkey with hkey | hkey
    · obtain ⟨hstored, hgone⟩ := h.gone name json hkey
      refine ⟨hstored, ?_⟩
      rcases h'.kept name with hsame | ⟨json', hkey'⟩
      · exact hsame.trans hgone
      · exact (h'.gone name json' hkey').2
    · obtain ⟨hstored, hgone⟩ := h'.gone name json hkey
      refine ⟨?_, hgone⟩
      -- the second list has only keys that the first left
      rcases h.kept name with hsame | ⟨json', hkey'⟩
      · exact hsame.symm.trans hstored
      · rw [(h.gone name json' hkey').2] at hstored
        cases hstored
  kept := by
    intro name
    rcases h'.kept name with hsame' | ⟨json, hkey⟩
    · rcases h.kept name with hsame | ⟨json, hkey⟩
      · exact .inl (hsame'.trans hsame)
      · exact .inr ⟨json, .inl hkey⟩
    · exact .inr ⟨json, .inr hkey⟩

theorem Draws.gone_iff (h : Draws s t L) {json : Str} :
    L name json ↔ s.get .deviceOtk name = some (.text json) ∧ t.get .deviceOtk name = none := by
  constructor
  · exact h.gone name json
  · rintro ⟨hstored, hgone⟩
    rcases h.kept name with hsame | ⟨json', hkey⟩
    · rw [hgone, hstored] at hsame
      cases hsame
    · obtain rfl := Record.text.inj (Option.some.inj (hstored.symm.trans (h.gone name json' hkey).1))
      exact hkey

theorem JsonKeys.draws (hjson : JsonKeys s) (h : Draws s t L) : JsonKeys t := by
  intro name value hget
  rcases h.kept name with hsame | ⟨json, hkey⟩
  · exact hjson name value (hsame ▸ hget)
  · rw [(h.gone name json hkey).2] at hget
    cases hget

/-! ## The loops of a claim -/

/-- The devices of the user have the key with the name. -/
def ListedBy (user : UserId) (devices : List (Str × Json)) (name json : Str) : Prop :=
  ∃ device keyId keys key, name = otkPrefix user device ++ keyId ∧ (device, keys) ∈ devices ∧
    keys.get keyId = some key ∧ key.write = json

/-- The users have the key with the name. -/
def Listed (users : List (Str × Json)) (name json : Str) : Prop :=
  ∃ user device keyId devices keys key, name = otkPrefix user device ++ keyId ∧
    (user.asStr, devices) ∈ users ∧ devices.get device = some keys ∧ keys.get keyId = some key ∧
      key.write = json

theorem get_ofFields_single (k k' : Str) (v w : Json) :
    (Json.ofFields [(k, v)]).get k' = some w ↔ k' = k ∧ v = w := by
  have hnodup : (([(k, v)] : List (Str × Json)).map Prod.fst).Nodup := List.nodup_singleton _
  rw [Json.get_ofFields hnodup, Json.lookup_cons]
  by_cases hk : k' = k
  · simp [hk]
  · simp [hk]

theorem claimDevices_keys (devices : List (Str × Json)) (s : Data) :
    ((claimDevices user devices s).1.map Prod.fst).Sublist (devices.map Prod.fst) := by
  induction devices generalizing s with
  | nil => exact .slnil
  | cons entry rest ih =>
      obtain ⟨device, value⟩ := entry
      rw [claimDevices]
      split
      · exact (ih s).cons device
      · split
        · exact (ih _).cons device
        · rename_i keyId keyJson s' hclaim
          dsimp only
          split
          · exact (ih s').cons_cons device
          · exact (ih s').cons device

/-- The claims of a user's devices draw the keys that they list. -/
theorem claimDevices_draws (hjson : JsonKeys s) (devices : List (Str × Json)) :
    Draws s (claimDevices user devices s).2 (ListedBy user (claimDevices user devices s).1) := by
  induction devices generalizing s with
  | nil =>
      have hnone : ∀ name json, ListedBy user [] name json ↔ False := by simp [ListedBy]
      exact (Draws.nothing s).congr hnone
  | cons entry rest ih =>
      obtain ⟨device, value⟩ := entry
      rw [claimDevices]
      split
      · exact ih hjson
      · rename_i algorithm halgorithm
        rcases claimOneTimeKey_cases hjson.text user device algorithm with
          ⟨-, hcall⟩ | ⟨keyId, json, hget, -, hcall⟩
        · rw [hcall]
          exact ih hjson
        · obtain ⟨json', htext, key, hparse, hwrite⟩ := hjson _ _ hget
          obtain rfl := Record.text.inj htext
          have hdraws : Draws s (s.delete .deviceOtk (otkPrefix user device ++ keyId))
              fun name json' => name = otkPrefix user device ++ keyId ∧ json' = json := by
            constructor
            · rintro name json' ⟨rfl, rfl⟩
              refine ⟨hget, ?_⟩
              rw [Store.get_delete, if_pos rfl]
            · intro name
              rw [Store.get_delete]
              by_cases hname : name = otkPrefix user device ++ keyId
              · exact .inr ⟨json, hname, rfl⟩
              · rw [if_neg hname]
                exact .inl rfl
          -- the key that is drawn parses, so it is listed
          rw [hcall]
          simp only [hparse]
          apply (hdraws.trans (ih (hjson.draws hdraws))).congr
          intro name json'
          constructor
          · rintro ⟨device', keyId', keys, key', hname, hmem, hlookup, hwrite'⟩
            rcases List.mem_cons.mp hmem with hhead | hrest
            · obtain ⟨rfl, rfl⟩ := Prod.mk.inj hhead
              obtain ⟨rfl, rfl⟩ := (get_ofFields_single _ _ _ _).mp hlookup
              exact .inl ⟨hname, hwrite'.symm.trans hwrite⟩
            · exact .inr ⟨device', keyId', keys, key', hname, hrest, hlookup, hwrite'⟩
          · rintro (⟨rfl, rfl⟩ | ⟨device', keyId', keys, key', hname, hmem, hlookup, hwrite'⟩)
            · exact ⟨device, keyId, _, key, rfl, List.mem_cons_self,
                (get_ofFields_single _ _ _ _).mpr ⟨rfl, rfl⟩, hwrite⟩
            · exact ⟨device', keyId', keys, key', hname, List.mem_cons_of_mem _ hmem, hlookup, hwrite'⟩

theorem claimUsers_keys (users : List (Str × Json)) (s : Data) :
    ((claimUsers users s).1.map Prod.fst).Sublist (users.map Prod.fst) := by
  induction users generalizing s with
  | nil => exact .slnil
  | cons entry rest ih =>
      obtain ⟨userId, devices⟩ := entry
      rw [claimUsers]
      split
      · rename_i user devices huser hdevices
        dsimp only
        split
        · exact (ih _).cons userId
        · exact (ih _).cons_cons userId
      · exact (ih s).cons userId

theorem lookup_iff_mem {fields : List (Str × Json)} {k : Str} {v : Json}
    (hnodup : (fields.map Prod.fst).Nodup) : fields.lookup k = some v ↔ (k, v) ∈ fields := by
  apply SortedList.lookup_eq_some_iff_mem
  intro v₁ v₂ h₁ h₂
  exact congrArg Prod.snd (List.inj_on_of_nodup_map hnodup h₁ h₂ rfl)

/-- The keys of an ordered object are different. -/
theorem nodup_of_ordered {v : Json} {fields : List (Str × Json)} (hv : Json.Ordered v)
    (hfields : v.asObject = some fields) : (fields.map Prod.fst).Nodup := by
  cases v with
  | object members =>
      obtain rfl := Option.some.inj hfields
      have hsorted := of_decide_eq_true (Json.everywhere_object.mp hv).1
      exact List.pairwise_map.mpr (hsorted.imp fun h => ne_of_lt h)
  | _ => cases hfields

/-- The claims of a request draw the keys that they list. -/
theorem claimUsers_draws (hjson : JsonKeys s) {users : List (Str × Json)}
    (hordered : ∀ f ∈ users, Json.Ordered f.2) :
    Draws s (claimUsers users s).2 (Listed (claimUsers users s).1) := by
  induction users generalizing s with
  | nil =>
      have hnone : ∀ name json, Listed [] name json ↔ False := by simp [Listed]
      exact (Draws.nothing s).congr hnone
  | cons entry rest ih =>
      obtain ⟨userId, value⟩ := entry
      obtain ⟨hhead, hrest⟩ := List.forall_mem_cons.mp hordered
      rw [claimUsers]
      split
      · rename_i user devices huser hdevices
        have hdraws : Draws s (claimDevices user devices s).2
            (ListedBy user (claimDevices user devices s).1) := claimDevices_draws hjson devices
        have hnodup : ((claimDevices user devices s).1.map Prod.fst).Nodup :=
          (nodup_of_ordered hhead hdevices).sublist (claimDevices_keys devices s)
        have hname : user.asStr = userId := UserId.asStr_of_parse huser
        apply (hdraws.trans (ih (hjson.draws hdraws) hrest)).congr
        generalize claimDevices user devices s = drawn at hnodup
        obtain ⟨byDevice, s'⟩ := drawn
        dsimp only
        intro name json
        -- a device of the user is listed where the user is
        have hget : ∀ device keys, (Json.ofFields byDevice).get device = some keys ↔
            (device, keys) ∈ byDevice := by
          intro device keys
          rw [Json.get_ofFields hnodup]
          exact lookup_iff_mem hnodup
        by_cases hempty : byDevice = []
        · -- a user none of whose devices had a key is left out
          subst hempty
          simp [ListedBy]
        · rw [if_neg (by simpa using hempty)]
          constructor
          · rintro ⟨user', device, keyId, devices', keys, key, rfl, hmem, hdevice, hkey⟩
            rcases List.mem_cons.mp hmem with hhead | hlater
            · obtain ⟨huser', rfl⟩ := Prod.mk.inj hhead
              obtain rfl : user' = user := UserId.ext (huser'.trans hname.symm)
              exact .inl ⟨device, keyId, keys, key, rfl, (hget device keys).mp hdevice, hkey⟩
            · exact .inr ⟨user', device, keyId, devices', keys, key, rfl, hlater, hdevice, hkey⟩
          · rintro (⟨device, keyId, keys, key, rfl, hmem, hkey⟩ |
              ⟨user', device, keyId, devices', keys, key, rfl, hmem, hdevice, hkey⟩)
            · rw [← hname]
              exact ⟨user, device, keyId, _, keys, key, rfl, List.mem_cons_self,
                (hget device keys).mpr hmem, hkey⟩
            · exact ⟨user', device, keyId, devices', keys, key, rfl, List.mem_cons_of_mem _ hmem,
                hdevice, hkey⟩
      · exact ih hjson hrest

/-! ## The answer to a claim -/

/-- A claim that is not refused is given to its handler. -/
theorem handle_claim (hclaim : IsClaim req) (hok : (handle env s req clock).1.status = 200) :
    handle env s req clock = serveKeysClaim s req.body := by
  obtain ⟨m, hresolve, hmethod, hpath⟩ := hclaim
  have hroute : routes.lookup (Method.post, claimPath) =
      some fun _ s c => serveKeysClaim s c.req.body := rfl
  unfold handle at hok ⊢
  rw [hresolve] at hok ⊢
  dsimp only at hok ⊢
  cases hauth : authenticate env s m req clock.gate with
  | error refused =>
      obtain ⟨e, rfl⟩ := authenticate_refused hauth
      rw [hauth] at hok
      cases hok
  | ok user =>
      dsimp only
      rw [serve, hmethod, hpath, hroute]

/-- The document of a claim has a key where the users that it lists have it. -/
theorem valueAt_claimed {users : List (Str × Json)} (hnodup : (users.map Prod.fst).Nodup)
    (userId device keyId : Str) (key : Json) :
    valueAt (.ofFields [("one_time_keys", .ofFields users)])
        ["one_time_keys", userId, device, keyId] = some key ↔
      ∃ devices keys, (userId, devices) ∈ users ∧ devices.get device = some keys ∧
        keys.get keyId = some key := by
  have hdoc : (Json.ofFields [("one_time_keys", Json.ofFields users)]).get "one_time_keys" =
      some (.ofFields users) := (get_ofFields_single _ _ _ _).mpr ⟨rfl, rfl⟩
  simp only [valueAt, hdoc, Option.bind_some, Json.get_ofFields hnodup, Option.bind_eq_some_iff,
    lookup_iff_mem hnodup, Option.some.injEq]
  constructor
  · rintro ⟨devices, hdevices, keys, hkeys, key', hkey, rfl⟩
    exact ⟨devices, keys, hdevices, hkeys, hkey⟩
  · rintro ⟨devices, keys, hdevices, hkeys, hkey⟩
    exact ⟨devices, hdevices, keys, hkeys, key, hkey, rfl⟩

/-- A parsed claim names each user once, and each of the user's devices. -/
theorem claimRequest_ordered {text : Str} {v : Json} (hparse : Json.parse text = .ok v) :
    ((claimRequest v).map Prod.fst).Nodup ∧ ∀ f ∈ claimRequest v, Json.Ordered f.2 := by
  unfold claimRequest
  cases hkeys : (v.get "one_time_keys").bind Json.asObject with
  | none => exact ⟨List.nodup_nil, by simp⟩
  | some members =>
      obtain ⟨otk, hget, hotk⟩ := Option.bind_eq_some_iff.mp hkeys
      have hmembers : Printable otk := Printable.get (Json.fits_of_parse hparse) hget
      exact ⟨nodup_of_ordered hmembers.2 hotk, fun f hf => (printable_of_mem hmembers hotk hf).2⟩

/-- A claim that is answered draws the keys that its answer has. -/
theorem serveKeysClaim_draws (hjson : JsonKeys s) {body : Option Str}
    (hok : (serveKeysClaim s body).1.status = 200) :
    ∃ users, (serveKeysClaim s body).1 =
        .jsonOk (Json.ofFields [("one_time_keys", .ofFields users)]).write ∧
      (users.map Prod.fst).Nodup ∧ Draws s (serveKeysClaim s body).2 (Listed users) := by
  unfold serveKeysClaim at hok ⊢
  split
  · rename_i fields hparse
    obtain ⟨hkeys, hordered⟩ := claimRequest_ordered hparse
    exact ⟨_, rfl, hkeys.sublist (claimUsers_keys _ s), claimUsers_draws hjson hordered⟩
  · rename_i hnone
    split at hok
    · rename_i fields hparse
      exact absurd hparse (hnone fields)
    · cases hok

/-! ## One-time keys under calls -/

theorem get_storeOneTimeKeys (keys : List (Str × Str)) (s : Data) (user : UserId) (device name : Str) :
    (storeOneTimeKeys s user device keys).2.get .deviceOtk name = s.get .deviceOtk name ∨
      ∃ key ∈ keys, name = otkPrefix user device ++ key.1 ∧
        (storeOneTimeKeys s user device keys).2.get .deviceOtk name = some (.text key.2) := by
  induction keys generalizing s with
  | nil => exact .inl rfl
  | cons key keys ih =>
      rcases ih (storeOneTimeKey s user device key) with hsame | ⟨key', hmem, hname, hget⟩
      · by_cases hname : name = otkPrefix user device ++ key.1
        · refine .inr ⟨key, List.mem_cons_self, hname, hsame.trans ?_⟩
          rw [storeOneTimeKey, Store.get_put, if_pos hname]
        · refine .inl (hsame.trans ?_)
          rw [storeOneTimeKey, Store.get_put, if_neg hname]
      · exact .inr ⟨key', List.mem_cons_of_mem _ hmem, hname, hget⟩

/-- What a call does to a one-time key: nothing, or it is an upload of the key or a claim that takes
it. -/
theorem serviceStep_otk (env : ServerEnv) (hjson : JsonKeys s) (call : ServiceCall) (name : Str) :
    (serviceStep env s call).get .deviceOtk name = s.get .deviceOtk name ∨
    (∃ owner device keys, call = .keys (.storeOneTimeKeys owner device keys) ∧
      ∃ key ∈ keys, name = otkPrefix owner device ++ key.1 ∧
        (serviceStep env s call).get .deviceOtk name = some (.text key.2)) ∨
    (∃ target device algorithm, call = .keys (.claimOneTimeKey target device algorithm) ∧
      (serviceStep env s call).get .deviceOtk name = none) := by
  cases call with
  | ephemeral op =>
      left
      show (ephemeralStep env.toEnv s op .deviceOtk).get name = _
      rw [ephemeralStep_of_ne (by decide) s op]
      rfl
  | keys call =>
      cases call with
      | storeDeviceKeys user device keys => exact .inl rfl
      | storeOneTimeKeys user device keys =>
          rcases get_storeOneTimeKeys keys s user device name with hsame | hstored
          · exact .inl hsame
          · exact .inr (.inl ⟨user, device, keys, rfl, hstored⟩)
      | claimOneTimeKey target device algorithm =>
          show (claimOneTimeKey s target device algorithm).2.get .deviceOtk name = _ ∨ _
          rcases claimOneTimeKey_cases hjson.text target device algorithm with
            ⟨-, hcall⟩ | ⟨keyId, json, -, -, hcall⟩
          · rw [hcall]
            exact .inl rfl
          · by_cases hname : name = otkPrefix target device ++ keyId
            · refine .inr (.inr ⟨target, device, algorithm, rfl, ?_⟩)
              show (claimOneTimeKey s target device algorithm).2.get .deviceOtk name = none
              rw [hcall, Store.get_delete, if_pos hname]
            · rw [hcall, Store.get_delete, if_neg hname]
              exact .inl rfl
  | storeCrossSigningKey user usage keyJson => exact .inl rfl

theorem JsonKeys.step (hjson : JsonKeys s) {call : ServiceCall} (hcall : call.StoresJson) :
    JsonKeys (serviceStep env s call) := by
  intro name value hget
  rcases serviceStep_otk env hjson call name with
    hsame | ⟨owner, device, keys, rfl, key, hkey, -, hstored⟩ | ⟨_, _, _, -, hnone⟩
  · exact hjson name value (hsame ▸ hget)
  · obtain rfl := Option.some.inj (hget.symm.trans hstored)
    exact ⟨key.2, rfl, hcall key hkey⟩
  · rw [hnone] at hget
    cases hget

theorem JsonKeys.run (hjson : JsonKeys s) {calls : List ServiceCall}
    (hcalls : ∀ c ∈ calls, c.StoresJson) : JsonKeys (run (serviceStep env) s calls) := by
  induction calls generalizing s with
  | nil => exact hjson
  | cons call calls ih =>
      obtain ⟨hcall, hrest⟩ := List.forall_mem_cons.mp hcalls
      exact ih (hjson.step hcall) hrest

/-- A key that calls bring was stored by one of them. -/
theorem upload_of_calls (hjson : JsonKeys s) {calls : List ServiceCall}
    (hcalls : ∀ c ∈ calls, c.StoresJson) (hbefore : s.get .deviceOtk name = none)
    (hafter : ((run (serviceStep env) s calls).get .deviceOtk name).isSome) :
    ∃ owner device keys, .keys (.storeOneTimeKeys owner device keys) ∈ calls ∧
      ∃ key ∈ keys, name = otkPrefix owner device ++ key.1 := by
  induction calls generalizing s with
  | nil =>
      rw [run_nil, hbefore] at hafter
      cases hafter
  | cons call calls ih =>
      obtain ⟨hcall, hrest⟩ := List.forall_mem_cons.mp hcalls
      rcases serviceStep_otk env hjson call name with
        hsame | ⟨owner, device, keys, rfl, key, hkey, hname, -⟩ | ⟨_, _, _, -, hnone⟩
      · obtain ⟨owner, device, keys, hmem, hkey⟩ :=
          ih (hjson.step hcall) hrest (hsame.trans hbefore) hafter
        exact ⟨owner, device, keys, List.mem_cons_of_mem _ hmem, hkey⟩
      · exact ⟨owner, device, keys, List.mem_cons_self, key, hkey, hname⟩
      · obtain ⟨owner, device, keys, hmem, hkey⟩ :=
          ih (hjson.step hcall) hrest hnone hafter
        exact ⟨owner, device, keys, List.mem_cons_of_mem _ hmem, hkey⟩

/-- A key that calls take was claimed by one of them. -/
theorem claim_of_calls (hjson : JsonKeys s) {calls : List ServiceCall}
    (hcalls : ∀ c ∈ calls, c.StoresJson) (hbefore : (s.get .deviceOtk name).isSome)
    (hafter : (run (serviceStep env) s calls).get .deviceOtk name = none) :
    ∃ target device algorithm, .keys (.claimOneTimeKey target device algorithm) ∈ calls := by
  induction calls generalizing s with
  | nil =>
      rw [run_nil] at hafter
      rw [hafter] at hbefore
      cases hbefore
  | cons call calls ih =>
      obtain ⟨hcall, hrest⟩ := List.forall_mem_cons.mp hcalls
      have hlater : ((serviceStep env s call).get .deviceOtk name).isSome →
          ∃ target device algorithm,
            .keys (.claimOneTimeKey target device algorithm) ∈ call :: calls := by
        intro hsome
        obtain ⟨target, device, algorithm, hmem⟩ := ih (hjson.step hcall) hrest hsome hafter
        exact ⟨target, device, algorithm, List.mem_cons_of_mem _ hmem⟩
      rcases serviceStep_otk env hjson call name with
        hsame | ⟨_, _, _, -, key, -, -, hstored⟩ | ⟨target, device, algorithm, rfl, -⟩
      · exact hlater (hsame ▸ hbefore)
      · exact hlater (by rw [hstored]; rfl)
      · exact ⟨target, device, algorithm, List.mem_cons_self⟩

/-! ## One-time keys under requests -/

theorem Permitted.storesJson {gate : UInt64} {call : ServiceCall} (h : Permitted env s req gate call) :
    call.StoresJson := by
  cases h with
  | acting _ _ hjson => exact hjson
  | claim _ _ => exact trivial
  | transaction _ _ => exact trivial

/-- What a request does to the one-time keys, the calls that it may make do. -/
theorem otk_of_request (env : ServerEnv) (s : Data) (x : Request × Clock) :
    ∃ calls : List ServiceCall, (∀ c ∈ calls, Permitted env s x.1 x.2.gate c) ∧
      requestStep env s x .deviceOtk = run (serviceStep env) s calls .deviceOtk ∧
      ((handle env s x.1 x.2).1.status ≠ 200 →
        ∀ target device algorithm, .keys (.claimOneTimeKey target device algorithm) ∉ calls) := by
  unfold requestStep
  rcases handle_cases env s x.1 x.2 with hlogin | hserved
  · refine ⟨[], by simp, ?_, by simp⟩
    rw [hlogin]
    rcases serveLogin_cases env s x.1.body with ⟨-, hsame⟩ | ⟨_, _, _, _, _, -, -, -, -, -, hdone⟩
    · rw [hsame]
      rfl
    · rw [hdone]
      rfl
  · generalize handle env s x.1 x.2 = r at hserved
    cases hserved with
    | refused _ => exact ⟨[], by simp, rfl, by simp⟩
    | @partly _ calls _ hkeys hallowed =>
        refine ⟨calls, hallowed, rfl, ?_⟩
        intro _ target device algorithm hmem
        obtain ⟨_, _, _, hkey⟩ := hkeys _ hmem
        cases hkey
    | @answered _ calls hok hallowed => exact ⟨calls, hallowed, rfl, fun h => absurd hok h⟩

theorem JsonKeys.request (hjson : JsonKeys s) (x : Request × Clock) :
    JsonKeys (requestStep env s x) := by
  obtain ⟨calls, hcalls, hotk, -⟩ := otk_of_request env s x
  have hrun : JsonKeys (Library.run (serviceStep env) s calls) :=
    hjson.run fun c hc => (hcalls c hc).storesJson
  intro name value hget
  unfold Store.get at hget
  rw [hotk] at hget
  exact hrun name value hget

/-- The answer to a claim has the keys that the request takes, and no others. -/
theorem claim_answer (hjson : JsonKeys s) {x : Request × Clock} (hclaim : IsClaim x.1)
    (hok : (handle env s x.1 x.2).1.status = 200) :
    Draws s (requestStep env s x) (HandsOut env (s, x)) := by
  have hhandle := handle_claim hclaim hok
  rw [hhandle] at hok
  obtain ⟨users, hanswer, hnodup, hdraws⟩ := serveKeysClaim_draws hjson hok
  unfold requestStep
  rw [hhandle]
  apply hdraws.congr
  intro name json
  constructor
  · rintro ⟨-, user, device, keyId, rfl, doc, key, hdoc, hvalue, hwrite⟩
    dsimp only at hdoc
    rw [hhandle, hanswer] at hdoc
    -- two documents with one text have the same keys, up to what writing loses
    have hwritten := Json.written_eq_of_write_eq (congrArg Response.body hdoc)
    have hsame := valueAt_written doc ["one_time_keys", user.asStr, device, keyId]
    rw [hvalue, ← hwritten, valueAt_written] at hsame
    obtain ⟨key', hvalue', hkey'⟩ := Option.map_eq_some_iff.mp hsame
    obtain ⟨devices, keys, hmem, hdevice, hkey⟩ := (valueAt_claimed hnodup _ _ _ _).mp hvalue'
    refine ⟨user, device, keyId, devices, keys, key', rfl, hmem, hdevice, hkey, ?_⟩
    rw [← Json.write_written key', hkey', Json.write_written, hwrite]
  · rintro ⟨user, device, keyId, devices, keys, key, rfl, hmem, hdevice, hkey, hwrite⟩
    refine ⟨hclaim, user, device, keyId, rfl, _, key, ?_,
      (valueAt_claimed hnodup _ _ _ _).mpr ⟨devices, keys, hmem, hdevice, hkey⟩, hwrite⟩
    dsimp only
    rw [hhandle, hanswer]

/-- An answer has a one-time key exactly when the request takes the key. -/
theorem handsOut_iff (hjson : JsonKeys s) (x : Request × Clock) (json : Str) :
    HandsOut env (s, x) name json ↔ s.get .deviceOtk name = some (.text json) ∧
      (requestStep env s x).get .deviceOtk name = none := by
  constructor
  · intro hout
    obtain ⟨hclaim, user, device, keyId, -, doc, key, hdoc, -, -⟩ := id hout
    exact (claim_answer hjson hclaim (congrArg Response.status hdoc)).gone name json hout
  · rintro ⟨hstored, hgone⟩
    obtain ⟨calls, hcalls, hotk, hrefused⟩ := otk_of_request env s x
    have hsome : (s.get .deviceOtk name).isSome := by
      rw [hstored]
      rfl
    have hafter : (run (serviceStep env) s calls).get .deviceOtk name = none := by
      unfold Store.get at hgone ⊢
      rw [← hotk]
      exact hgone
    obtain ⟨target, device, algorithm, hmem⟩ :=
      claim_of_calls hjson (fun c hc => (hcalls c hc).storesJson) hsome hafter
    have hclaim : IsClaim x.1 := by
      cases hcalls _ hmem with
      | acting _ hactor _ => cases hactor
      | claim _ hclaim => exact hclaim
    have hok : (handle env s x.1 x.2).1.status = 200 := by
      by_contra hstatus
      exact hrefused hstatus target device algorithm hmem
    exact (claim_answer hjson hclaim hok).gone_iff.mpr ⟨hstored, hgone⟩

/-- A request that brings a one-time key uploads it for the user of its token. -/
theorem uploads_of_request (hjson : JsonKeys s) {x : Request × Clock}
    (hbefore : ¬ (s.get .deviceOtk name).isSome)
    (hafter : ((requestStep env s x).get .deviceOtk name).isSome) : Uploads env (s, x) name := by
  obtain ⟨calls, hcalls, hotk, -⟩ := otk_of_request env s x
  have hnone := Option.not_isSome_iff_eq_none.mp hbefore
  have hstored : ((run (serviceStep env) s calls).get .deviceOtk name).isSome := by
    unfold Store.get at hafter ⊢
    rw [← hotk]
    exact hafter
  obtain ⟨owner, device, keys, hmem, key, -, hname⟩ :=
    upload_of_calls hjson (fun c hc => (hcalls c hc).storesJson) hnone hstored
  cases hcalls _ hmem with
  | acting hreq hactor _ =>
      obtain rfl := Option.some.inj hactor
      exact ⟨owner, device, key.1, hreq, hname, hnone, hafter⟩

end

/-- Over every run of requests, a one-time key leaves the store exactly by an answer that hands it out,
with the text that was stored, and one that is handed out twice was uploaded again in between. -/
theorem one_time_keys_accounted (env : ServerEnv) (s : Data) (hjson : JsonKeys s)
    (xs : List (Request × Clock)) :
    (∀ x ∈ trace (requestStep env) s xs, ∀ name json, HandsOut env x name json ↔
      x.1.get .deviceOtk name = some (.text json) ∧
        (requestStep env x.1 x.2).get .deviceOtk name = none) ∧
    (∀ x y name json json', [x, y].Sublist (trace (requestStep env) s xs) →
      HandsOut env x name json → HandsOut env y name json' →
        ∃ z, [x, z, y].Sublist (trace (requestStep env) s xs) ∧ Uploads env z name) := by
  have hkeys : ∀ x ∈ trace (requestStep env) s xs, JsonKeys x.1 := by
    intro x hx
    have hx' : (x.1, x.2) ∈ trace (requestStep env) s xs := hx
    obtain ⟨before, after, -, hstate⟩ := exists_prefix_of_mem_trace hx'
    rw [hstate]
    exact run_of_step (fun t i ht => ht.request i) hjson before
  have haccount : ∀ x ∈ trace (requestStep env) s xs, ∀ name json, HandsOut env x name json ↔
      x.1.get .deviceOtk name = some (.text json) ∧
        (requestStep env x.1 x.2).get .deviceOtk name = none :=
    fun x hx name json => handsOut_iff (hkeys x hx) x.2 json
  refine ⟨haccount, ?_⟩
  intro x y name json json' hpair hx hy
  have hxmem := hpair.subset List.mem_cons_self
  have hymem := hpair.subset (List.mem_cons_of_mem _ List.mem_cons_self)
  obtain ⟨-, hgone⟩ := (haccount x hxmem name json).mp hx
  obtain ⟨hstored, -⟩ := (haccount y hymem name json').mp hy
  have hz : ¬ ((requestStep env x.1 x.2).get .deviceOtk name).isSome := by simp [hgone]
  have hthen : (y.1.get .deviceOtk name).isSome := by
    rw [hstored]
    rfl
  obtain ⟨z, hbefore, hafter, hsub⟩ := exists_between_of_pair
    (P := fun t => (t.get .deviceOtk name).isSome) hpair hz hthen
  have hzmem := hsub.subset (List.mem_cons_of_mem _ List.mem_cons_self)
  exact ⟨z, hsub, uploads_of_request (hkeys z hzmem) hbefore hafter⟩

namespace SampleRequests

/-- Alice uploads one key, without device keys. -/
def uploadRequest : Request where
  method := .post
  target := "/_matrix/client/v3/keys/upload"
  authorization := some "Bearer gmt_0000000000000000"
  body := some "\x7b\"one_time_keys\":\x7b\"a:1\":\"k\"\x7d\x7d"

/-- Alice claims a key of the device that such an upload is for. -/
def keyRequest : Request where
  method := .post
  target := claimPath
  authorization := some "Bearer gmt_0000000000000000"
  body := some "\x7b\"one_time_keys\":\x7b\"@a:x\":\x7b\"default\":\"a\"\x7d\x7d\x7d"

theorem jsonKeys_registered : JsonKeys registered := by
  intro name value hget
  unfold Store.get at hget
  rw [registered_of_ne (by decide)] at hget
  cases hget

end SampleRequests

open SampleRequests in
theorem one_time_keys_accounted_registered :
    (∀ x ∈ trace (requestStep SampleRequests.env) registered
        [(loginRequest, clock), (uploadRequest, clock), (keyRequest, clock)],
      ∀ name json, HandsOut SampleRequests.env x name json ↔
        x.1.get .deviceOtk name = some (.text json) ∧
          (requestStep SampleRequests.env x.1 x.2).get .deviceOtk name = none) ∧
    (∀ x y name json json', [x, y].Sublist (trace (requestStep SampleRequests.env) registered
        [(loginRequest, clock), (uploadRequest, clock), (keyRequest, clock)]) →
      HandsOut SampleRequests.env x name json → HandsOut SampleRequests.env y name json' →
        ∃ z, [x, z, y].Sublist (trace (requestStep SampleRequests.env) registered
            [(loginRequest, clock), (uploadRequest, clock), (keyRequest, clock)]) ∧
          Uploads SampleRequests.env z name) :=
  one_time_keys_accounted SampleRequests.env registered jsonKeys_registered
    [(loginRequest, clock), (uploadRequest, clock), (keyRequest, clock)]

end GaussMatrix.Http.Ingress
