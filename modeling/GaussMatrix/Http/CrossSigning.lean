import GaussMatrix.Http.Ingress
import GaussMatrix.Http.SignedJson
import GaussMatrix.Svc.FederationSend
import GaussMatrix.Svc.KeyExchange

/-!
# Uploading cross-signing keys

The keys of a request are checked and stored one after the other.  So a refused request has stored
what stands before the key it was refused for; and because a key is checked against the master key of
its own request only, a key and a master key that came with different requests were never checked
against each other.
-/

namespace GaussMatrix.Http

open Library Util Api StateRes Svc

/-! ## The store -/

/-- The name that a user's key for a usage is stored under. -/
def crossSigningName (user : UserId) (usage : Str) : Str := user.asStr ++ sep :: usage

def storeCrossSigningKey (s : Data) (user : UserId) (usage keyJson : Str) : Data :=
  s.put .crossSigning (crossSigningName user usage) (.text keyJson)

/-- The cross-signing keys of a user, by usage. -/
def crossSigningKeysOf (s : Data) (user : UserId) : List (Str × Str) :=
  userEntries s .crossSigning user

/-! ## The handler -/

/-- The fields of a request and the usages of their keys, in the order of the loop. -/
def crossSigningFields : List (Str × Str) :=
  [("master_key".toList, "master".toList), ("self_signing_key".toList, "self_signing".toList),
    ("user_signing_key".toList, "user_signing".toList)]

/-- The id that a signature under a master key has. -/
def masterKeyId (masterPublic : Str) : Str := "ed25519:".toList ++ masterPublic

/-- A key has a signature of the user under the master key, and it does not verify. -/
def badlySigned (ed : Ed25519) (user : UserId) (masterPublic : Option Str) (key : Json) : Bool :=
  match masterPublic with
  | none => false
  | some masterPublic =>
      hasSignature key user.asStr (masterKeyId masterPublic) &&
        !signedJsonVerifies ed key user.asStr (masterKeyId masterPublic) masterPublic

/-- The public key of the master key that a request carries. -/
def requestMaster (body : Json) : Option Str := (body.get "master_key").bind crossSigningPublic

/-- The loop refuses a key: it is not the master key, and badly signed under the master key of the
request. -/
def refusesKey (ed : Ed25519) (user : UserId) (body : Json) (field : Str) (key : Json) : Bool :=
  field ≠ "master_key".toList && badlySigned ed user (requestMaster body) key

def notSignedByMaster : Response :=
  .error 400 (.new "M_INVALID_SIGNATURE" "cross-signing key is not validly signed by the master key")

/-- The loop over the fields of a request. -/
def storeUploaded (ed : Ed25519) (user : UserId) (body : Json) :
    List (Str × Str) → Data → Response × Data
  | [], s => (.jsonOk "\x7b\x7d", s)
  | (field, usage) :: rest, s =>
      match body.get field with
      | none => storeUploaded ed user body rest s
      | some key =>
          -- what was stored for the fields before stays stored
          if refusesKey ed user body field key then (notSignedByMaster, s)
          else storeUploaded ed user body rest (storeCrossSigningKey s user usage key.write)

/-- Store the caller's cross-signing keys. -/
def serveDeviceSigningUpload (ed : Ed25519) (s : Data) (user : Option UserId) (body : Option Str) :
    Response × Data :=
  match user with
  | none => (.error 401 (.unknownToken "unrecognized access token"), s)
  | some user =>
      match Json.parse (body.getD "\x7b\x7d") with
      | .ok (.object fields) => storeUploaded ed user (.object fields) crossSigningFields s
      | _ => (.error 400 (.new "M_BAD_JSON" "body must be an object"), s)

/-! ## What a request stores -/

/-- A key that a request carries. -/
structure UploadedKey where
  field : Str
  usage : Str
  key : Json

/-- The keys of a request, in the order of the loop. -/
def uploadedKeys (body : Json) (fields : List (Str × Str)) : List UploadedKey :=
  fields.filterMap fun f => (body.get f.1).map fun key => ⟨f.1, f.2, key⟩

/-- The keys of a request before the first that is refused. -/
def takenKeys (ed : Ed25519) (user : UserId) (body : Json) (fields : List (Str × Str)) :
    List UploadedKey :=
  (uploadedKeys body fields).takeWhile fun k => !refusesKey ed user body k.field k.key

def storeKey (user : UserId) (s : Data) (k : UploadedKey) : Data :=
  storeCrossSigningKey s user k.usage k.key.write

/-- The key that a request stores for a usage. -/
def takenKey (ed : Ed25519) (user : UserId) (body : Json) (usage : Str) : Option Json :=
  ((takenKeys ed user body crossSigningFields).reverse.find? fun k => k.usage = usage).map
    UploadedKey.key

/-- The request has a key that is refused. -/
def Refuses (ed : Ed25519) (user : UserId) (body : Json) : Prop :=
  ∃ k ∈ uploadedKeys body crossSigningFields, refusesKey ed user body k.field k.key = true

section

variable {ed : Ed25519} {s : Data} {user : UserId} {body : Json} {usage text : Str}
  {fields : List (Str × Str)} {k : UploadedKey}

theorem crossSigningName_inj {usage' : Str} :
    crossSigningName user usage = crossSigningName user usage' ↔ usage = usage' := by
  constructor
  · intro h
    exact (List.cons.inj (List.append_cancel_left h)).2
  · exact congrArg (crossSigningName user)

/-- The loop stores the keys before the first that is refused, and answers whether there is one. -/
theorem storeUploaded_eq (ed : Ed25519) (user : UserId) (body : Json) (fields : List (Str × Str))
    (s : Data) : storeUploaded ed user body fields s =
      (if (uploadedKeys body fields).any (fun k => refusesKey ed user body k.field k.key)
        then notSignedByMaster else .jsonOk "\x7b\x7d",
        (takenKeys ed user body fields).foldl (storeKey user) s) := by
  induction fields generalizing s with
  | nil => rfl
  | cons f fields ih =>
      obtain ⟨field, usage⟩ := f
      rw [storeUploaded]
      cases hget : body.get field with
      | none =>
          have huploaded : uploadedKeys body ((field, usage) :: fields) =
              uploadedKeys body fields := by
            rw [uploadedKeys, List.filterMap_cons, hget]
            rfl
          rw [takenKeys, huploaded]
          exact ih s
      | some key =>
          have huploaded : uploadedKeys body ((field, usage) :: fields) =
              ⟨field, usage, key⟩ :: uploadedKeys body fields := by
            rw [uploadedKeys, List.filterMap_cons, hget]
            rfl
          rw [takenKeys, huploaded, List.any_cons, List.takeWhile_cons]
          dsimp only
          cases refusesKey ed user body field key with
          | true => rfl
          | false =>
              -- the key is stored, and the loop goes on
              show storeUploaded ed user body fields (storeKey user s ⟨field, usage, key⟩) = _
              rw [ih]
              rfl

/-- A key that a request stores is one of its fields, and not refused. -/
theorem mem_takenKeys (h : k ∈ takenKeys ed user body fields) :
    (k.field, k.usage) ∈ fields ∧ body.get k.field = some k.key ∧
      refusesKey ed user body k.field k.key = false := by
  have hkept := List.mem_takeWhile_imp h
  have hmem := (List.takeWhile_prefix _).subset h
  obtain ⟨f, hf, hk⟩ := List.mem_filterMap.mp hmem
  obtain ⟨key, hkey, rfl⟩ := Option.map_eq_some_iff.mp hk
  exact ⟨hf, hkey, by simpa using hkept⟩

/-- A request carries one key for a usage. -/
theorem nodup_takenKeys (ed : Ed25519) (user : UserId) (body : Json) :
    ((takenKeys ed user body crossSigningFields).map UploadedKey.usage).Nodup := by
  -- the usages of the keys are among those of the fields, in their order
  have husages : (crossSigningFields.map Prod.snd).Nodup := by decide
  have hsub : ((uploadedKeys body crossSigningFields).map UploadedKey.usage).Sublist
      (crossSigningFields.map Prod.snd) := by
    generalize crossSigningFields = fields
    induction fields with
    | nil => exact List.Sublist.slnil
    | cons f fields ih =>
        rw [uploadedKeys, List.filterMap_cons]
        cases body.get f.1 with
        | none => exact ih.cons _
        | some key => exact ih.cons_cons _
  exact husages.sublist ((((List.takeWhile_prefix _).sublist).map _).trans hsub)

theorem takenKey_of_mem (h : k ∈ takenKeys ed user body crossSigningFields) :
    takenKey ed user body k.usage = some k.key := by
  rw [takenKey]
  cases hfind : (takenKeys ed user body crossSigningFields).reverse.find? fun k' =>
      k'.usage = k.usage with
  | none =>
      have hnone := List.find?_eq_none.mp hfind k (List.mem_reverse.mpr h)
      exact absurd (decide_eq_true rfl) hnone
  | some k' =>
      -- the one that is found has the usage, and there is one with the usage only
      have hmem := List.mem_reverse.mp (List.mem_of_find?_eq_some hfind)
      have husage : k'.usage = k.usage := by simpa using List.find?_some hfind
      rw [List.inj_on_of_nodup_map (nodup_takenKeys ed user body) hmem h husage]
      rfl

/-- The key that a request stores for a usage is the one of a field with the usage. -/
theorem takenKey_some {key : Json} (h : takenKey ed user body usage = some key) :
    ∃ k ∈ takenKeys ed user body crossSigningFields, k.usage = usage ∧ k.key = key := by
  obtain ⟨k, hfind, hkey⟩ := Option.map_eq_some_iff.mp h
  exact ⟨k, List.mem_reverse.mp (List.mem_of_find?_eq_some hfind),
    by simpa using List.find?_some hfind, hkey⟩

/-- The keys in the store after the loop: those that the request stores over those before. -/
theorem get_storeKeys (user : UserId) (keys : List UploadedKey) (s : Data) (name : Str) :
    (keys.foldl (storeKey user) s).get .crossSigning name =
      ((keys.reverse.find? fun k => crossSigningName user k.usage = name).map
        fun k => .text k.key.write).or (s.get .crossSigning name) :=
  Store.get_foldl_put s .crossSigning (fun k : UploadedKey => crossSigningName user k.usage)
    (fun k => .text k.key.write) keys name

theorem get_takenKeys (ed : Ed25519) (user : UserId) (body : Json) (s : Data) (usage : Str) :
    ((takenKeys ed user body crossSigningFields).foldl (storeKey user) s).get .crossSigning
        (crossSigningName user usage) =
      ((takenKey ed user body usage).map fun key => .text key.write).or
        (s.get .crossSigning (crossSigningName user usage)) := by
  rw [get_storeKeys, takenKey, Option.map_map]
  simp only [crossSigningName_inj]
  rfl

/-! ## Refused requests -/

theorem mem_crossSigningKeysOf : (usage, text) ∈ crossSigningKeysOf s user ↔
    s.get .crossSigning (crossSigningName user usage) = some (.text text) :=
  mem_userEntries

/-- Keys that are all stored already change nothing. -/
theorem storeKeys_of_stored {keys : List UploadedKey}
    (h : ∀ k ∈ keys, s.get .crossSigning (crossSigningName user k.usage) =
      some (.text k.key.write)) :
    (keys.foldl (storeKey user) s) .crossSigning = s .crossSigning := by
  apply SortedMap.ext_get
  intro name
  show (keys.foldl (storeKey user) s).get .crossSigning name = s.get .crossSigning name
  rw [get_storeKeys]
  cases hfind : keys.reverse.find? fun k => crossSigningName user k.usage = name with
  | none => rfl
  | some k =>
      -- the last write under the name repeats what is there
      have hname : crossSigningName user k.usage = name := by simpa using List.find?_some hfind
      rw [← hname, h k (List.mem_reverse.mp (List.mem_of_find?_eq_some hfind))]
      rfl

theorem status_storeUploaded (ed : Ed25519) (user : UserId) (body : Json) (s : Data) :
    400 ≤ (storeUploaded ed user body crossSigningFields s).1.status ↔ Refuses ed user body := by
  rw [storeUploaded_eq]
  by_cases h : Refuses ed user body
  · apply iff_of_true _ h
    rw [if_pos (List.any_eq_true.mpr h)]
    exact le_refl 400
  · apply iff_of_false _ h
    rw [if_neg fun hany => h (List.any_eq_true.mp hany)]
    show ¬ 400 ≤ 200
    decide

end

/-- An answer with an error status leaves the cross-signing keys of every user as they were. -/
def UploadAtomic (ed : Ed25519) (s : Data) (user : Option UserId) (body : Option Str) : Prop :=
  400 ≤ (serveDeviceSigningUpload ed s user body).1.status →
    ∀ other, crossSigningKeysOf (serveDeviceSigningUpload ed s user body).2 other =
      crossSigningKeysOf s other

/-- When a key of the request is refused, the keys before it are stored already, with the same
text. -/
def StoredBeforeRefusal (ed : Ed25519) (s : Data) (user : Option UserId) (body : Option Str) : Prop :=
  ∀ caller ∈ user, ∀ fields, Json.parse (body.getD "\x7b\x7d") = .ok (.object fields) →
    Refuses ed caller (.object fields) →
      ∀ k ∈ takenKeys ed caller (.object fields) crossSigningFields,
        s.get .crossSigning (crossSigningName caller k.usage) = some (.text k.key.write)

/-- An upload is atomic exactly when, if it is refused, what it stored before was there already. -/
theorem upload_atomic_iff (ed : Ed25519) (s : Data) (user : Option UserId) (body : Option Str) :
    UploadAtomic ed s user body ↔ StoredBeforeRefusal ed s user body := by
  unfold UploadAtomic StoredBeforeRefusal serveDeviceSigningUpload
  cases user with
  | none => exact iff_of_true (fun _ _ => rfl) (fun _ h => nomatch h)
  | some caller =>
      have hcaller : ∀ {P : UserId → Prop}, (∀ c ∈ some caller, P c) ↔ P caller := by
        intro P
        constructor
        · exact fun h => h caller rfl
        · intro h c hc
          rw [← Option.some.inj hc]
          exact h
      rw [hcaller]
      dsimp only
      split
      · rename_i fields hparse
        rw [status_storeUploaded, storeUploaded_eq]
        constructor
        · intro h fields' hparse' hrefuses k hk
          rw [hparse'] at hparse
          injection hparse with hsame
          injection hsame with hsame
          subst hsame
          -- the key is in the store after the loop, so it was before
          have hafter : (k.usage, k.key.write) ∈ crossSigningKeysOf
              ((takenKeys ed caller (.object fields') crossSigningFields).foldl (storeKey caller) s)
                caller := by
            rw [mem_crossSigningKeysOf, get_takenKeys, takenKey_of_mem hk]
            rfl
          rw [h hrefuses caller] at hafter
          exact mem_crossSigningKeysOf.mp hafter
        · intro h hrefuses other
          have hsame := storeKeys_of_stored (h fields hparse hrefuses)
          dsimp only
          rw [crossSigningKeysOf, crossSigningKeysOf, userEntries, userEntries, Store.scan,
            Store.scan, hsame]
      · rename_i hparse
        exact iff_of_true (fun _ _ => rfl) (fun fields h => absurd h (hparse fields))

namespace SampleUploads

def alice : UserId := ⟨"@a:x", valid_alice⟩

/-- A request with a master key. -/
def masterBody : Str := "\x7b\"master_key\":\x7b\"keys\":\x7b\"ed25519:M\":\"M\"\x7d\x7d\x7d"

/-- A self-signing key with a signature under the master key that does not verify. -/
def forgedKey : Str :=
  "\"self_signing_key\":\x7b\"signatures\":\x7b\"@a:x\":\x7b\"ed25519:M\":\"forged\"\x7d\x7d\x7d"

/-- A request with both. -/
def bothBody : Str :=
  "\x7b\"master_key\":\x7b\"keys\":\x7b\"ed25519:M\":\"M\"\x7d\x7d,".toList ++
    (forgedKey ++ ['\x7d'])

end SampleUploads

open SampleUploads SampleExchange in
/-- The refused request has stored its master key. -/
theorem refused_upload_stores_master :
    (serveDeviceSigningUpload ed Store.empty (some alice) (some bothBody)).1 = notSignedByMaster ∧
      ¬ UploadAtomic ed Store.empty (some alice) (some bothBody) := by
  have hstatus : (serveDeviceSigningUpload ed Store.empty (some alice) (some bothBody)).1 =
      notSignedByMaster := by
    decide +kernel
  refine ⟨hstatus, fun h => ?_⟩
  have hsame := h (by rw [hstatus]; exact le_refl 400) alice
  have hafter : crossSigningKeysOf (serveDeviceSigningUpload ed Store.empty (some alice)
      (some bothBody)).2 alice ≠ crossSigningKeysOf Store.empty alice := by
    decide +kernel
  exact hafter hsame

end GaussMatrix.Http
