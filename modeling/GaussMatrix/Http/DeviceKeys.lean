import GaussMatrix.Http.Ingress
import GaussMatrix.Http.SignedJson
import GaussMatrix.Svc.FederationSend
import GaussMatrix.Svc.KeyExchange
import GaussMatrix.Svc.OneTimeKeys

/-!
# Device keys, uploaded and federated

A client's upload checks the signature that device keys carry of themselves before it stores anything.
A device-list update of a transaction writes the same family and checks nothing, so the stored keys
are self-consistent exactly when what the updates write is.
-/

namespace GaussMatrix.Http

open Library Util Api StateRes Svc Fed

/-! ## The handler -/

def deviceKeyId (deviceId : Str) : Str := "ed25519:".toList ++ deviceId

/-- The public key that device keys advertise under a key id. -/
def advertisedKey (deviceKeys : Json) (keyId : Str) : Option Str :=
  ((deviceKeys.get "keys").bind fun k => k.get keyId).bind Json.asStr

/-- Device keys have a signature of themselves, and it does not verify. -/
def forgedDeviceKeys (ed : Ed25519) (deviceKeys : Json) : Bool :=
  match (deviceKeys.get "user_id").bind Json.asStr,
      (deviceKeys.get "device_id").bind Json.asStr with
  | some userId, some dev =>
      let keyId := deviceKeyId dev
      hasSignature deviceKeys userId keyId &&
        !signedJsonVerifies ed deviceKeys userId keyId ((advertisedKey deviceKeys keyId).getD [])
  | _, _ => false

/-- The device of an upload; a fixed name when it tops up one-time keys only. -/
def uploadedDeviceId (body : Json) : Str :=
  (((body.get "device_keys").bind fun d => d.get "device_id").bind Json.asStr).getD "default"

/-- Check and store the device keys of an upload; none when they are forged. -/
def storeUploadedKeys (ed : Ed25519) (s : Data) (user : UserId) (body : Json) : Option Data :=
  match body.get "device_keys" with
  | none => some s
  | some deviceKeys =>
      -- a signature of another device or user than the keys name is not looked at
      if forgedDeviceKeys ed deviceKeys then none
      else some (storeDeviceKeys s user (uploadedDeviceId body) deviceKeys.write)

/-- The one-time keys of an upload, as texts. -/
def uploadedOneTimeKeys (body : Json) : List (Str × Str) :=
  (((body.get "one_time_keys").bind Json.asObject).getD []).map fun f => (f.1, f.2.write)

def countsBody (totals : List (Str × UInt32)) : Str :=
  (Json.ofFields [("one_time_key_counts".toList,
    .ofFields (totals.map fun t => (t.1, .number (F64.ofNat t.2.toNat))))]).write

/-- Store the caller's device keys and one-time keys, and answer with the counts. -/
def serveKeysUpload (ed : Ed25519) (s : Data) (user : Option UserId) (body : Option Str) :
    Response × Data :=
  match user with
  | none => (.error 401 (.unknownToken "unrecognized access token"), s)
  | some user =>
      match Json.parse (body.getD "\x7b\x7d") with
      | .ok (.object fields) =>
          match storeUploadedKeys ed s user (.object fields) with
          | none =>
              (.error 400 (.new "M_INVALID_SIGNATURE" "device key self-signature does not verify"), s)
          | some stored =>
              let (totals, stored) := storeOneTimeKeys stored user (uploadedDeviceId (.object fields))
                (uploadedOneTimeKeys (.object fields))
              (.jsonOk (countsBody totals), stored)
      | _ => (.error 400 (.new "M_BAD_JSON" "body must be an object"), s)

/-! ## The two writers -/

/-- An upload of keys, or a received transaction. -/
inductive DeviceOp
  | keysUpload (user : Option UserId) (body : Option Str)
  | receiveTransaction (txn : Json)

def deviceStep (env : Env) (ed : Ed25519) (s : Data) : DeviceOp → Data
  | .keysUpload user body => (serveKeysUpload ed s user body).2
  | .receiveTransaction txn => (receiveTransaction env s txn).2

/-- Device keys that have a signature of themselves verify under the key that they advertise. -/
def SelfConsistent (ed : Ed25519) (deviceKeys : Json) : Prop :=
  ∀ userId dev, (deviceKeys.get "user_id").bind Json.asStr = some userId →
    (deviceKeys.get "device_id").bind Json.asStr = some dev →
      hasSignature deviceKeys userId (deviceKeyId dev) = true →
        ∃ publicKey, advertisedKey deviceKeys (deviceKeyId dev) = some publicKey ∧
          signedJsonVerifies ed deviceKeys userId (deviceKeyId dev) publicKey = true

/-- The same of the text of device keys. -/
def TextConsistent (ed : Ed25519) (text : Str) : Prop :=
  ∀ deviceKeys, Json.parse text = .ok deviceKeys → SelfConsistent ed deviceKeys

/-- All stored device keys are self-consistent. -/
def StoredConsistent (ed : Ed25519) (s : Data) : Prop :=
  ∀ name text, s.get .deviceKeys name = some (.text text) → TextConsistent ed text

/-- A refused upload leaves the device keys and the one-time keys as they were. -/
def RefusalKeepsKeys (ed : Ed25519) (s : Data) (user : Option UserId) (body : Option Str) : Prop :=
  400 ≤ (serveKeysUpload ed s user body).1.status →
    (serveKeysUpload ed s user body).2 .deviceKeys = s .deviceKeys ∧
      (serveKeysUpload ed s user body).2 .deviceOtk = s .deviceOtk

/-- What a transaction leaves stored by its device-list updates is self-consistent. -/
def UpdatesConsistent (ed : Ed25519) : DeviceOp → Prop
  | .keysUpload _ _ => True
  | .receiveTransaction txn =>
      ∀ name update, lastUpdate txn name = some update → TextConsistent ed update.keys

section

variable {env : Env} {ed : Ed25519} {s : Data} {user : UserId} {body : Str}
  {deviceKeys : Json}

/-- No signature verifies under an empty key. -/
theorem signedJsonVerifies_nil (ed : Ed25519) (obj : Json) (signer keyId : Str) :
    signedJsonVerifies ed obj signer keyId [] = false := by
  have hkey : Ed25519.b64To32 [] = none := by decide +kernel
  rw [signedJsonVerifies]
  cases (signatureAt obj signer keyId).bind Json.asStr with
  | none => rfl
  | some sig =>
      show Ed25519.verifyB64 ed _ sig [] = false
      rw [Ed25519.verifyB64, hkey]
      cases (base64Decode sig).bind (toArray 64) <;> rfl

/-- The handler reads an absent key as an empty one, under which nothing verifies. -/
theorem verifies_advertised_iff {obj : Json} {signer keyId : Str} (advertised : Option Str) :
    signedJsonVerifies ed obj signer keyId (advertised.getD []) = true ↔
      ∃ publicKey, advertised = some publicKey ∧
        signedJsonVerifies ed obj signer keyId publicKey = true := by
  cases advertised with
  | none => rw [Option.getD_none, signedJsonVerifies_nil]; simp
  | some publicKey => simp

/-- What the handler refuses is what is not self-consistent. -/
theorem forgedDeviceKeys_eq_false_iff (ed : Ed25519) (deviceKeys : Json) :
    forgedDeviceKeys ed deviceKeys = false ↔ SelfConsistent ed deviceKeys := by
  unfold forgedDeviceKeys SelfConsistent
  cases (deviceKeys.get "user_id").bind Json.asStr with
  | none => exact iff_of_true rfl (fun _ _ h => nomatch h)
  | some userId =>
      cases (deviceKeys.get "device_id").bind Json.asStr with
      | none => exact iff_of_true rfl (fun _ _ _ h => nomatch h)
      | some dev =>
          dsimp only
          rw [Bool.and_eq_false_iff, Bool.not_eq_false', ← Bool.not_eq_true, or_iff_not_imp_left,
            not_not, verifies_advertised_iff]
          constructor
          · intro h userId' dev' huser hdev hsigned
            rw [← Option.some.inj huser, ← Option.some.inj hdev] at hsigned ⊢
            exact h hsigned
          · exact fun h => h userId dev rfl rfl

theorem advertisedKey_written (deviceKeys : Json) (keyId : Str) :
    advertisedKey deviceKeys.written keyId = advertisedKey deviceKeys keyId := by
  rw [advertisedKey, advertisedKey, Json.get_written]
  cases deviceKeys.get "keys" with
  | none => rfl
  | some keys => exact getStr_written keys keyId

/-- Device keys stay self-consistent when they are written and read again. -/
theorem selfConsistent_written : SelfConsistent ed deviceKeys.written ↔
    SelfConsistent ed deviceKeys := by
  simp only [SelfConsistent, getStr_written, hasSignature_written, advertisedKey_written,
    signedJsonVerifies_written]

/-! ## Uploads -/

/-- An upload answers with an error and leaves the data, or stores device keys that are not forged
and one-time keys. -/
theorem serveKeysUpload_cases (ed : Ed25519) (s : Data) (user : Option UserId)
    (body : Option Str) :
    (serveKeysUpload ed s user body).2 = s ∨
      (serveKeysUpload ed s user body).1.status = 200 ∧
        ∃ caller fields stored, Json.parse (body.getD "\x7b\x7d") = .ok (.object fields) ∧
          storeUploadedKeys ed s caller (.object fields) = some stored ∧
          (serveKeysUpload ed s user body).2 .deviceKeys = stored .deviceKeys := by
  unfold serveKeysUpload
  cases user with
  | none => exact .inl rfl
  | some caller =>
      dsimp only
      split
      · rename_i fields hparse
        cases hstored : storeUploadedKeys ed s caller (.object fields) with
        | none => exact .inl rfl
        | some stored =>
            right
            refine ⟨rfl, caller, fields, stored, hparse, hstored, ?_⟩
            -- the one-time keys go to a family of their own
            show (storeOneTimeKeys stored caller _ _).2 .deviceKeys = stored .deviceKeys
            generalize uploadedOneTimeKeys (.object fields) = keys
            generalize uploadedDeviceId (.object fields) = deviceId
            clear hstored
            induction keys generalizing stored with
            | nil => rfl
            | cons key keys ih =>
                have hne : Cf.deviceKeys ≠ Cf.deviceOtk := by decide
                exact (ih (storeOneTimeKey stored caller deviceId key)).trans
                  (Store.put_of_ne stored hne _ _)
      · exact .inl rfl

theorem refusal_keeps_keys (ed : Ed25519) (s : Data) (user : Option UserId) (body : Option Str) :
    RefusalKeepsKeys ed s user body := by
  intro hstatus
  rcases serveKeysUpload_cases ed s user body with hsame | ⟨hok, -⟩
  · rw [hsame]
    exact ⟨rfl, rfl⟩
  · rw [hok] at hstatus
    exact absurd hstatus (by decide)

/-- An upload keeps the stored device keys self-consistent. -/
theorem storedConsistent_upload (h : StoredConsistent ed s) (user : Option UserId)
    (body : Option Str) : StoredConsistent ed (serveKeysUpload ed s user body).2 := by
  rcases serveKeysUpload_cases ed s user body with
    hsame | ⟨-, caller, fields, stored, hparse, hstored, hkeys⟩
  · rw [hsame]
    exact h
  · intro name text hget
    rw [Store.get, hkeys, ← Store.get] at hget
    unfold storeUploadedKeys at hstored
    split at hstored
    · rw [← Option.some.inj hstored] at hget
      exact h name text hget
    · rename_i deviceKeys hfield
      split at hstored
      · cases hstored
      · rename_i hkept
        rw [← Option.some.inj hstored, storeDeviceKeys, Store.get_put] at hget
        split at hget
        · -- the text of keys that were checked
          obtain rfl : deviceKeys.write = text := by
            injection hget with hget
            injection hget
          intro read hread
          rw [parse_write_field hparse hfield] at hread
          injection hread with hread
          rw [← hread, selfConsistent_written]
          exact (forgedDeviceKeys_eq_false_iff ed deviceKeys).mp (Bool.not_eq_true _ ▸ hkept)
        · exact h name text hget

/-! ## Transactions -/

/-- A transaction keeps the stored device keys self-consistent exactly when its updates are. -/
theorem storedConsistent_receive_iff (h : StoredConsistent ed s) (txn : Json) :
    StoredConsistent ed (receiveTransaction env s txn).2 ↔
      UpdatesConsistent ed (.receiveTransaction txn) := by
  constructor
  · -- the last update under a name is what is stored there
    intro hafter name update hlast
    apply hafter name update.keys
    rw [get_deviceKeys_receiveTransaction, hlast]
    rfl
  · intro hupdates name text hget
    rw [get_deviceKeys_receiveTransaction] at hget
    cases hlast : lastUpdate txn name with
    | none =>
        -- what no update writes was there before
        rw [hlast] at hget
        exact h name text hget
    | some update =>
        rw [hlast] at hget
        have htext : update.keys = text := by
          injection hget with hget
          injection hget
        rw [← htext]
        exact hupdates name update hlast

end

/-! ## Runs -/

/-- Over a run of uploads and transactions, the stored device keys are self-consistent at every point
and refused uploads change no keys, exactly when the updates of each transaction are
self-consistent. -/
theorem device_keys_consistent_iff (env : Env) (ed : Ed25519) (s : Data) (ops : List DeviceOp)
    (hs : StoredConsistent ed s) :
    (Throughout (deviceStep env ed) s ops (StoredConsistent ed) ∧
      ∀ x ∈ trace (deviceStep env ed) s ops, ∀ user body, x.2 = .keysUpload user body →
        RefusalKeepsKeys ed x.1 user body) ↔ ∀ op ∈ ops, UpdatesConsistent ed op := by
  have hrefusals : ∀ x ∈ trace (deviceStep env ed) s ops, ∀ user body,
      x.2 = .keysUpload user body → RefusalKeepsKeys ed x.1 user body :=
    fun x _ user body _ => refusal_keeps_keys ed x.1 user body
  have hstep : ∀ t op, StoredConsistent ed t →
      (StoredConsistent ed (deviceStep env ed t op) ↔ UpdatesConsistent ed op) := by
    intro t op ht
    cases op with
    | keysUpload user body => exact iff_of_true (storedConsistent_upload ht user body) trivial
    | receiveTransaction txn => exact storedConsistent_receive_iff ht txn
  rw [and_iff_left hrefusals, throughout_iff_trace hstep hs]
  constructor
  · intro h op hop
    rw [← @map_snd_trace _ _ (deviceStep env ed) s ops] at hop
    obtain ⟨x, hx, rfl⟩ := List.mem_map.mp hop
    exact h x hx
  · intro h x hx
    exact h x.2 (mem_of_mem_trace hx)

namespace SampleUpdate

/-- A transaction with an update of a device, whose keys have a signature of themselves that does not
verify. -/
def body : Str :=
  "\x7b\"origin\":\"o.tld\",\"origin_server_ts\":1,\"pdus\":[],\"edus\":[\x7b".toList ++
    "\"edu_type\":\"m.device_list_update\",\"content\":\x7b\"user_id\":\"@b:x\",".toList ++
    "\"device_id\":\"D\",\"keys\":\x7b\"user_id\":\"@b:x\",\"device_id\":\"D\",".toList ++
    "\"signatures\":\x7b\"@b:x\":\x7b\"ed25519:D\":\"forged\"\x7d\x7d\x7d\x7d\x7d]\x7d".toList

def txn : Json := ((Json.parse body).toOption).getD .null

/-- An upload without keys. -/
def topUp : DeviceOp := .keysUpload (some ⟨"@b:x", valid_bob⟩) none

end SampleUpdate

open SampleUpdate SampleKeys SampleExchange in
theorem device_keys_consistent_sample :
    (Throughout (deviceStep SampleKeys.env ed) Store.empty [topUp] (StoredConsistent ed) ∧
      ∀ x ∈ trace (deviceStep SampleKeys.env ed) Store.empty [topUp], ∀ user body,
        x.2 = .keysUpload user body → RefusalKeepsKeys ed x.1 user body) ↔
      ∀ op ∈ [topUp], UpdatesConsistent ed op :=
  device_keys_consistent_iff SampleKeys.env ed Store.empty [topUp] (fun _ _ h => nomatch h)

open SampleUpdate SampleExchange in
/-- Device keys with a forged signature are stored from a transaction. -/
theorem forged_device_keys_stored : ¬ ∀ (env : Env) (ed : Ed25519) (ops : List DeviceOp),
    Throughout (deviceStep env ed) Store.empty ops (StoredConsistent ed) := by
  intro h
  have hend := h SampleKeys.env ed [.receiveTransaction txn] [.receiveTransaction txn] [] rfl
  have hstored : (run (deviceStep SampleKeys.env ed) Store.empty
      [.receiveTransaction txn]).get .deviceKeys ("@b:x".toList ++ sep :: "D".toList) =
        some (.text (((deviceUpdates txn).head?.map DeviceUpdate.keys).getD [])) := by
    decide +kernel
  have hforged : ((Json.parse (((deviceUpdates txn).head?.map DeviceUpdate.keys).getD [])).toOption
      ).map (forgedDeviceKeys ed) = some true := by
    decide +kernel
  obtain ⟨deviceKeys, hread, hbad⟩ := Option.map_eq_some_iff.mp hforged
  have hparse : Json.parse (((deviceUpdates txn).head?.map DeviceUpdate.keys).getD []) =
      .ok deviceKeys := by
    generalize Json.parse (((deviceUpdates txn).head?.map DeviceUpdate.keys).getD []) = parsed at *
    cases parsed with
    | error e => exact nomatch hread
    | ok v => exact congrArg Except.ok (Option.some.inj hread)
  have hgood := (forgedDeviceKeys_eq_false_iff ed deviceKeys).mpr
    (hend _ _ hstored deviceKeys hparse)
  exact nomatch hgood.symm.trans hbad

end GaussMatrix.Http
