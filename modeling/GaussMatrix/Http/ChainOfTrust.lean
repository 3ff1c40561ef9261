import GaussMatrix.Http.CrossSigning

/-!
# The chain of trust over uploads

A key is checked against the master key of its own request.  Over a run, the keys of a user are signed
by the master key in the store exactly when each upload also passes the check for the pairs that it
leaves unchecked: a key it stores under the master key stored before, and a key stored before under
the master key it stores.
-/

namespace GaussMatrix.Http

open Library Util Api StateRes Svc

/-! ## The keys in the store -/

def masterUsage : Str := "master"

/-- The usages whose keys a master key signs. -/
def subordinateUsages : List Str := ["self_signing".toList, "user_signing".toList]

/-- The stored key of a user for a usage, read from its text. -/
def storedKey (s : Data) (user : UserId) (usage : Str) : Option Json :=
  ((s.get .crossSigning (crossSigningName user usage)).bind Record.asText).bind fun text =>
    (Json.parse text).toOption

/-- A signature of the user under the stored master key, on a stored self-signing or user-signing key,
verifies. -/
def ChainOfTrust (ed : Ed25519) (user : UserId) (s : Data) : Prop :=
  ∀ usage ∈ subordinateUsages, ∀ key master masterPublic, storedKey s user usage = some key →
    storedKey s user masterUsage = some master → crossSigningPublic master = some masterPublic →
      hasSignature key user.asStr (masterKeyId masterPublic) = true →
        signedJsonVerifies ed key user.asStr (masterKeyId masterPublic) masterPublic = true

/-- The data after an upload of the user. -/
def uploadStep (ed : Ed25519) (user : UserId) (s : Data) (body : Option Str) : Data :=
  (serveDeviceSigningUpload ed s (some user) body).2

/-- The pairs that an upload brings together and does not check are well signed: a key it stores and
the stored master key, where it stores no master key; and a stored key and the master key it stores,
where it does not replace the key. -/
def UncheckedPairsSigned (ed : Ed25519) (user : UserId) (s : Data) (body : Option Str) : Prop :=
  ∀ fields, Json.parse (body.getD "\x7b\x7d") = .ok (.object fields) →
    ∀ usage ∈ subordinateUsages,
      match takenKey ed user (.object fields) masterUsage,
          takenKey ed user (.object fields) usage with
      -- the master key came with an earlier request
      | none, some key =>
          badlySigned ed user ((storedKey s user masterUsage).bind crossSigningPublic) key = false
      -- the key came with an earlier request
      | some master, none => ∀ key ∈ storedKey s user usage,
          badlySigned ed user (crossSigningPublic master) key = false
      -- the two came together, and were checked, or neither did
      | _, _ => True

section

variable {ed : Ed25519} {user : UserId} {s : Data} {body : Option Str}
  {fields : List (Str × Json)} {usage : Str}

@[simp] theorem badlySigned_written (ed : Ed25519) (user : UserId) (masterPublic : Option Str)
    (key : Json) : badlySigned ed user masterPublic key.written =
      badlySigned ed user masterPublic key := by
  cases masterPublic with
  | none => rfl
  | some masterPublic =>
      rw [badlySigned, badlySigned, hasSignature_written, signedJsonVerifies_written]

theorem chainOfTrust_iff : ChainOfTrust ed user s ↔
    ∀ usage ∈ subordinateUsages, ∀ key ∈ storedKey s user usage,
      badlySigned ed user ((storedKey s user masterUsage).bind crossSigningPublic) key = false := by
  constructor
  · intro h usage husage key hkey
    cases hpublic : (storedKey s user masterUsage).bind crossSigningPublic with
    | none => rfl
    | some masterPublic =>
        obtain ⟨master, hmaster, hpublic⟩ := Option.bind_eq_some_iff.mp hpublic
        rw [badlySigned, Bool.and_eq_false_iff, Bool.not_eq_false', ← Bool.not_eq_true,
          or_iff_not_imp_left, not_not]
        exact h usage husage key master masterPublic hkey hmaster hpublic
  · intro h usage husage key master masterPublic hkey hmaster hpublic hsigned
    have hgood := h usage husage key hkey
    rw [hmaster, Option.bind_some, hpublic, badlySigned, hsigned, Bool.true_and,
      Bool.not_eq_false'] at hgood
    exact hgood

/-! ## One upload -/

/-- A key that a request stores comes from the request's body. -/
theorem field_of_takenKey {key : Json} (h : takenKey ed user (.object fields) usage = some key) :
    ∃ field, (field, usage) ∈ crossSigningFields ∧ (Json.object fields).get field = some key ∧
      refusesKey ed user (.object fields) field key = false := by
  obtain ⟨k, hk, rfl, rfl⟩ := takenKey_some h
  exact ⟨k.field, mem_takenKeys hk⟩

/-- After an upload, the key for a usage is the one of the request, or the one that was there. -/
theorem storedKey_uploadStep (hparse : Json.parse (body.getD "\x7b\x7d") = .ok (.object fields))
    (usage : Str) : storedKey (uploadStep ed user s body) user usage =
      match takenKey ed user (.object fields) usage with
      | some key => some key.written
      | none => storedKey s user usage := by
  have hafter : uploadStep ed user s body =
      (takenKeys ed user (.object fields) crossSigningFields).foldl (storeKey user) s := by
    rw [uploadStep, serveDeviceSigningUpload, hparse]
    exact congrArg Prod.snd (storeUploaded_eq ed user (.object fields) crossSigningFields s)
  rw [storedKey, hafter, get_takenKeys]
  cases htaken : takenKey ed user (.object fields) usage with
  | none => rfl
  | some key =>
      -- the stored text is that of a field of the body
      obtain ⟨field, -, hget, -⟩ := field_of_takenKey htaken
      show (Json.parse key.write).toOption = some key.written
      rw [parse_write_field hparse hget]
      rfl

/-- A key that is stored together with a master key was checked against it. -/
theorem badlySigned_of_taken_together {key master : Json} (husage : usage ∈ subordinateUsages)
    (hmaster : takenKey ed user (.object fields) masterUsage = some master)
    (hkey : takenKey ed user (.object fields) usage = some key) :
    badlySigned ed user (crossSigningPublic master) key = false := by
  obtain ⟨masterField, hmasterField, hmasterGet, -⟩ := field_of_takenKey hmaster
  obtain ⟨field, hfield, -, hkept⟩ := field_of_takenKey hkey
  have hname : ∀ f ∈ crossSigningFields, f.2 = masterUsage → f.1 = "master_key".toList := by
    decide
  have hother : ∀ f ∈ crossSigningFields, f.2 ∈ subordinateUsages →
      f.1 ≠ "master_key".toList := by
    decide
  have hpublic : requestMaster (.object fields) = crossSigningPublic master := by
    have hfirst : masterField = "master_key".toList := hname _ hmasterField rfl
    rw [hfirst] at hmasterGet
    rw [requestMaster, hmasterGet, Option.bind_some]
  rw [refusesKey, decide_eq_true (hother _ hfield husage), Bool.true_and, hpublic] at hkept
  exact hkept

/-- A body that is no object stores nothing. -/
theorem uploadStep_of_no_object
    (h : ∀ fields, Json.parse (body.getD "\x7b\x7d") ≠ .ok (.object fields)) :
    uploadStep ed user s body = s := by
  rw [uploadStep, serveDeviceSigningUpload]
  split
  · rename_i fields hparse
    exact absurd hparse (h fields)
  · rfl

/-- An upload keeps the chain of trust exactly when the pairs it does not check are well signed. -/
theorem chainOfTrust_uploadStep_iff (h : ChainOfTrust ed user s) :
    ChainOfTrust ed user (uploadStep ed user s body) ↔
      UncheckedPairsSigned ed user s body := by
  by_cases hobject : ∃ fields, Json.parse (body.getD "\x7b\x7d") = .ok (.object fields)
  · obtain ⟨fields, hparse⟩ := hobject
    rw [chainOfTrust_iff] at h ⊢
    simp only [storedKey_uploadStep hparse, UncheckedPairsSigned, hparse, Except.ok.injEq,
      Json.object.injEq, forall_eq']
    apply forall₂_congr
    intro usage husage
    -- the two keys come from the request or from the store
    cases hmaster : takenKey ed user (.object fields) masterUsage with
    | none =>
        cases hkey : takenKey ed user (.object fields) usage with
        | none => exact iff_of_true (h usage husage) trivial
        | some key => simp
    | some master =>
        cases hkey : takenKey ed user (.object fields) usage with
        | none => simp
        | some key =>
            -- the one pair that the handler has checked
            have hgood := badlySigned_of_taken_together husage hmaster hkey
            simpa using hgood
  · have hnone : ∀ fields, Json.parse (body.getD "\x7b\x7d") ≠ .ok (.object fields) :=
      fun fields hparse => hobject ⟨fields, hparse⟩
    rw [uploadStep_of_no_object hnone]
    exact iff_of_true h (fun fields hparse => absurd hparse (hnone fields))

end

/-! ## Runs -/

/-- Over a run of uploads, the stored keys of the user are signed by the stored master key at every
point exactly when each upload also leaves the pairs that it does not check well signed. -/
theorem chain_of_trust_iff (ed : Ed25519) (user : UserId) (s : Data) (bodies : List (Option Str))
    (hs : ChainOfTrust ed user s) :
    Throughout (uploadStep ed user) s bodies (ChainOfTrust ed user) ↔
      ∀ x ∈ trace (uploadStep ed user) s bodies, UncheckedPairsSigned ed user x.1 x.2 :=
  throughout_iff_trace (fun _ _ h => chainOfTrust_uploadStep_iff h) hs

namespace SampleUploads

/-- A request with the self-signing key alone. -/
def forgedBody : Str := '\x7b' :: (forgedKey ++ ['\x7d'])

end SampleUploads

open SampleUploads SampleExchange in
theorem chain_of_trust_sample :
    Throughout (uploadStep ed alice) Store.empty [some masterBody] (ChainOfTrust ed alice) ↔
      ∀ x ∈ trace (uploadStep ed alice) Store.empty [some masterBody],
        UncheckedPairsSigned ed alice x.1 x.2 :=
  chain_of_trust_iff ed alice Store.empty [some masterBody] (fun _ _ _ _ _ h => nomatch h)

open SampleUploads SampleExchange in
/-- A self-signing key that is uploaded after its master key is not checked. -/
theorem forged_key_after_master : ¬ ∀ (ed : Ed25519) (user : UserId) (bodies : List (Option Str)),
    Throughout (uploadStep ed user) Store.empty bodies (ChainOfTrust ed user) := by
  intro h
  have hend := chainOfTrust_iff.mp
    (h ed alice [some masterBody, some forgedBody] [some masterBody, some forgedBody] [] rfl)
  have hbad : (storedKey (run (uploadStep ed alice) Store.empty [some masterBody, some forgedBody])
      alice "self_signing").map (badlySigned ed alice
        ((storedKey (run (uploadStep ed alice) Store.empty [some masterBody, some forgedBody])
          alice masterUsage).bind crossSigningPublic)) = some true := by
    decide +kernel
  obtain ⟨key, hkey, hkeyBad⟩ := Option.map_eq_some_iff.mp hbad
  exact nomatch (hend "self_signing" List.mem_cons_self key hkey).symm.trans hkeyBad

end GaussMatrix.Http
