import GaussMatrix.Fed.Auth
import GaussMatrix.Svc.Server

/-!
# Server keys

The keys a server knows of other servers, registered by hand or read from key documents, and the
check of a request's signature against them.  The cache joins a server name and a key id into one
key with a separator that neither excludes.
-/

namespace GaussMatrix.Svc

open Library Util Api Fed

/-- The public key of a base64 secret seed, if it is a seed. -/
abbrev PublicKeyB64 := Str → Option Str

def registerFederationKey (s : Data) (origin publicKey : Str) : Data :=
  s.put .federationKeys origin (.text publicKey)

def federationKey (s : Data) (origin : Str) : Option Str :=
  (s.get .federationKeys origin).bind Record.asText

/-- The name a cached key is stored under. -/
def cacheKey (origin keyId : Str) : Str := origin ++ sep :: keyId

def cacheValue (publicKey : Str) (validUntilTs : UInt64) : Str :=
  publicKey ++ sep :: decimal validUntilTs.toNat

def cacheServerKey (s : Data) (origin keyId publicKey : Str) (validUntilTs : UInt64) : Data :=
  s.put .keyCache (cacheKey origin keyId) (.text (cacheValue publicKey validUntilTs))

/-- The key in a cached value, as long as it has not expired. -/
def readCacheValue (now : UInt64) (raw : Str) : Option Str := do
  let (publicKey, validUntil) ← splitOnce sep raw
  let validUntil ← parseU64 validUntil
  if now.toNat < validUntil then some publicKey else none

def cachedKey (s : Data) (origin keyId : Str) (now : UInt64) : Option Str :=
  ((s.get .keyCache (cacheKey origin keyId)).bind Record.asText).bind (readCacheValue now)

/-! ## Key documents -/

/-- A key that a document advertises. -/
structure Advert where
  serverName : Str
  keyId : Str
  publicKey : Str
  validUntilTs : UInt64
  deriving DecidableEq

/-- The parts of a key document. -/
structure KeyDocument where
  serverName : Str
  validUntilTs : UInt64
  verifyKeys : List (Str × Json)
  signatures : List (Str × Json)

def readKeyDocument (doc : Json) : Option KeyDocument := do
  let serverName ← (doc.get "server_name").bind Json.asStr
  let validUntilTs ← (doc.get "valid_until_ts").bind Json.asU64
  let verifyKeys ← (doc.get "verify_keys").bind Json.asObject
  let signatures ← ((doc.get "signatures").bind fun s => s.get serverName).bind Json.asObject
  return { serverName, validUntilTs, verifyKeys, signatures }

/-- The document that its server signed. -/
def unsigned : Json → Json
  | .object fields => .object (SortedList.erase "signatures" fields)
  | doc => doc

/-- The public key of an entry of `verify_keys`. -/
def entryKey (entry : Json) : Option Str := (entry.get "key").bind Json.asStr

/-- One of the advertised keys has signed the document. -/
def selfSigned (env : Env) (doc : Json) (parts : KeyDocument) : Bool :=
  parts.signatures.any fun (keyId, sig) =>
    match sig.asStr, (parts.verifyKeys.lookup keyId).bind entryKey with
    | some sig, some publicKey => env.verifyB64 (utf8Bytes (unsigned doc).write) sig publicKey
    | _, _ => false

/-- The parts of a document that is not stale and signed by a key of its own. -/
def acceptedDocument (env : Env) (doc : Json) (now : UInt64) : Option KeyDocument :=
  (readKeyDocument doc).filter fun parts => now < parts.validUntilTs && selfSigned env doc parts

/-- The keys a document advertises. -/
def KeyDocument.adverts (parts : KeyDocument) : List Advert :=
  parts.verifyKeys.filterMap fun (keyId, entry) =>
    (entryKey entry).map fun publicKey =>
      { serverName := parts.serverName, keyId, publicKey, validUntilTs := parts.validUntilTs }

def cacheAdvert (s : Data) (ad : Advert) : Data :=
  cacheServerKey s ad.serverName ad.keyId ad.publicKey ad.validUntilTs

/-- Ingest a key document: whether it was, and the data with its keys cached. -/
def ingestKeyDocument (env : Env) (s : Data) (doc : Json) (now : UInt64) : Bool × Data :=
  match acceptedDocument env doc now with
  | none => (false, s)
  | some parts => (true, parts.adverts.foldl cacheAdvert s)

/-- Register a signing key of this server; its public key is registered under the server's name. -/
def registerSigningKey (env : Env) (publicKeyB64 : PublicKeyB64) (s : Data) (keyId seed : Str) :
    Data :=
  let s := s.put .serverKeys keyId (.text seed)
  match publicKeyB64 seed with
  | some publicKey => s.put .federationKeys env.serverName (.text publicKey)
  | none => s

/-! ## Verifying a request -/

/-- The key a request is checked with: a fresh cached one first, then the registered one. -/
def requestKey (s : Data) (auth : XMatrixAuth) (now : UInt64) : Option Str :=
  (cachedKey s auth.origin auth.keyId now).or (federationKey s auth.origin)

/-- A request between servers, as its signature check sees it. -/
structure FederationRequest where
  method : Str
  uri : Str
  content : Option Str
  authorization : Option Str

def FederationRequest.auth (request : FederationRequest) : Option XMatrixAuth :=
  request.authorization.bind XMatrixAuth.parse

/-- The signature of a header holds for the request to this server under a public key. -/
def signedUnder (env : Env) (request : FederationRequest) (auth : XMatrixAuth) (publicKey : Str) :
    Bool :=
  env.verifyB64
    (signingBytes request.method request.uri auth.origin env.serverName request.content)
    auth.signature publicKey

def verifyFederationRequest (env : Env) (s : Data) (request : FederationRequest) (now : UInt64) :
    Bool :=
  match request.auth with
  | none => false
  | some auth =>
      if auth.destination.any (· ≠ env.serverName) then false
      else
        match requestKey s auth now with
        | none => false
        | some key => signedUnder env request auth key

/-! ## Runs -/

/-- A call that changes the known keys; an ingest with its clock reading. -/
inductive KeyOp
  | registerFederationKey (origin publicKey : Str)
  | registerSigningKey (keyId seed : Str)
  | ingestKeyDocument (doc : Json) (now : UInt64)

def keyStep (env : Env) (publicKeyB64 : PublicKeyB64) (s : Data) : KeyOp → Data
  | .registerFederationKey origin publicKey => registerFederationKey s origin publicKey
  | .registerSigningKey keyId seed => registerSigningKey env publicKeyB64 s keyId seed
  | .ingestKeyDocument doc now => (ingestKeyDocument env s doc now).2

/-- The keys that a call caches, in order. -/
def KeyOp.adverts (env : Env) : KeyOp → List Advert
  | .ingestKeyDocument doc now => ((acceptedDocument env doc now).map KeyDocument.adverts).getD []
  | _ => []

/-- The call registers a public key for a server. -/
def KeyOp.Registers (env : Env) (publicKeyB64 : PublicKeyB64) (origin publicKey : Str) :
    KeyOp → Prop
  | .registerFederationKey origin' publicKey' => origin' = origin ∧ publicKey' = publicKey
  | .registerSigningKey _ seed => env.serverName = origin ∧ publicKeyB64 seed = some publicKey
  | .ingestKeyDocument _ _ => False

/-- The key is registered for the server, or an unexpired document of the server advertises it under
the key id. -/
def OwnKey (env : Env) (publicKeyB64 : PublicKeyB64) (ops : List KeyOp) (auth : XMatrixAuth)
    (now : UInt64) (publicKey : Str) : Prop :=
  (∃ op ∈ ops, op.Registers env publicKeyB64 auth.origin publicKey) ∨
    ∃ ad ∈ ops.flatMap (KeyOp.adverts env), ad.serverName = auth.origin ∧ ad.keyId = auth.keyId ∧
      now < ad.validUntilTs ∧ ad.publicKey = publicKey

/-- The last advertisement under a name of the cache. -/
def latestAdvert (ads : List Advert) (key : Str) : Option Advert :=
  ads.reverse.find? fun ad => cacheKey ad.serverName ad.keyId = key

/-- The cached form of the advertisement reads back as its key. -/
def Advert.Fresh (ad : Advert) (now : UInt64) : Prop := sep ∉ ad.publicKey ∧ now < ad.validUntilTs

/-- The last advertisement under the header's joined name, while fresh, is the origin's own under the
header's key id. -/
def Unshadowed (env : Env) (ops : List KeyOp) (auth : XMatrixAuth) (now : UInt64) : Prop :=
  ∀ ad, latestAdvert (ops.flatMap (KeyOp.adverts env)) (cacheKey auth.origin auth.keyId) = some ad →
    ad.Fresh now → ad.serverName = auth.origin ∧ ad.keyId = auth.keyId

section

variable {env : Env} {publicKeyB64 : PublicKeyB64} {s : Data} {ops : List KeyOp} {key : Str}

theorem parseU64_eq_none {text : Str} (h : sep ∈ text) : parseU64 text = none := by
  have hdigits : ∀ digits : Str, sep ∈ digits → parseDecimal digits = none := by
    intro digits hsep
    rw [parseDecimal, if_neg]
    intro hall
    have hdigit := List.all_eq_true.mp hall.2 sep hsep
    exact absurd hdigit (by decide)
  unfold parseU64
  split
  · rename_i cs
    have hcs : sep ∈ cs := by
      apply (List.mem_cons.mp h).resolve_left
      decide
    show (parseDecimal cs).filter _ = none
    rw [hdigits cs hcs, Option.filter_none]
  · show (parseDecimal text).filter _ = none
    rw [hdigits text h, Option.filter_none]

/-- A cached value reads back as its own key, or not at all. -/
theorem readCacheValue_eq_some_iff {ad : Advert} {now : UInt64} :
    readCacheValue now (cacheValue ad.publicKey ad.validUntilTs) = some key ↔
      ad.Fresh now ∧ ad.publicKey = key := by
  by_cases hsep : sep ∈ ad.publicKey
  · -- what follows the first separator has a separator itself, so it is no number
    obtain ⟨before, after, hkey, hbefore⟩ := List.eq_append_cons_of_mem hsep
    have hsplit : splitOnce sep (cacheValue ad.publicKey ad.validUntilTs) =
        some (before, after ++ sep :: decimal ad.validUntilTs.toNat) := by
      rw [cacheValue, hkey, List.append_assoc, List.cons_append]
      exact splitOnce_append hbefore _
    have hnone : readCacheValue now (cacheValue ad.publicKey ad.validUntilTs) = none := by
      rw [readCacheValue, hsplit, Option.bind_eq_bind, Option.bind_some]
      show (parseU64 (after ++ sep :: decimal ad.validUntilTs.toNat)).bind _ = none
      rw [parseU64_eq_none (by simp)]
      rfl
    rw [hnone]
    constructor
    · exact fun h => absurd h (by simp)
    · exact fun h => absurd hsep h.1.1
  · have hsplit := splitOnce_append hsep (decimal ad.validUntilTs.toNat)
    have hread : readCacheValue now (cacheValue ad.publicKey ad.validUntilTs) =
        if now < ad.validUntilTs then some ad.publicKey else none := by
      rw [readCacheValue, cacheValue, hsplit, Option.bind_eq_bind, Option.bind_some]
      show (parseU64 (decimal ad.validUntilTs.toNat)).bind _ = _
      rw [parseU64_decimal ad.validUntilTs.toNat_lt, Option.bind_some]
      rfl
    rw [hread]
    by_cases hnow : now < ad.validUntilTs
    · rw [if_pos hnow, Option.some_inj]
      exact ⟨fun h => ⟨⟨hsep, hnow⟩, h⟩, And.right⟩
    · rw [if_neg hnow]
      constructor
      · exact fun h => absurd h (by simp)
      · exact fun h => absurd h.1.2 hnow

theorem latestAdvert_append (ads later : List Advert) :
    latestAdvert (ads ++ later) key = (latestAdvert later key).or (latestAdvert ads key) := by
  rw [latestAdvert, List.reverse_append, List.find?_append, ← latestAdvert, ← latestAdvert]

theorem latestAdvert_some {ads : List Advert} {ad : Advert} (h : latestAdvert ads key = some ad) :
    ad ∈ ads ∧ cacheKey ad.serverName ad.keyId = key := by
  have hmem := List.mem_of_find?_eq_some h
  have hkey := List.find?_some h
  exact ⟨List.mem_reverse.mp hmem, of_decide_eq_true hkey⟩

/-! ## What a run leaves in the two families -/

/-- The cached form of the last advertisement under a name. -/
def cachedRecord (ads : List Advert) (key : Str) : Option Record :=
  (latestAdvert ads key).map fun ad => .text (cacheValue ad.publicKey ad.validUntilTs)

theorem cachedRecord_append (ads later : List Advert) :
    cachedRecord (ads ++ later) key = (cachedRecord later key).or (cachedRecord ads key) := by
  rw [cachedRecord, latestAdvert_append, cachedRecord, cachedRecord]
  cases latestAdvert later key <;> rfl

theorem get_cacheAdverts (ads : List Advert) :
    (ads.foldl cacheAdvert s).get .keyCache key = (cachedRecord ads key).or (s.get .keyCache key) :=
  Store.get_foldl_put s .keyCache (fun ad : Advert => cacheKey ad.serverName ad.keyId)
    (fun ad => .text (cacheValue ad.publicKey ad.validUntilTs)) ads key

theorem get_federationKeys_cacheAdverts (ads : List Advert) :
    (ads.foldl cacheAdvert s).get .federationKeys key = s.get .federationKeys key := by
  induction ads generalizing s with
  | nil => rfl
  | cons ad ads ih =>
      rw [List.foldl_cons, ih]
      rfl

/-- A call caches what it advertises, over what was cached before. -/
theorem get_keyCache_keyStep (op : KeyOp) :
    (keyStep env publicKeyB64 s op).get .keyCache key =
      (cachedRecord (op.adverts env) key).or (s.get .keyCache key) := by
  cases op with
  | registerFederationKey origin publicKey => rfl
  | registerSigningKey keyId seed =>
      show (registerSigningKey env publicKeyB64 s keyId seed).get .keyCache key = _
      rw [registerSigningKey]
      cases publicKeyB64 seed <;> rfl
  | ingestKeyDocument doc now =>
      show (ingestKeyDocument env s doc now).2.get .keyCache key = _
      rw [ingestKeyDocument, KeyOp.adverts]
      cases acceptedDocument env doc now with
      | none => rfl
      | some parts => exact get_cacheAdverts parts.adverts

theorem get_keyCache_run : (run (keyStep env publicKeyB64) s ops).get .keyCache key =
    (cachedRecord (ops.flatMap (KeyOp.adverts env)) key).or (s.get .keyCache key) := by
  induction ops generalizing s with
  | nil => rfl
  | cons op ops ih =>
      rw [run_cons, ih, get_keyCache_keyStep, List.flatMap_cons, cachedRecord_append, Option.or_assoc]

/-- A call leaves a server's registered key, or registers another one for it. -/
theorem get_federationKeys_keyStep (origin : Str) (op : KeyOp) :
    (keyStep env publicKeyB64 s op).get .federationKeys origin = s.get .federationKeys origin ∨
      ∃ publicKey, op.Registers env publicKeyB64 origin publicKey ∧
        (keyStep env publicKeyB64 s op).get .federationKeys origin = some (.text publicKey) := by
  cases op with
  | registerFederationKey origin' publicKey =>
      show (s.put .federationKeys origin' (.text publicKey)).get .federationKeys origin = _ ∨ _
      by_cases horigin : origin = origin'
      · right
        refine ⟨publicKey, ⟨horigin.symm, rfl⟩, ?_⟩
        show (s.put .federationKeys origin' (.text publicKey)).get .federationKeys origin = _
        rw [Store.get_put, if_pos horigin]
      · left
        rw [Store.get_put, if_neg horigin]
  | registerSigningKey keyId seed =>
      show (registerSigningKey env publicKeyB64 s keyId seed).get .federationKeys origin = _ ∨
        ∃ publicKey, _ ∧ (registerSigningKey env publicKeyB64 s keyId seed).get .federationKeys
          origin = _
      rw [registerSigningKey]
      cases hpublic : publicKeyB64 seed with
      | none => exact .inl rfl
      | some publicKey =>
          by_cases horigin : origin = env.serverName
          · right
            refine ⟨publicKey, ⟨horigin.symm, hpublic⟩, ?_⟩
            rw [Store.get_put, if_pos horigin]
          · left
            rw [Store.get_put, if_neg horigin]
            rfl
  | ingestKeyDocument doc now =>
      left
      show (ingestKeyDocument env s doc now).2.get .federationKeys origin = _
      rw [ingestKeyDocument]
      cases acceptedDocument env doc now with
      | none => rfl
      | some parts => exact get_federationKeys_cacheAdverts parts.adverts

theorem registers_of_get_run {origin publicKey : Str}
    (h : (run (keyStep env publicKeyB64) s ops).get .federationKeys origin = some (.text publicKey))
    (hs : s.get .federationKeys origin = none) :
    ∃ op ∈ ops, op.Registers env publicKeyB64 origin publicKey := by
  induction ops using List.reverseRecOn with
  | nil => exact absurd (hs.symm.trans h) (by simp)
  | append_singleton ops op ih =>
      rw [run_append, run_cons, run_nil] at h
      rcases get_federationKeys_keyStep origin op with hkeep | ⟨key, hop, hset⟩
      · rw [hkeep] at h
        obtain ⟨op', hop', hreg⟩ := ih h
        exact ⟨op', List.mem_append_left _ hop', hreg⟩
      · rw [hset] at h
        obtain rfl : key = publicKey := by simpa using h
        exact ⟨op, by simp, hop⟩

/-- The key that a run makes the cache give. -/
theorem cachedKey_run_eq_some_iff {origin keyId : Str} {now : UInt64} :
    cachedKey (run (keyStep env publicKeyB64) Store.empty ops) origin keyId now = some key ↔
      ∃ ad, latestAdvert (ops.flatMap (KeyOp.adverts env)) (cacheKey origin keyId) = some ad ∧
        ad.Fresh now ∧ ad.publicKey = key := by
  have hget : (run (keyStep env publicKeyB64) Store.empty ops).get .keyCache (cacheKey origin keyId) =
      cachedRecord (ops.flatMap (KeyOp.adverts env)) (cacheKey origin keyId) := by
    rw [get_keyCache_run]
    exact Option.or_none
  rw [cachedKey, hget, cachedRecord]
  cases latestAdvert (ops.flatMap (KeyOp.adverts env)) (cacheKey origin keyId) with
  | none => simp
  | some ad =>
      show readCacheValue now (cacheValue ad.publicKey ad.validUntilTs) = some key ↔ _
      rw [readCacheValue_eq_some_iff]
      simp

/-- A key that a request is checked with is the origin's own, unless another server's
advertisement shadows it. -/
theorem ownKey_of_requestKey {auth : XMatrixAuth} {now : UInt64}
    (hclear : Unshadowed env ops auth now)
    (h : requestKey (run (keyStep env publicKeyB64) Store.empty ops) auth now = some key) :
    OwnKey env publicKeyB64 ops auth now key := by
  rw [requestKey, Option.or_eq_some_iff] at h
  rcases h with hcached | ⟨-, hregistered⟩
  · obtain ⟨ad, hlatest, hfresh, hkey⟩ := cachedKey_run_eq_some_iff.mp hcached
    obtain ⟨hserver, hid⟩ := hclear ad hlatest hfresh
    exact .inr ⟨ad, (latestAdvert_some hlatest).1, hserver, hid, hfresh.2, hkey⟩
  · obtain ⟨record, hget, htext⟩ := Option.bind_eq_some_iff.mp hregistered
    have hrecord : record = .text key := by
      cases record with
      | text publicKey => rw [Option.some_inj.mp htext]
      | pdu p => exact absurd htext (by simp [Record.asText])
    rw [hrecord] at hget
    exact .inl (registers_of_get_run hget rfl)

end

/-- The signature of an accepted request holds under a key of its origin. -/
def OriginAuthentic (env : Env) (publicKeyB64 : PublicKeyB64) (ops : List KeyOp)
    (request : FederationRequest) (now : UInt64) : Prop :=
  ∃ auth publicKey, request.auth = some auth ∧ OwnKey env publicKeyB64 ops auth now publicKey ∧
    signedUnder env request auth publicKey = true

/-- After every run, a request that is accepted comes from its origin, where no other server's
advertisement shadows the key of its header; where one does, its key passes for the origin's. -/
theorem accepted_request_authentic (env : Env) (publicKeyB64 : PublicKeyB64) (ops : List KeyOp)
    (request : FederationRequest) (auth : XMatrixAuth) (now : UInt64)
    (hauth : request.auth = some auth) :
    (Unshadowed env ops auth now →
      verifyFederationRequest env (run (keyStep env publicKeyB64) Store.empty ops) request now = true →
        OriginAuthentic env publicKeyB64 ops request now) ∧
    ∀ ad, latestAdvert (ops.flatMap (KeyOp.adverts env)) (cacheKey auth.origin auth.keyId) = some ad →
      ad.Fresh now → auth.destination.all (· = env.serverName) = true →
        verifyFederationRequest env (run (keyStep env publicKeyB64) Store.empty ops) request now =
          signedUnder env request auth ad.publicKey := by
  constructor
  · -- what is accepted was checked with a key that the origin is shown to own
    intro hclear haccepted
    rw [verifyFederationRequest, hauth] at haccepted
    simp only at haccepted
    split at haccepted
    · exact absurd haccepted Bool.false_ne_true
    · split at haccepted
      · exact absurd haccepted Bool.false_ne_true
      · rename_i key hkey
        exact ⟨auth, key, hauth, ownKey_of_requestKey hclear hkey, haccepted⟩
  · -- while the latest key is fresh it decides
    intro ad hlatest hfresh hdestination
    have hhere : auth.destination.any (· ≠ env.serverName) = false := by
      cases hd : auth.destination with
      | none => rfl
      | some destination =>
          rw [hd] at hdestination
          have heq : destination = env.serverName := of_decide_eq_true hdestination
          simp [heq]
    have hcached : cachedKey (run (keyStep env publicKeyB64) Store.empty ops) auth.origin auth.keyId
        now = some ad.publicKey :=
      cachedKey_run_eq_some_iff.mpr ⟨ad, hlatest, hfresh, rfl⟩
    rw [verifyFederationRequest, hauth]
    simp only [hhere, requestKey, hcached]
    rfl

namespace SampleKeys

/-- A toy signature: the key and the length of the message. -/
def sign (message : List UInt8) (key : Str) : Str := key ++ decimal message.length

def env : Env :=
  { sha256 := fun _ => []
    verifyB64 := fun message signature publicKey => signature == sign message publicKey
    roomHash := fun _ _ _ => 0
    serverName := "b.tld"
    overflowChecks := true }

def publicKeyB64 : PublicKeyB64 := fun seed => some seed

/-- An ingest of a document of a server that advertises one key and is signed with it. -/
def ingest (serverName keyId publicKey : Str) : KeyOp :=
  let fields := [Json.field "server_name" (.string serverName),
    Json.field "valid_until_ts" (.number (F64.ofNat 1000)),
    Json.field "verify_keys" (.object [(keyId, .object [("key".toList, .string publicKey)])])]
  let signature := sign (utf8Bytes (Json.ofFields fields).write) publicKey
  .ingestKeyDocument (Json.ofFields (fields ++
    [Json.field "signatures" (.object [(serverName, .object [(keyId, .string signature)])])])) 1

/-- A request whose header names an origin and a key id, signed with a key. -/
def request (origin keyId key : Str) : FederationRequest :=
  let signature := sign (signingBytes "PUT" "/send/1" origin "b.tld" none) key
  { method := "PUT".toList
    uri := "/send/1".toList
    content := none
    authorization := some ("X-Matrix origin=\"".toList ++ origin ++ "\",key=\"".toList ++ keyId ++
      "\",sig=\"".toList ++ signature ++ "\"".toList) }

def auth (origin keyId key : Str) : XMatrixAuth :=
  { origin, destination := none, keyId,
    signature := sign (signingBytes "PUT" "/send/1" origin "b.tld" none) key }

/-- The key id of the forged header, which has the cache's separator in it. -/
def forgedId : Str := "x".toList ++ sep :: "y".toList

/-- The server name of the document that the forger publishes. -/
def forgedServer : Str := "a.tld".toList ++ sep :: "x".toList

end SampleKeys

open SampleKeys in
/-- A server's own document lets its request through. -/
theorem accepted_request_authentic_sample :
    verifyFederationRequest env (run (keyStep env publicKeyB64) Store.empty
        [ingest "a.tld" "ed25519:1" "K"]) (request "a.tld" "ed25519:1" "K") 7 = true ∧
      OriginAuthentic env publicKeyB64 [ingest "a.tld" "ed25519:1" "K"]
        (request "a.tld" "ed25519:1" "K") 7 := by
  have haccepted : verifyFederationRequest env (run (keyStep env publicKeyB64) Store.empty
      [ingest "a.tld" "ed25519:1" "K"]) (request "a.tld" "ed25519:1" "K") 7 = true := by
    decide +kernel
  refine ⟨haccepted, ?_⟩
  apply (accepted_request_authentic env publicKeyB64 [ingest "a.tld" "ed25519:1" "K"]
    (request "a.tld" "ed25519:1" "K") (auth "a.tld" "ed25519:1" "K") 7 (by decide +kernel)).1 _
    haccepted
  intro ad hlatest _
  have hads : [ingest "a.tld" "ed25519:1" "K"].flatMap (KeyOp.adverts env) =
      [⟨"a.tld".toList, "ed25519:1".toList, "K".toList, 1000⟩] := by
    decide +kernel
  rw [hads] at hlatest
  have hmem := List.mem_singleton.mp (latestAdvert_some hlatest).1
  rw [hmem]
  exact ⟨rfl, rfl⟩

open SampleKeys in
/-- The key of a document published as `a.tld␟x` under `y` passes for a key of `a.tld` under
`x␟y`. -/
theorem foreign_document_authenticates :
    ¬ ∀ (env : Env) (publicKeyB64 : PublicKeyB64) (ops : List KeyOp) (request : FederationRequest)
      (now : UInt64),
      verifyFederationRequest env (run (keyStep env publicKeyB64) Store.empty ops) request now = true →
        OriginAuthentic env publicKeyB64 ops request now := by
  intro h
  have haccepted : verifyFederationRequest env (run (keyStep env publicKeyB64) Store.empty
      [ingest forgedServer "y" "K"]) (request "a.tld" forgedId "K") 7 = true := by
    decide +kernel
  obtain ⟨auth', publicKey, hauth, hown, -⟩ := h env publicKeyB64 [ingest forgedServer "y" "K"]
    (request "a.tld" forgedId "K") 7 haccepted
  have hparsed : (request "a.tld" forgedId "K").auth = some (auth "a.tld" forgedId "K") := by
    decide +kernel
  have heq : auth' = auth "a.tld" forgedId "K" := Option.some_inj.mp (hauth.symm.trans hparsed)
  have hads : [ingest forgedServer "y" "K"].flatMap (KeyOp.adverts env) =
      [⟨forgedServer, "y".toList, "K".toList, 1000⟩] := by
    decide +kernel
  rcases hown with ⟨op, hop, hreg⟩ | ⟨ad, had, hserver, -⟩
  · -- the only call of the run registers nothing
    rw [List.mem_singleton.mp hop] at hreg
    exact hreg
  · rw [hads] at had
    rw [List.mem_singleton.mp had, heq] at hserver
    revert hserver
    decide

end GaussMatrix.Svc
