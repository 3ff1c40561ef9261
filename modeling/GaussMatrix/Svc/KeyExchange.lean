import GaussMatrix.Api.JsonObject
import GaussMatrix.Api.JsonRoundTrip
import GaussMatrix.Svc.ServerKeys
import GaussMatrix.Util.Base64

/-!
# The exchange of server keys

The key document that a server publishes, ingested by another server from its text, lets the requests
through that the first one signs.
-/

namespace GaussMatrix.Svc

open Library Util Api Fed

/-! ## The published document -/

/-- How long published keys are valid, in milliseconds. -/
def keyLifetimeMs : UInt64 := 24 * 60 * 60 * 1000

/-- The public key of each stored seed, under its key id. -/
def verifyKeys (ed : Ed25519) (s : Data) : List (Str × Json) :=
  (s.scan .serverKeys).filterMap fun row =>
    ((row.2.asText.bind ed.publicKeyB64).map fun key =>
      Json.ofFields [Json.field "key" (.string key)]).map fun entry => (row.1, entry)

/-- The document without its signatures. -/
def unsignedFields (env : Env) (ed : Ed25519) (s : Data) (validUntilTs : UInt64) : List (Str × Json) :=
  [Json.field "server_name" (.string env.serverName),
    Json.field "valid_until_ts" (.number (F64.ofNat validUntilTs.toNat)),
    Json.field "old_verify_keys" (Json.ofFields []),
    Json.field "verify_keys" (Json.ofFields (verifyKeys ed s))]

/-- The signature of each stored seed, under its key id. -/
def keySignatures (ed : Ed25519) (s : Data) (signingBytes : List UInt8) : List (Str × Json) :=
  (s.scan .serverKeys).filterMap fun row =>
    (row.2.asText.map fun seed => Json.string (ed.signB64 signingBytes seed)).map fun sig => (row.1, sig)

/-- The signatures of the document, if there are any, under the server's name. -/
def documentSignatures (env : Env) (ed : Ed25519) (s : Data) (validUntilTs : UInt64) : List (Str × Json) :=
  let byKey := keySignatures ed s
    (utf8Bytes (Json.ofFields (unsignedFields env ed s validUntilTs)).write)
  if byKey.isEmpty then [] else [(env.serverName, Json.ofFields byKey)]

def keyDocument (env : Env) (ed : Ed25519) (s : Data) (validUntilTs : UInt64) : Json :=
  Json.ofFields (unsignedFields env ed s validUntilTs ++
    [Json.field "signatures" (Json.ofFields (documentSignatures env ed s validUntilTs))])

/-- The key document of a server at a clock reading; none on overflow. -/
def serverKeys (env : Env) (ed : Ed25519) (s : Data) (now : UInt64) : Option Json :=
  if env.overflowChecks ∧ 2 ^ 64 ≤ now.toNat + keyLifetimeMs.toNat then none
  else some (keyDocument env ed s (now + keyLifetimeMs))

/-! ## Rows and entries -/

section

variable {env : Env} {ed : Ed25519} {s : Data} {keyId seed key : Str} {ts : UInt64}

/-- Rows that are mapped value by value keep their keys apart. -/
theorem nodup_filterMap {f : Record → Option Json} {rows : List (Str × Record)}
    (h : (rows.map Prod.fst).Nodup) :
    ((rows.filterMap fun row => (f row.2).map fun v => (row.1, v)).map Prod.fst).Nodup := by
  induction rows with
  | nil => exact List.nodup_nil
  | cons row rows ih =>
      obtain ⟨hnew, hrest⟩ := List.nodup_cons.mp h
      rw [List.filterMap_cons]
      cases f row.2 with
      | none => exact ih hrest
      | some v =>
          apply List.nodup_cons.mpr
          constructor
          · intro hmem
            obtain ⟨entry, hentry, hkey⟩ := List.mem_map.mp hmem
            obtain ⟨other, hother, hmapped⟩ := List.mem_filterMap.mp hentry
            obtain ⟨w, -, rfl⟩ := Option.map_eq_some_iff.mp hmapped
            apply hnew
            rw [← hkey]
            exact List.mem_map.mpr ⟨other, hother, rfl⟩
          · exact ih hrest

theorem nodup_scan (s : Data) (cf : Cf) : ((s.scan cf).map Prod.fst).Nodup := (s cf).nodup_keys

theorem nodup_verifyKeys (ed : Ed25519) (s : Data) : ((verifyKeys ed s).map Prod.fst).Nodup :=
  nodup_filterMap (f := fun record => (record.asText.bind ed.publicKeyB64).map fun key =>
    Json.ofFields [Json.field "key" (.string key)]) (nodup_scan s .serverKeys)

theorem nodup_keySignatures (ed : Ed25519) (s : Data) (signingBytes : List UInt8) :
    ((keySignatures ed s signingBytes).map Prod.fst).Nodup :=
  nodup_filterMap (f := fun record => record.asText.map fun seed =>
    Json.string (ed.signB64 signingBytes seed)) (nodup_scan s .serverKeys)

/-- The entry of a key. -/
def keyEntry (key : Str) : Json := Json.ofFields [Json.field "key" (.string key)]

theorem entryKey_keyEntry (key : Str) : entryKey (keyEntry key) = some key := rfl

theorem mem_verifyKeys (h : s.get .serverKeys keyId = some (.text seed))
    (hseed : ed.publicKeyB64 seed = some key) : (keyId, keyEntry key) ∈ verifyKeys ed s := by
  have hrow : (keyId, Record.text seed) ∈ s.scan .serverKeys := ((s .serverKeys).mem_entries_iff _ _).mpr h
  apply List.mem_filterMap.mpr
  refine ⟨_, hrow, ?_⟩
  simp only [Record.asText, Option.bind_some, hseed, Option.map_some]
  rfl

theorem mem_keySignatures (ed : Ed25519) (h : s.get .serverKeys keyId = some (.text seed))
    (signingBytes : List UInt8) :
    (keyId, Json.string (ed.signB64 signingBytes seed)) ∈ keySignatures ed s signingBytes := by
  have hrow : (keyId, Record.text seed) ∈ s.scan .serverKeys := ((s .serverKeys).mem_entries_iff _ _).mpr h
  exact List.mem_filterMap.mpr ⟨_, hrow, rfl⟩

/-- Each entry of `verify_keys` is the entry of a key in base64. -/
theorem of_mem_verifyKeys {entry : Str × Json} (h : entry ∈ verifyKeys ed s) :
    ∃ key, entry.2 = keyEntry key := by
  obtain ⟨row, -, hmapped⟩ := List.mem_filterMap.mp h
  obtain ⟨v, hv, rfl⟩ := Option.map_eq_some_iff.mp hmapped
  obtain ⟨key, -, rfl⟩ := Option.map_eq_some_iff.mp hv
  exact ⟨key, rfl⟩

theorem of_mem_keySignatures {signingBytes : List UInt8} {entry : Str × Json}
    (h : entry ∈ keySignatures ed s signingBytes) : ∃ sig, entry.2 = Json.string sig := by
  obtain ⟨row, -, hmapped⟩ := List.mem_filterMap.mp h
  obtain ⟨v, hv, rfl⟩ := Option.map_eq_some_iff.mp hmapped
  obtain ⟨seed, -, rfl⟩ := Option.map_eq_some_iff.mp hv
  exact ⟨_, rfl⟩

/-! ## The document through its text -/

/-- The number, if the value is one, is written as it is. -/
def numberPlain : Json → Bool
  | .number n => Json.writtenNumber n = n
  | _ => true

/-- What has only such numbers is written as it is. -/
theorem written_of_plain {v : Json} (h : v.everywhere numberPlain = true) : v.written = v := by
  induction v using Json.treeInduction with
  | null => rfl
  | bool b => rfl
  | number n => exact congrArg Json.number (of_decide_eq_true h)
  | string s => rfl
  | array items ih =>
      have hitems := (Json.everywhere_array.mp h).2
      have hwritten : Json.writtenItems items = items := by
        clear h
        induction items with
        | nil => rfl
        | cons x xs ihItems =>
            rw [List.forall_mem_cons] at ih hitems
            rw [Json.writtenItems, ih.1 hitems.1, ihItems ih.2 hitems.2]
      exact congrArg Json.array hwritten
  | object fields ih =>
      have hfields := (Json.everywhere_object.mp h).2
      have hwritten : Json.writtenFields fields = fields := by
        clear h
        induction fields with
        | nil => rfl
        | cons x xs ihFields =>
            obtain ⟨k, x⟩ := x
            rw [List.forall_mem_cons] at ih hfields
            rw [Json.writtenFields, ih.1 hfields.1, ihFields ih.2 hfields.2]
      exact congrArg Json.object hwritten

theorem plain_ofFields {fields : List (Str × Json)} (h : ∀ f ∈ fields, f.2.everywhere numberPlain = true) :
    (Json.ofFields fields).everywhere numberPlain = true := by
  apply Json.everywhere_object.mpr
  refine ⟨rfl, ?_⟩
  intro f hf
  rcases Json.mem_insertFields hf with hf | hf
  · exact h f hf
  · exact absurd hf List.not_mem_nil

/-- A value whose text is read back as it is: its keys are in order, it is not nested too deep, and
its numbers are written as they are. -/
structure Stable (depth : Nat) (v : Json) : Prop where
  ordered : v.Ordered
  shallow : v.nesting ≤ depth
  plain : v.everywhere numberPlain = true

theorem Stable.parse_write {v : Json} {depth : Nat} (h : Stable depth v) (hdepth : depth ≤ maxDepth) :
    Json.parse v.write = .ok v := by
  rw [Json.parse_write h.ordered, if_pos (h.shallow.trans hdepth), written_of_plain h.plain]

theorem stable_string (depth : Nat) (text : Str) : Stable depth (.string text) := ⟨rfl, Nat.zero_le _, rfl⟩

theorem stable_ofFields {fields : List (Str × Json)} {depth : Nat}
    (hnodup : (fields.map Prod.fst).Nodup) (h : ∀ f ∈ fields, Stable depth f.2) :
    Stable (depth + 1) (Json.ofFields fields) := by
  constructor
  · exact Json.ordered_ofFields fun f hf => (h f hf).ordered
  · rw [Json.nesting_ofFields_le_iff hnodup]
    exact fun f hf => Nat.succ_le_succ (h f hf).shallow
  · exact plain_ofFields fun f hf => (h f hf).plain

theorem Stable.mono {v : Json} {depth depth' : Nat} (h : Stable depth v) (hle : depth ≤ depth') :
    Stable depth' v :=
  ⟨h.ordered, h.shallow.trans hle, h.plain⟩

/-- A double without a sign is written as it is. -/
theorem stable_whole (depth units : Nat) (fits : F64.Representable units) :
    Stable depth (.number (.finite false units fits)) :=
  ⟨rfl, Nat.zero_le _, decide_eq_true rfl⟩

theorem stable_ofNat (depth : Nat) (ts : UInt64) : Stable depth (.number (F64.ofNat ts.toNat)) := by
  obtain ⟨q, -, fits, hnum, -⟩ := Json.asU64_ofNat ts
  rw [hnum]
  exact stable_whole depth _ fits

theorem stable_keyEntry (key : Str) : Stable 1 (keyEntry key) :=
  stable_ofFields (List.nodup_singleton _) fun f hf => by
    rw [List.mem_singleton.mp hf]
    exact stable_string 0 key

theorem stable_unsignedFields : ∀ f ∈ unsignedFields env ed s ts, Stable 2 f.2 := by
  intro f hf
  simp only [unsignedFields, List.mem_cons, List.not_mem_nil, or_false] at hf
  rcases hf with rfl | rfl | rfl | rfl
  · exact stable_string 2 env.serverName
  · exact stable_ofNat 2 ts
  · have hempty : Stable 1 (Json.ofFields []) :=
      stable_ofFields (List.nodup_nil : (([] : List (Str × Json)).map Prod.fst).Nodup)
        fun f hf => absurd hf List.not_mem_nil
    exact hempty.mono (by decide)
  · apply stable_ofFields (nodup_verifyKeys ed s)
    intro entry hentry
    obtain ⟨key, hkey⟩ := of_mem_verifyKeys hentry
    rw [hkey]
    exact stable_keyEntry key

theorem stable_documentSignatures : ∀ f ∈ documentSignatures env ed s ts, Stable 1 f.2 := by
  intro f hf
  rw [documentSignatures] at hf
  split at hf
  · exact absurd hf List.not_mem_nil
  · rw [List.mem_singleton.mp hf]
    apply stable_ofFields (nodup_keySignatures ed s _)
    intro entry hentry
    obtain ⟨sig, hsig⟩ := of_mem_keySignatures hentry
    rw [hsig]
    exact stable_string 0 sig

/-- The signatures of a server that has a seed. -/
theorem documentSignatures_eq (h : s.get .serverKeys keyId = some (.text seed)) :
    documentSignatures env ed s ts = [(env.serverName, Json.ofFields (keySignatures ed s
      (utf8Bytes (Json.ofFields (unsignedFields env ed s ts)).write)))] := by
  have hmem := mem_keySignatures ed h (utf8Bytes (Json.ofFields (unsignedFields env ed s ts)).write)
  rw [documentSignatures, if_neg]
  rw [List.isEmpty_iff]
  exact List.ne_nil_of_mem hmem

theorem nodup_documentSignatures : ((documentSignatures env ed s ts).map Prod.fst).Nodup := by
  rw [documentSignatures]
  split
  · exact List.nodup_nil
  · exact List.nodup_singleton _

theorem keys_document (env : Env) (ed : Ed25519) (s : Data) (ts : UInt64) (v : Json) :
    ((unsignedFields env ed s ts ++ [Json.field "signatures" v]).map Prod.fst).Nodup := by
  show ["server_name".toList, "valid_until_ts".toList, "old_verify_keys".toList, "verify_keys".toList,
    "signatures".toList].Nodup
  decide

theorem stable_keyDocument : Stable 3 (keyDocument env ed s ts) := by
  apply stable_ofFields (keys_document env ed s ts _)
  rw [List.forall_mem_append, List.forall_mem_singleton]
  constructor
  · exact stable_unsignedFields
  · exact stable_ofFields nodup_documentSignatures stable_documentSignatures

/-- The document is read back from its text as it was. -/
theorem parse_keyDocument : Json.parse (keyDocument env ed s ts).write = .ok (keyDocument env ed s ts) :=
  stable_keyDocument.parse_write (by decide)

/-- A new field that is struck again leaves what was there. -/
theorem erase_insert_new {k : Str} {v : Json} {m : List (Str × Json)} (hm : SortedList.Sorted m)
    (hk : m.lookup k = none) : SortedList.erase k (SortedList.insert k v m) = m := by
  apply SortedList.eq_of_lookup_eq
  · exact (SortedList.sorted_insert k v hm).filter _
  · exact hm
  · intro k'
    have hlookup : (SortedList.erase k (SortedList.insert k v m)).lookup k' = m.lookup k' := by
      rw [Json.lookup_erase, Json.lookup_insert]
      by_cases hkk : k' = k
      · rw [if_pos hkk, hkk, hk]
      · rw [if_neg hkk, if_neg hkk]
    convert hlookup

theorem unsigned_keyDocument :
    unsigned (keyDocument env ed s ts) = Json.ofFields (unsignedFields env ed s ts) := by
  have hnew : ((unsignedFields env ed s ts).foldl (fun m f => SortedList.insert f.1 f.2 m) []).lookup
      "signatures".toList = none := by
    have hkeys := keys_document env ed s ts .null
    rw [List.map_append] at hkeys
    rw [Json.lookup_insertFields (List.Nodup.of_append_left hkeys), List.lookup_nil, Option.or_none,
      List.lookup_eq_none_iff]
    intro f hf
    rw [bne_iff_ne]
    intro hsame
    -- the last key of the document is not among those before it
    have hdisjoint := List.disjoint_of_nodup_append hkeys
    exact hdisjoint (List.mem_map.mpr ⟨f, hf, hsame.symm⟩) List.mem_cons_self
  rw [keyDocument, Json.ofFields, List.foldl_append]
  exact congrArg Json.object
    (erase_insert_new (Json.sorted_insertFields List.Pairwise.nil) hnew)

/-- The parts of a server's document. -/
def documentParts (env : Env) (ed : Ed25519) (s : Data) (ts readTs : UInt64) : KeyDocument where
  serverName := env.serverName
  validUntilTs := readTs
  verifyKeys := (verifyKeys ed s).foldl (fun m f => SortedList.insert f.1 f.2 m) []
  signatures := (keySignatures ed s (utf8Bytes (Json.ofFields (unsignedFields env ed s ts)).write)).foldl
    (fun m f => SortedList.insert f.1 f.2 m) []

theorem get_keyDocument (k : Str) : (keyDocument env ed s ts).get k =
    (unsignedFields env ed s ts ++
      [Json.field "signatures" (Json.ofFields (documentSignatures env ed s ts))]).lookup k :=
  Json.get_ofFields (keys_document env ed s ts _) k

theorem validUntilTs_keyDocument : ((keyDocument env ed s ts).get "valid_until_ts").bind Json.asU64 =
    (Json.number (F64.ofNat ts.toNat)).asU64 := by
  have hget : (keyDocument env ed s ts).get "valid_until_ts" = some (.number (F64.ofNat ts.toNat)) := by
    rw [get_keyDocument]
    rfl
  rw [hget, Option.bind_some]

theorem readKeyDocument_keyDocument (h : s.get .serverKeys keyId = some (.text seed)) {readTs : UInt64}
    (hts : (Json.number (F64.ofNat ts.toNat)).asU64 = some readTs) :
    readKeyDocument (keyDocument env ed s ts) = some (documentParts env ed s ts readTs) := by
  have hname : ((keyDocument env ed s ts).get "server_name").bind Json.asStr = some env.serverName := by
    rw [get_keyDocument]
    rfl
  have htime : ((keyDocument env ed s ts).get "valid_until_ts").bind Json.asU64 = some readTs :=
    validUntilTs_keyDocument.trans hts
  have hkeys : ((keyDocument env ed s ts).get "verify_keys").bind Json.asObject =
      some ((verifyKeys ed s).foldl (fun m f => SortedList.insert f.1 f.2 m) []) := by
    rw [get_keyDocument]
    rfl
  have hsigs : (((keyDocument env ed s ts).get "signatures").bind fun j => j.get env.serverName).bind
      Json.asObject = some ((keySignatures ed s
        (utf8Bytes (Json.ofFields (unsignedFields env ed s ts)).write)).foldl
          (fun m f => SortedList.insert f.1 f.2 m) []) := by
    have hget : (keyDocument env ed s ts).get "signatures" =
        some (Json.ofFields (documentSignatures env ed s ts)) := by
      rw [get_keyDocument]
      rfl
    have hone : ∀ v : Json, ([(env.serverName, v)].map Prod.fst).Nodup := fun _ => List.nodup_singleton _
    rw [hget, Option.bind_some, documentSignatures_eq h, Json.get_ofFields (hone _),
      List.lookup_cons_self]
    rfl
  rw [readKeyDocument, hname, Option.bind_eq_bind, Option.bind_some, htime, Option.bind_eq_bind,
    Option.bind_some, hkeys, Option.bind_eq_bind, Option.bind_some, hsigs]
  rfl

/-- What an object of fields under different keys holds. -/
theorem lookup_inserted {fields : List (Str × Json)} (hnodup : (fields.map Prod.fst).Nodup) {k : Str}
    {v : Json} (hmem : (k, v) ∈ fields) :
    (fields.foldl (fun m f => SortedList.insert f.1 f.2 m) []).lookup k = some v := by
  rw [Json.lookup_insertFields hnodup, List.lookup_nil, Option.or_none, SortedList.lookup_eq_some_iff_mem]
  · exact hmem
  · intro v₁ v₂ h₁ h₂
    exact (Prod.mk.inj (List.inj_on_of_nodup_map hnodup h₁ h₂ rfl)).2

theorem mem_of_lookup {fields : List (Str × Json)} {k : Str} {v : Json} (h : fields.lookup k = some v) :
    (k, v) ∈ fields := by
  obtain ⟨l₁, l₂, hsplit, -⟩ := List.lookup_eq_some_iff.mp h
  rw [hsplit]
  exact List.mem_append_right l₁ List.mem_cons_self

/-- A document with a well-formed seed is signed by one of its own keys. -/
theorem selfSigned_keyDocument (hcomplete : ed.Complete) (h : s.get .serverKeys keyId = some (.text seed))
    (hseed : ed.publicKeyB64 seed = some key) (env' : Env) (readTs : UInt64) :
    selfSigned { env' with verifyB64 := ed.verifyB64 } (keyDocument env ed s ts)
      (documentParts env ed s ts readTs) = true := by
  have hsig := mem_of_lookup (lookup_inserted (nodup_keySignatures ed s _) (mem_keySignatures ed h
    (utf8Bytes (Json.ofFields (unsignedFields env ed s ts)).write)))
  have hentry := lookup_inserted (nodup_verifyKeys ed s) (mem_verifyKeys h hseed)
  apply List.any_eq_true.mpr
  refine ⟨_, hsig, ?_⟩
  have hkey : ((documentParts env ed s ts readTs).verifyKeys.lookup keyId).bind entryKey = some key := by
    show (((verifyKeys ed s).foldl (fun m f => SortedList.insert f.1 f.2 m) []).lookup keyId).bind _ = _
    rw [hentry]
    rfl
  rw [unsigned_keyDocument]
  simp only [hkey, Json.asStr]
  exact Ed25519.verifyB64_signB64 hcomplete hseed _

/-- A server accepts the document of another before it expires. -/
theorem acceptedDocument_keyDocument (hcomplete : ed.Complete)
    (h : s.get .serverKeys keyId = some (.text seed)) (hseed : ed.publicKeyB64 seed = some key)
    {readTs now : UInt64} (hts : (Json.number (F64.ofNat ts.toNat)).asU64 = some readTs)
    (hnow : now < readTs) (env' : Env) :
    acceptedDocument { env' with verifyB64 := ed.verifyB64 } (keyDocument env ed s ts) now =
      some (documentParts env ed s ts readTs) := by
  rw [acceptedDocument, readKeyDocument_keyDocument h hts]
  have hvalid : (decide (now < (documentParts env ed s ts readTs).validUntilTs) &&
      selfSigned { env' with verifyB64 := ed.verifyB64 } (keyDocument env ed s ts)
        (documentParts env ed s ts readTs)) = true := by
    rw [Bool.and_eq_true]
    exact ⟨decide_eq_true hnow, selfSigned_keyDocument hcomplete h hseed env' readTs⟩
  exact if_pos hvalid

/-- The advertisements of a document that share a name of the cache are one. -/
theorem advert_of_cacheKey (h : s.get .serverKeys keyId = some (.text seed))
    (hseed : ed.publicKeyB64 seed = some key) {readTs : UInt64} {ad : Advert}
    (had : ad ∈ (documentParts env ed s ts readTs).adverts)
    (hname : cacheKey ad.serverName ad.keyId = cacheKey env.serverName keyId) :
    ad = ⟨env.serverName, keyId, key, readTs⟩ := by
  obtain ⟨⟨keyId', entry⟩, hentry, hread⟩ := List.mem_filterMap.mp had
  obtain ⟨key', hkey', rfl⟩ := Option.map_eq_some_iff.mp hread
  have hid : keyId' = keyId := (List.cons.inj (List.append_cancel_left hname)).2
  rcases Json.mem_insertFields hentry with hentry | hentry
  · have hsame : (keyId', entry) = (keyId, keyEntry key) :=
      List.inj_on_of_nodup_map (nodup_verifyKeys ed s) hentry (mem_verifyKeys h hseed) hid
    obtain ⟨rfl, rfl⟩ := Prod.mk.inj hsame
    obtain rfl := Option.some_inj.mp ((entryKey_keyEntry key).symm.trans hkey')
    rfl
  · exact absurd hentry List.not_mem_nil

/-- After the document is ingested the key is cached. -/
theorem cachedKey_keyDocument (h : s.get .serverKeys keyId = some (.text seed))
    (hseed : ed.publicKeyB64 seed = some key) {readTs now : UInt64} (hnow : now < readTs) (s' : Data) :
    cachedKey ((documentParts env ed s ts readTs).adverts.foldl cacheAdvert s') env.serverName keyId now =
      some key := by
  have hentry := mem_of_lookup (lookup_inserted (nodup_verifyKeys ed s) (mem_verifyKeys h hseed))
  have hmem : (⟨env.serverName, keyId, key, readTs⟩ : Advert) ∈
      (documentParts env ed s ts readTs).adverts := by
    apply List.mem_filterMap.mpr
    refine ⟨_, hentry, ?_⟩
    show (entryKey (keyEntry key)).map _ = _
    rw [entryKey_keyEntry]
    rfl
  have hlatest : latestAdvert (documentParts env ed s ts readTs).adverts (cacheKey env.serverName keyId) =
      some ⟨env.serverName, keyId, key, readTs⟩ := by
    cases hfind : latestAdvert (documentParts env ed s ts readTs).adverts
        (cacheKey env.serverName keyId) with
    | none =>
        have hnone := List.find?_eq_none.mp hfind _ (List.mem_reverse.mpr hmem)
        exact absurd (decide_eq_true rfl) hnone
    | some ad =>
        obtain ⟨had, hname⟩ := latestAdvert_some hfind
        rw [advert_of_cacheKey h hseed had hname]
  have hsep : sep ∉ key := Ed25519.not_mem_publicKeyB64 (by decide) hseed
  rw [cachedKey, get_cacheAdverts, cachedRecord, hlatest]
  exact readCacheValue_eq_some_iff.mpr ⟨⟨hsep, hnow⟩, rfl⟩

end

/-- A key document is accepted from its text by any server before it expires, and then the requests
that its server signs for that server under one of its keys are let through. -/
theorem key_exchange_complete (ed : Ed25519) (hcomplete : ed.Complete) (origin destination : Env)
    (s s' : Data) (keyId seed key : Str) (now : UInt64) (doc : Json)
    (hregistered : s.get .serverKeys keyId = some (.text seed))
    (hseed : ed.publicKeyB64 seed = some key) (hdoc : serverKeys origin ed s now = some doc)
    (horigin : '"' ∉ origin.serverName) (hdestination : '"' ∉ destination.serverName)
    (hkeyId : '"' ∉ keyId) (method uri : Str) (content : Option Str) :
    let receiver := { destination with verifyB64 := ed.verifyB64 }
    let signature := ed.signB64
      (signingBytes method uri origin.serverName destination.serverName content) seed
    let header := XMatrixAuth.toHeader
      ⟨origin.serverName, some destination.serverName, keyId, signature⟩
    ∃ read validUntilTs, Json.parse doc.write = .ok read ∧
      (read.get "valid_until_ts").bind Json.asU64 = some validUntilTs ∧
      ∀ ingested verified : UInt64, ingested < validUntilTs → verified < validUntilTs →
        (ingestKeyDocument receiver s' read ingested).1 = true ∧
        verifyFederationRequest receiver (ingestKeyDocument receiver s' read ingested).2
          ⟨method, uri, content, some header⟩ verified = true := by
  intro receiver signature header
  rw [serverKeys] at hdoc
  split at hdoc
  · exact absurd hdoc (by simp)
  · obtain rfl := Option.some_inj.mp hdoc
    obtain ⟨q, -, fits, -, hts⟩ := Json.asU64_ofNat (now + keyLifetimeMs)
    refine ⟨_, UInt64.ofNat (min q (2 ^ 64 - 1)), parse_keyDocument, validUntilTs_keyDocument.trans hts, ?_⟩
    intro ingested verified hingested hverified
    -- the receiver takes the document in and caches the key
    have haccepted : acceptedDocument receiver (keyDocument origin ed s (now + keyLifetimeMs)) ingested =
        some (documentParts origin ed s (now + keyLifetimeMs) (UInt64.ofNat (min q (2 ^ 64 - 1)))) :=
      acceptedDocument_keyDocument hcomplete hregistered hseed hts hingested destination
    have hingest : ingestKeyDocument receiver s' (keyDocument origin ed s (now + keyLifetimeMs)) ingested =
        (true, (documentParts origin ed s (now + keyLifetimeMs)
          (UInt64.ofNat (min q (2 ^ 64 - 1)))).adverts.foldl cacheAdvert s') := by
      rw [ingestKeyDocument, haccepted]
    rw [hingest]
    refine ⟨rfl, ?_⟩
    have hquote : '"' ∉ signature := Ed25519.not_mem_signB64 (by decide) _ _
    have hto : ∀ d ∈ some destination.serverName, '"' ∉ d := by
      intro d hd
      rw [← Option.some_inj.mp hd]
      exact hdestination
    -- the header names that key, and the receiver as the destination
    have hauth : (FederationRequest.mk method uri content (some header)).auth =
        some ⟨origin.serverName, some destination.serverName, keyId, signature⟩ := by
      show XMatrixAuth.parse header = _
      exact XMatrixAuth.parse_toHeader horigin hto hkeyId hquote
    have hcached : cachedKey ((documentParts origin ed s (now + keyLifetimeMs)
        (UInt64.ofNat (min q (2 ^ 64 - 1)))).adverts.foldl cacheAdvert s') origin.serverName keyId verified =
          some key :=
      cachedKey_keyDocument hregistered hseed hverified s'
    rw [verifyFederationRequest, hauth]
    have hhere : (some destination.serverName).any (fun d => d ≠ receiver.serverName) = false := by
      show decide (destination.serverName ≠ destination.serverName) = false
      simp
    simp only [hhere, requestKey, hcached, Option.some_or, Bool.false_eq_true, if_false]
    exact Ed25519.verifyB64_signB64 hcomplete hseed _

namespace SampleExchange

/-- The public key of the seed of zeros. -/
def zeroKey : List.Vector UInt8 32 := ⟨
    [59, 106, 39, 188, 206, 182, 164, 45, 98, 163, 168, 208, 42, 111, 13, 115, 101, 50, 21, 119,
     29, 226, 67, 166, 58, 192, 72, 161, 139, 89, 218, 41], rfl⟩

/-- The text of the document that is signed. -/
def documentText : Str :=
  "\x7b\"old_verify_keys\":\x7b\x7d,\"server_name\":\"a.tld\",\"valid_until_ts\":86400000,".toList ++
    "\"verify_keys\":\x7b\"ed25519:1\":\x7b\"key\":".toList ++
      "\"O2onvM62pC1io6jQKm8Nc2UyFXcd4kOmOsBIoYtZ2ik\"\x7d\x7d\x7d".toList

/-- The text of the request that is signed. -/
def requestText : Str :=
  "\x7b\"destination\":\"b.tld\",\"method\":\"GET\",\"origin\":\"a.tld\",\"uri\":\"/x\"\x7d".toList

def documentSignature : List.Vector UInt8 64 := ⟨
    [71, 175, 82, 88, 28, 222, 116, 63, 147, 129, 28, 65, 9, 38, 242, 244, 175, 162, 182, 195, 61,
     113, 129, 37, 163, 80, 87, 9, 87, 29, 85, 44, 20, 220, 160, 145, 190, 131, 96, 42, 138, 9, 85,
     41, 117, 248, 43, 42, 109, 97, 172, 203, 154, 56, 160, 244, 163, 230, 169, 253, 193, 231, 45,
     13], rfl⟩

def requestSignature : List.Vector UInt8 64 := ⟨
    [89, 34, 236, 186, 102, 69, 78, 125, 179, 171, 116, 81, 241, 110, 17, 177, 240, 4, 166, 122,
     224, 107, 211, 19, 86, 186, 110, 240, 16, 199, 54, 191, 168, 255, 245, 106, 244, 45, 59, 186,
     178, 209, 6, 232, 169, 109, 110, 104, 46, 106, 233, 212, 39, 246, 116, 83, 174, 209, 14, 160,
     108, 203, 211, 9], rfl⟩

/-- The signature that verifies under a key: the two that the seed of zeros makes, and a toy one for
everything else. -/
def signatureUnder (key : List.Vector UInt8 32) (msg : List UInt8) : List.Vector UInt8 64 :=
  if key = zeroKey ∧ msg = utf8Bytes documentText then documentSignature
  else if key = zeroKey ∧ msg = utf8Bytes requestText then requestSignature
  else List.Vector.replicate 64 0

/-- The key of the seed of zeros as it is, and a toy key for every other seed. -/
def ed : Ed25519 where
  publicKey := fun seed => if seed = List.Vector.replicate 32 0 then zeroKey else seed
  sign := fun seed => signatureUnder (if seed = List.Vector.replicate 32 0 then zeroKey else seed)
  verify := fun key msg sig => sig = signatureUnder key msg

theorem complete : ed.Complete := fun _ _ => decide_eq_true rfl

/-- The seed of zeros. -/
def seed : Str := List.replicate 43 'A'

def key : Str := "O2onvM62pC1io6jQKm8Nc2UyFXcd4kOmOsBIoYtZ2ik".toList

def origin : Env := { SampleKeys.env with serverName := "a.tld".toList }

def stored : Data := Store.empty.put .serverKeys "ed25519:1".toList (.text seed)

end SampleExchange

open SampleExchange in
theorem key_exchange_complete_sample :
    ∃ read validUntilTs,
      Json.parse (keyDocument origin ed stored (0 + keyLifetimeMs)).write = .ok read ∧
      (read.get "valid_until_ts").bind Json.asU64 = some validUntilTs ∧
      ∀ ingested verified : UInt64, ingested < validUntilTs → verified < validUntilTs →
        (ingestKeyDocument { SampleKeys.env with verifyB64 := ed.verifyB64 } Store.empty read
          ingested).1 = true ∧
        verifyFederationRequest { SampleKeys.env with verifyB64 := ed.verifyB64 }
          (ingestKeyDocument { SampleKeys.env with verifyB64 := ed.verifyB64 } Store.empty read
            ingested).2
          ⟨"GET".toList, "/x".toList, none, some (XMatrixAuth.toHeader ⟨"a.tld".toList, some "b.tld".toList,
            "ed25519:1".toList, ed.signB64 (signingBytes "GET" "/x" "a.tld" "b.tld" none) seed⟩)⟩
          verified = true :=
  key_exchange_complete ed complete origin SampleKeys.env stored Store.empty "ed25519:1" seed key 0 _
    (by decide +kernel) (by decide +kernel) rfl (by decide) (by decide) (by decide) "GET" "/x" none

end GaussMatrix.Svc
