import GaussMatrix.Http.Routing
import GaussMatrix.Http.Wire

/-!
# Two servers on the wire

A server fetches the key document of another one and takes it in.  A transaction that the other server
then signs and delivers is handled as if it had been handed over.
-/

namespace GaussMatrix.Http.Ingress

open Library Util Api Api.Events StateRes Svc Fed RoomService

/-! ## The sender -/

def keyServerPath : Str := "/_matrix/key/v2/server"

/-- Where a transaction is delivered. -/
def sendTarget (txnId : Str) : Str := "/_matrix/federation/v1/send/".toList ++ txnId

/-- Deliver a transaction to a server. -/
def deliverTransaction (env : ServerEnv) (s : Data) (txnId authorization transactionJson : Str)
    (clock : Clock) : Except IoError (Nat × Str) × Data :=
  sendRequest env s .put (sendTarget txnId) (some authorization) (some transactionJson) clock

/-- The header that the origin signs a request with. -/
def signedHeader (origin destination : ServerEnv) (keyId seed method uri : Str)
    (content : Option Str) : Str :=
  XMatrixAuth.toHeader ⟨origin.serverName, some destination.serverName, keyId,
    origin.ed.signB64 (signingBytes method uri origin.serverName destination.serverName content) seed⟩

/-- A name that stands in a header between quotes. -/
structure Quotable (name : Str) : Prop where
  no_quote : '"' ∉ name
  no_break : NoBreak name

/-- A transaction id that stands in a path as it is. -/
structure PathSegment (segment : Str) : Prop where
  ne_nil : segment ≠ []
  plain : '/' ∉ segment ∧ '?' ∉ segment ∧ '#' ∉ segment
  no_space : ∀ c ∈ segment, isWhiteSpace c = false

section

variable {env origin destination : ServerEnv} {s s' : Data} {req : Request} {clock : Clock}

/-! ## Routing -/

/-- A template whose placeholders are filled with plain segments is routed to its endpoint. -/
theorem resolve_filled {e : Endpoint} (he : e ∈ Endpoint.surface) {enc : Str → Str}
    (henc : ∀ name ∈ e.params,
      enc name ≠ [] ∧ '/' ∉ enc name ∧ '?' ∉ enc name ∧ '#' ∉ enc name) :
    ∃ params, resolve e.method (e.target enc) = .found ⟨e, params⟩ := by
  have hsegments : ∀ seg ∈ e.segments enc, seg ≠ [] ∧ '/' ∉ seg ∧ '?' ∉ seg ∧ '#' ∉ seg := by
    intro seg hseg
    obtain ⟨tmpl, htmpl, rfl⟩ := List.mem_map.mp hseg
    cases hplace : placeholder tmpl with
    | none =>
        rw [fillSegment_of_none hplace]
        exact surface_segments.1 e he tmpl htmpl hplace
    | some name =>
        rw [fillSegment_of_some hplace]
        exact henc name (List.mem_filterMap.mpr ⟨tmpl, htmpl, hplace⟩)
  -- the target is a path as a whole
  have hpath : ∀ c ∈ e.target enc, decide (c ≠ '?' ∧ c ≠ '#') = true := by
    intro c hc
    obtain ⟨seg, hseg, hc⟩ := List.mem_flatMap.mp hc
    obtain ⟨-, -, hquery, hfragment⟩ := hsegments seg hseg
    rcases List.mem_cons.mp hc with rfl | hc
    · decide
    · exact decide_eq_true ⟨fun h => hquery (h ▸ hc), fun h => hfragment (h ▸ hc)⟩
  have hsplit : splitPath ((e.target enc).takeWhile fun c => c ≠ '?' ∧ c ≠ '#') = e.segments enc := by
    rw [List.takeWhile_eq_self_iff.mpr hpath, Endpoint.target]
    exact splitPath_flatMap fun seg hseg => ⟨(hsegments seg hseg).1, (hsegments seg hseg).2.1⟩
  have hdecode : ∀ name ∈ e.params, percentDecode (enc name) = (percentDecode ∘ enc) name :=
    fun _ _ => rfl
  obtain ⟨params, hmatch, -⟩ := matchSegments_fill hdecode SortedMap.empty
  refine ⟨params, ?_⟩
  rw [resolve, hsplit]
  apply resolveAmong_unique he
  · have hzip : (splitPath e.path).zip (e.segments enc) =
        (splitPath e.path).map fun t => (t, fillSegment enc t) := by
      conv_lhs => rw [Endpoint.segments, ← List.map_id (splitPath e.path), List.map_map]
      exact List.zip_map'
    rw [matchTemplate, hzip, Endpoint.segments, List.length_map, if_neg (not_not.mpr rfl)]
    exact hmatch
  · intro e' he' hmethod
    exact (surface_separated he he' hmethod).imp_right matchTemplate_separated

theorem resolve_keyServer : ∃ params, resolve .get keyServerPath =
    .found ⟨Endpoint.ssPublic .get keyServerPath, params⟩ := by
  have he : Endpoint.ssPublic .get keyServerPath ∈ Endpoint.surface := by decide +kernel
  have hnone : (Endpoint.ssPublic .get keyServerPath).params = [] := by decide +kernel
  have htarget : (Endpoint.ssPublic .get keyServerPath).target id = keyServerPath := by decide +kernel
  have hfill : ∀ name ∈ (Endpoint.ssPublic .get keyServerPath).params,
      id name ≠ [] ∧ '/' ∉ id name ∧ '?' ∉ id name ∧ '#' ∉ id name := by
    simp [hnone]
  have hfound := resolve_filled he hfill
  rw [htarget] at hfound
  exact hfound

/-- The target of a template whose only placeholder is its last segment. -/
theorem target_of_last {e : Endpoint} {enc : Str → Str} {literals : List Str} {tmpl name : Str}
    (hsplit : splitPath e.path = literals ++ [tmpl])
    (hliterals : ∀ literal ∈ literals, placeholder literal = none)
    (hname : placeholder tmpl = some name) :
    e.target enc = literals.flatMap ('/' :: ·) ++ '/' :: enc name := by
  have hfill : literals.map (fillSegment enc) = literals := by
    conv_rhs => rw [← List.map_id literals]
    exact List.map_congr_left fun literal hmem => fillSegment_of_none (hliterals literal hmem)
  rw [Endpoint.target, Endpoint.segments, hsplit, List.map_append, hfill, List.flatMap_append,
    List.map_singleton, fillSegment_of_some hname, List.flatMap_singleton]

def sendEndpoint : Endpoint := Endpoint.ss .put "/_matrix/federation/v1/send/{txnId}"

theorem target_sendEndpoint (txnId : Str) : sendEndpoint.target (fun _ => txnId) = sendTarget txnId := by
  have hsplit : splitPath sendEndpoint.path =
      ["_matrix".toList, "federation".toList, "v1".toList, "send".toList] ++ ["{txnId}".toList] := by
    decide +kernel
  have hliterals : ∀ literal ∈ ["_matrix".toList, "federation".toList, "v1".toList, "send".toList],
      placeholder literal = none := by
    decide +kernel
  have hname : placeholder "{txnId}".toList = some "txnId".toList := by decide +kernel
  have hprefix : "/_matrix/federation/v1/send/".toList =
      ["_matrix".toList, "federation".toList, "v1".toList, "send".toList].flatMap ('/' :: ·) ++
        ['/'] := by
    decide +kernel
  have hpath : sendTarget txnId =
      ["_matrix".toList, "federation".toList, "v1".toList, "send".toList].flatMap ('/' :: ·) ++
        ['/'] ++ txnId := congrArg (· ++ txnId) hprefix
  rw [target_of_last hsplit hliterals hname, hpath, List.append_assoc, List.singleton_append]

theorem resolve_send {txnId : Str} (h : PathSegment txnId) : ∃ params,
    resolve .put (sendTarget txnId) = .found ⟨sendEndpoint, params⟩ := by
  have he : sendEndpoint ∈ Endpoint.surface := by decide +kernel
  have hfill : ∀ name ∈ sendEndpoint.params, (fun _ : Str => txnId) name ≠ [] ∧
      '/' ∉ (fun _ : Str => txnId) name ∧ '?' ∉ (fun _ : Str => txnId) name ∧
        '#' ∉ (fun _ : Str => txnId) name :=
    fun _ _ => ⟨h.ne_nil, h.plain⟩
  have hfound := resolve_filled he hfill
  rw [target_sendEndpoint] at hfound
  exact hfound

/-- The key document is served to anyone. -/
theorem handle_keyServer (hmethod : req.method = .get) (htarget : req.target = keyServerPath) :
    handle env s req clock =
      (.jsonOk (keyDocument env.toEnv env.ed s (clock.now 0 + keyLifetimeMs)).write, s) := by
  obtain ⟨params, hresolve⟩ := resolve_keyServer
  have hroute : routes.lookup (Method.get, keyServerPath) =
      some (reading fun env s c =>
        .jsonOk (keyDocument env.toEnv env.ed s (c.clock.now 0 + keyLifetimeMs)).write) := rfl
  unfold handle
  rw [hmethod, htarget, hresolve]
  dsimp only [authenticate, Endpoint.ssPublic, serve]
  rw [hroute]
  rfl

/-- A transaction whose signature holds is given to its handler. -/
theorem handle_send {txnId : Str} (htxn : PathSegment txnId) (hmethod : req.method = .put)
    (htarget : req.target = sendTarget txnId)
    (hverified : verifyFederationRequest env.toEnv s req.federation clock.gate = true) :
    handle env s req clock = serveTransaction env s req.body := by
  obtain ⟨params, hresolve⟩ := resolve_send htxn
  have hroute : routes.lookup (sendEndpoint.method, sendEndpoint.path) =
      some fun env s c => serveTransaction env s c.req.body := rfl
  unfold handle
  rw [hmethod, htarget, hresolve]
  dsimp only [authenticate, serve]
  rw [hroute]
  dsimp only [sendEndpoint, Endpoint.ss]
  rw [if_pos hverified]

/-! ## Signing and verifying -/

theorem noBreak_append {a b : Str} (ha : NoBreak a) (hb : NoBreak b) : NoBreak (a ++ b) := by
  constructor
  · rw [List.mem_append, not_or]
    exact ⟨ha.no_cr, hb.no_cr⟩
  · rw [List.mem_append, not_or]
    exact ⟨ha.no_lf, hb.no_lf⟩

theorem toHeader_no_break {auth : XMatrixAuth} (horigin : NoBreak auth.origin)
    (hdestination : ∀ destination ∈ auth.destination, NoBreak destination)
    (hkey : NoBreak auth.keyId) (hsig : NoBreak auth.signature) : NoBreak auth.toHeader := by
  have hscheme : NoBreak "X-Matrix origin=\"".toList := ⟨by decide, by decide⟩
  have hcomma : NoBreak "\",".toList := ⟨by decide, by decide⟩
  have hto : NoBreak "destination=\"".toList := ⟨by decide, by decide⟩
  have hname : NoBreak "key=\"".toList := ⟨by decide, by decide⟩
  have hthen : NoBreak "\",sig=\"".toList := ⟨by decide, by decide⟩
  have hlast : NoBreak "\"".toList := ⟨by decide, by decide⟩
  have hend := noBreak_append (noBreak_append (noBreak_append (noBreak_append hname hkey) hthen) hsig) hlast
  have hstart := noBreak_append (noBreak_append hscheme horigin) hcomma
  obtain ⟨name, destination, keyId, signature⟩ := auth
  cases destination with
  | none => exact noBreak_append hstart hend
  | some destination =>
      have hmiddle := noBreak_append (noBreak_append hto (hdestination destination rfl)) hcomma
      exact noBreak_append (noBreak_append hstart hmiddle) hend

/-- A rendered header starts with its scheme and ends with a quote. -/
theorem toHeader_trimmed (auth : XMatrixAuth) : Trimmed auth.toHeader := by
  constructor
  · intro c hc
    have hscheme : "X-Matrix origin=\"".toList = 'X' :: "-Matrix origin=\"".toList := by decide +kernel
    have hhead : auth.toHeader.head? = some 'X' := by
      unfold XMatrixAuth.toHeader
      rw [hscheme]
      cases auth.destination <;> rfl
    obtain rfl := Option.some.inj (hhead.symm.trans hc)
    decide
  · intro c hc
    have hquote : "\"".toList = ['"'] := by decide +kernel
    have hlast : auth.toHeader.getLast? = some '"' := by
      unfold XMatrixAuth.toHeader
      rw [hquote, ← List.append_assoc, List.getLast?_concat]
    obtain rfl := Option.some.inj (hlast.symm.trans hc)
    decide

/-- A header of quotable names stands in a line as it is. -/
theorem isHeaderValue_signedHeader {keyId seed method uri : Str} {content : Option Str}
    (horigin : Quotable origin.serverName) (hdestination : Quotable destination.serverName)
    (hkey : Quotable keyId) :
    IsHeaderValue (signedHeader origin destination keyId seed method uri content) := by
  have hsig : NoBreak (origin.ed.signB64 (signingBytes method uri origin.serverName
      destination.serverName content) seed) :=
    ⟨Ed25519.not_mem_signB64 (by decide) _ _, Ed25519.not_mem_signB64 (by decide) _ _⟩
  have hto : ∀ name ∈ some destination.serverName, NoBreak name := by
    intro name hname
    rw [← Option.some.inj hname]
    exact hdestination.no_break
  have hbreak : NoBreak (signedHeader origin destination keyId seed method uri content) :=
    toHeader_no_break horigin.no_break hto hkey.no_break hsig
  exact ⟨hbreak.no_cr, hbreak.no_lf, toHeader_trimmed _⟩

/-- A server that took the other's document in lets through what the other one signs for it. -/
theorem verified_of_ingested {keyId seed key method uri : Str} {content : Option Str}
    (hcomplete : origin.ed.Complete) (hed : destination.ed = origin.ed)
    (hregistered : s.get .serverKeys keyId = some (.text seed))
    (hseed : origin.ed.publicKeyB64 seed = some key) (horigin : Quotable origin.serverName)
    (hdestination : Quotable destination.serverName) (hkeyId : Quotable keyId)
    {ts readTs ingested verified : UInt64}
    (hts : (Json.number (F64.ofNat ts.toNat)).asU64 = some readTs) (hingested : ingested < readTs)
    (hverified : verified < readTs) :
    verifyFederationRequest destination.toEnv
      (ingestKeyDocument destination.toEnv s' (keyDocument origin.toEnv origin.ed s ts) ingested).2
      ⟨method, uri, content,
        some (signedHeader origin destination keyId seed method uri content)⟩ verified = true := by
  have hreceiver : destination.toEnv =
      { destination.toEnv with verifyB64 := origin.ed.verifyB64 } := by
    rw [← hed]
    rfl
  have haccepted : acceptedDocument destination.toEnv (keyDocument origin.toEnv origin.ed s ts)
      ingested = some (documentParts origin.toEnv origin.ed s ts readTs) := by
    rw [hreceiver]
    exact acceptedDocument_keyDocument hcomplete hregistered hseed hts hingested destination.toEnv
  have hcached : cachedKey (ingestKeyDocument destination.toEnv s'
      (keyDocument origin.toEnv origin.ed s ts) ingested).2 origin.serverName keyId verified =
        some key := by
    rw [ingestKeyDocument, haccepted]
    exact cachedKey_keyDocument hregistered hseed hverified s'
  have hto : ∀ name ∈ some destination.serverName, '"' ∉ name := by
    intro name hname
    rw [← Option.some.inj hname]
    exact hdestination.no_quote
  -- the header is read as it was made
  have hauth : (FederationRequest.mk method uri content
      (some (signedHeader origin destination keyId seed method uri content))).auth =
        some ⟨origin.serverName, some destination.serverName, keyId, origin.ed.signB64
          (signingBytes method uri origin.serverName destination.serverName content) seed⟩ := by
    show XMatrixAuth.parse (signedHeader origin destination keyId seed method uri content) = _
    exact XMatrixAuth.parse_toHeader horigin.no_quote hto hkeyId.no_quote
      (Ed25519.not_mem_signB64 (by decide) _ _)
  have hhere : (some destination.serverName).any (fun d => d ≠ destination.toEnv.serverName) =
      false := by
    show decide (destination.serverName ≠ destination.serverName) = false
    simp
  have hsigned : destination.toEnv.verifyB64 (signingBytes method uri origin.serverName
      destination.serverName content) (origin.ed.signB64 (signingBytes method uri origin.serverName
        destination.serverName content) seed) key = true := by
    rw [hreceiver]
    exact Ed25519.verifyB64_signB64 hcomplete hseed _
  rw [verifyFederationRequest, hauth]
  dsimp only
  rw [hhere, if_neg Bool.false_ne_true, requestKey]
  dsimp only
  rw [hcached, Option.some_or]
  dsimp only [signedUnder]
  exact hsigned

/-- What no request writes, no connection writes. -/
theorem run_connectionStep_of_ne {cf : Cf} (hcf : cf ∉ serviceFamilies) (htokens : cf ≠ .accessTokens)
    (xs : List (List UInt8 × Clock)) : run (connectionStep env) s xs cf = s cf := by
  have hkept : ∀ (t : Data) (x : List UInt8 × Clock), t cf = s cf →
      connectionStep env t x cf = s cf := by
    intro t x ht
    rcases connectionStep_cases env t x with hsame | ⟨req, hstep⟩
    · rw [hsame]
      exact ht
    · rw [hstep, requestStep_of_ne hcf htokens]
      exact ht
  exact run_of_step hkept rfl xs

/-- The keys that other servers' requests are checked with are the same after any connections. -/
theorem verify_after_connections (xs : List (List UInt8 × Clock)) (request : FederationRequest)
    (now : UInt64) :
    verifyFederationRequest env.toEnv (run (connectionStep env) s xs) request now =
      verifyFederationRequest env.toEnv s request now := by
  have hcache : run (connectionStep env) s xs .keyCache = s .keyCache :=
    run_connectionStep_of_ne (by decide) (by decide) xs
  have hfederation : run (connectionStep env) s xs .federationKeys = s .federationKeys :=
    run_connectionStep_of_ne (by decide) (by decide) xs
  unfold verifyFederationRequest requestKey cachedKey federationKey Store.get
  rw [hcache, hfederation]

end

/-- A server publishes its keys to whoever asks, whatever connections it had before.  One that takes
the published document in lets through, until the document expires and whatever connections come
between, each transaction that the first server signs and sends, and takes it in as it was sent. -/
theorem federation_over_wire (origin destination : ServerEnv) (hcomplete : origin.ed.Complete)
    (hed : destination.ed = origin.ed) (s s' : Data) (keyId seed key : Str)
    (hregistered : s.get .serverKeys keyId = some (.text seed))
    (hseed : origin.ed.publicKeyB64 seed = some key) (horigin : Quotable origin.serverName)
    (hdestination : Quotable destination.serverName) (hkeyId : Quotable keyId)
    (before : List (List UInt8 × Clock)) (fetched : Clock) :
    let published := run (connectionStep origin) s before
    ∃ body doc validUntilTs,
      sendRequest origin published .get keyServerPath none none fetched =
        (.ok (200, body), published) ∧
      Json.parse body = .ok doc ∧
      (doc.get "valid_until_ts").bind Json.asU64 = some validUntilTs ∧
      ∀ (ingested : UInt64) (between : List (List UInt8 × Clock)) (delivered : Clock)
        (txnId text : Str) (fields : List (Str × Json)),
        ingested < validUntilTs → delivered.gate < validUntilTs → PathSegment txnId →
        Json.parse text = .ok (.object fields) → (utf8Bytes text).length ≤ maxBody →
        let receiver := run (connectionStep destination)
          (ingestKeyDocument destination.toEnv s' doc ingested).2 between
        let header := signedHeader origin destination keyId seed "PUT" (sendTarget txnId) (some text)
        let received := receiveTransaction destination.toEnv receiver (.object fields)
        deliverTransaction destination receiver txnId header text delivered =
          (.ok (200, received.1.write), received.2) := by
  intro published
  have hpublished : published.get .serverKeys keyId = some (.text seed) := by
    have hsame : published .serverKeys = s .serverKeys :=
      run_connectionStep_of_ne (by decide) (by decide) before
    rw [Store.get, hsame]
    exact hregistered
  obtain ⟨q, -, fits, -, hts⟩ := Json.asU64_ofNat (fetched.now 0 + keyLifetimeMs)
  refine ⟨_, keyDocument origin.toEnv origin.ed published (fetched.now 0 + keyLifetimeMs),
    UInt64.ofNat (min q (2 ^ 64 - 1)), ?_, parse_keyDocument, validUntilTs_keyDocument.trans hts, ?_⟩
  · have htarget : IsTarget keyServerPath :=
      ⟨by decide +kernel, List.forall_iff_forall_mem.mp (by decide +kernel)⟩
    rw [sendRequest_eq htarget (by simp) (by decide), handle_keyServer rfl rfl,
      parseResponse_of_oneLine (.write _)]
    rfl
  · intro ingested between delivered txnId text fields hingested hdelivered htxn hparse hlength
      receiver header received
    have hverified : verifyFederationRequest destination.toEnv receiver
        ⟨"PUT", sendTarget txnId, some text, some header⟩ delivered.gate = true := by
      rw [verify_after_connections]
      exact verified_of_ingested hcomplete hed hpublished hseed horigin hdestination hkeyId hts
        hingested hdelivered
    have htarget : IsTarget (sendTarget txnId) := by
      have hpath : ∀ c ∈ "/_matrix/federation/v1/send/".toList, isWhiteSpace c = false :=
        List.forall_iff_forall_mem.mp (by decide +kernel)
      refine ⟨List.append_ne_nil_of_right_ne_nil _ htxn.ne_nil, ?_⟩
      exact List.forall_mem_append.mpr ⟨hpath, htxn.no_space⟩
    have hauth : ∀ auth ∈ some header, IsHeaderValue auth := by
      intro auth hmem
      rw [← Option.some.inj hmem]
      exact isHeaderValue_signedHeader horigin hdestination hkeyId
    have htext : text ≠ [] := by
      rintro rfl
      cases hparse
    -- the server has the text as the body, so the signature holds of what it read
    have hbody : (sent .put (sendTarget txnId) (some header) (some text)).body = some text :=
      if_neg htext
    have hread : (sent .put (sendTarget txnId) (some header) (some text)).federation =
        ⟨"PUT", sendTarget txnId, some text, some header⟩ := by
      rw [Request.federation, hbody]
      rfl
    have hsend : deliverTransaction destination receiver txnId header text delivered = _ :=
      sendRequest_eq htarget hauth hlength
    rw [hsend, handle_send htxn rfl rfl (by rw [hread]; exact hverified), hbody, serveTransaction,
      Option.getD_some, hparse, parseResponse_of_oneLine (.write _)]
    rfl

namespace SampleServers

def origin : ServerEnv :=
  { SampleRequests.env with ed := SampleExchange.ed, serverName := "a.tld" }

def destination : ServerEnv := { origin with serverName := "b.tld" }

theorem quotable_origin : Quotable origin.serverName := ⟨by decide, by decide, by decide⟩

theorem quotable_destination : Quotable destination.serverName := ⟨by decide, by decide, by decide⟩

theorem quotable_keyId : Quotable "ed25519:1".toList := ⟨by decide, by decide, by decide⟩

end SampleServers

open SampleServers SampleExchange in
theorem federation_over_wire_sample :
    let published := run (connectionStep SampleServers.origin) stored [([0x47, 0x0a], SampleRequests.clock)]
    ∃ body doc validUntilTs,
      sendRequest SampleServers.origin published .get keyServerPath none none SampleRequests.clock =
        (.ok (200, body), published) ∧
      Json.parse body = .ok doc ∧
      (doc.get "valid_until_ts").bind Json.asU64 = some validUntilTs ∧
      ∀ (ingested : UInt64) (between : List (List UInt8 × Clock)) (delivered : Clock)
        (txnId text : Str) (fields : List (Str × Json)),
        ingested < validUntilTs → delivered.gate < validUntilTs → PathSegment txnId →
        Json.parse text = .ok (.object fields) → (utf8Bytes text).length ≤ maxBody →
        let receiver := run (connectionStep destination)
          (ingestKeyDocument destination.toEnv Store.empty doc ingested).2 between
        let header := signedHeader SampleServers.origin destination "ed25519:1" seed "PUT"
          (sendTarget txnId) (some text)
        let received := receiveTransaction destination.toEnv receiver (.object fields)
        deliverTransaction destination receiver txnId header text delivered =
          (.ok (200, received.1.write), received.2) :=
  federation_over_wire SampleServers.origin destination complete rfl stored Store.empty "ed25519:1" seed
    key (by decide +kernel) (by decide +kernel) quotable_origin quotable_destination quotable_keyId
    [([0x47, 0x0a], SampleRequests.clock)] SampleRequests.clock

end GaussMatrix.Http.Ingress
