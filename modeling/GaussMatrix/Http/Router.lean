import GaussMatrix.Library.SortedMap
import GaussMatrix.Util.Utf8

/-!
# Routing

A request target is matched against the templates of the endpoints, segment by segment.  A segment in
braces captures one segment of the target, percent-decoded.
-/

namespace GaussMatrix.Http

open Library Util

inductive Method
  | get
  | post
  | put
  | delete
  deriving DecidableEq

/-- The authentication scheme that an endpoint requires. -/
inductive Auth
  | none
  | accessToken
  | federation
  | appservice
  deriving DecidableEq

structure Endpoint where
  method : Method
  path : Str
  auth : Auth
  deriving DecidableEq

namespace Endpoint

/-- A client endpoint that requires an access token. -/
def cs (method : Method) (path : Str) : Endpoint := ⟨method, path, .accessToken⟩

def csPublic (method : Method) (path : Str) : Endpoint := ⟨method, path, .none⟩

def ss (method : Method) (path : Str) : Endpoint := ⟨method, path, .federation⟩

def ssPublic (method : Method) (path : Str) : Endpoint := ⟨method, path, .none⟩

def as_ (method : Method) (path : Str) : Endpoint := ⟨method, path, .appservice⟩

/-- The endpoints of the server, in the order in which they are tried. -/
def surface : List Endpoint :=
  [csPublic .get "/_matrix/client/versions".toList,
    csPublic .get "/_matrix/client/v3/login".toList,
    csPublic .post "/_matrix/client/v3/login".toList,
    cs .get "/_matrix/client/v3/account/whoami".toList,
    cs .post "/_matrix/client/v3/createRoom".toList,
    cs .get "/_matrix/client/v3/sync".toList,
    cs .get "/_matrix/client/v3/rooms/{roomId}/state".toList,
    cs .get "/_matrix/client/v3/rooms/{roomId}/members".toList,
    cs .get "/_matrix/client/v3/rooms/{roomId}/joined_members".toList,
    cs .get "/_matrix/client/v3/rooms/{roomId}/state/{eventType}/{stateKey}".toList,
    cs .get "/_matrix/client/v3/rooms/{roomId}/state/{eventType}".toList,
    cs .get "/_matrix/client/v3/rooms/{roomId}/messages".toList,
    cs .get "/_matrix/client/v3/rooms/{roomId}/event/{eventId}".toList,
    cs .post "/_matrix/client/v3/rooms/{roomId}/join".toList,
    cs .post "/_matrix/client/v3/rooms/{roomId}/leave".toList,
    cs .post "/_matrix/client/v3/rooms/{roomId}/invite".toList,
    cs .post "/_matrix/client/v3/rooms/{roomId}/kick".toList,
    cs .post "/_matrix/client/v3/rooms/{roomId}/ban".toList,
    cs .put "/_matrix/client/v3/rooms/{roomId}/send/{eventType}/{txnId}".toList,
    cs .put "/_matrix/client/v3/rooms/{roomId}/typing/{userId}".toList,
    cs .post "/_matrix/client/v3/rooms/{roomId}/receipt/{receiptType}/{eventId}".toList,
    cs .put "/_matrix/client/v3/presence/{userId}/status".toList,
    cs .get "/_matrix/client/v3/presence/{userId}/status".toList,
    cs .put "/_matrix/client/v3/rooms/{roomId}/state/{eventType}/{stateKey}".toList,
    cs .post "/_matrix/client/v3/keys/upload".toList,
    cs .post "/_matrix/client/v3/keys/query".toList,
    cs .post "/_matrix/client/v3/keys/claim".toList,
    cs .post "/_matrix/client/v3/keys/device_signing/upload".toList,
    ssPublic .get "/_matrix/key/v2/server".toList,
    ss .put "/_matrix/federation/v1/send/{txnId}".toList,
    ss .get "/_matrix/federation/v1/state/{roomId}".toList,
    ss .get "/_matrix/federation/v1/state_ids/{roomId}".toList,
    ss .get "/_matrix/federation/v1/event/{eventId}".toList,
    ss .get "/_matrix/federation/v1/backfill/{roomId}".toList,
    ss .get "/_matrix/federation/v1/user/devices/{userId}".toList,
    as_ .put "/_matrix/app/v1/transactions/{txnId}".toList]

end Endpoint

/-! ## Percent-decoding -/

/-- The value of a hexadecimal digit in ASCII. -/
def hexVal (b : UInt8) : Option UInt8 :=
  if 0x30 ≤ b ∧ b ≤ 0x39 then some (b - 0x30)
  else if 0x61 ≤ b ∧ b ≤ 0x66 then some (b - 0x61 + 10)
  else if 0x41 ≤ b ∧ b ≤ 0x46 then some (b - 0x41 + 10)
  else none

/-- The bytes with their escapes replaced; an invalid escape is left as it is. -/
def percentDecodeBytes : List UInt8 → List UInt8
  | b :: h :: l :: rest =>
      if b = 0x25 then
        match hexVal h, hexVal l with
        | some hi, some lo => (hi <<< 4 ||| lo) :: percentDecodeBytes rest
        | _, _ => b :: percentDecodeBytes (h :: l :: rest)
      else b :: percentDecodeBytes (h :: l :: rest)
  | bytes => bytes

/-- Percent-decode a path segment; one that does not decode to UTF-8 is left as it is. -/
def percentDecode (segment : Str) : Str :=
  (fromUtf8 (percentDecodeBytes (utf8Bytes segment))).getD segment

/-! ## Matching -/

/-- The non-empty segments of a path. -/
def splitPath (path : Str) : List Str := (path.splitOn '/').filter (· ≠ [])

/-- The name that a template segment in braces captures under. -/
def placeholder (tmpl : Str) : Option Str :=
  match stripPrefix ['\x7b'] tmpl with
  | some s => if s.getLast? = some '\x7d' then some s.dropLast else none
  | none => none

/-- Match template segments with segments of a target, one by one. -/
def matchSegments (params : SortedMap Str Str) : List (Str × Str) → Option (SortedMap Str Str)
  | [] => some params
  | (tmpl, value) :: rest =>
      match placeholder tmpl with
      | some name => matchSegments (params.insert name (percentDecode value)) rest
      | none => if tmpl = value then matchSegments params rest else none

/-- The captured parameters, if the template matches the segments. -/
def matchTemplate (template : Str) (segments : List Str) : Option (SortedMap Str Str) :=
  if (splitPath template).length ≠ segments.length then none
  else matchSegments SortedMap.empty ((splitPath template).zip segments)

/-- A resolved route. -/
structure RouteMatch where
  endpoint : Endpoint
  params : SortedMap Str Str

def RouteMatch.param (m : RouteMatch) (name : String) : Option Str := m.params.get name.toList

inductive RouteResolution
  | found (m : RouteMatch)
  | methodNotAllowed (allowed : List Method)
  | notFound

/-- Try the endpoints in order; `allowed` collects the methods of those whose path matches. -/
def resolveAmong (method : Method) (segments : List Str) :
    List Endpoint → List Method → RouteResolution
  | [], allowed => if allowed = [] then .notFound else .methodNotAllowed allowed
  | endpoint :: endpoints, allowed =>
      match matchTemplate endpoint.path segments with
      | some params =>
          if endpoint.method = method then .found ⟨endpoint, params⟩
          else
            resolveAmong method segments endpoints
              (if endpoint.method ∈ allowed then allowed else allowed ++ [endpoint.method])
      | none => resolveAmong method segments endpoints allowed

/-- Resolve a method and a target, whose query does not count, to a route. -/
def resolve (method : Method) (target : Str) : RouteResolution :=
  let path := target.takeWhile fun c => c ≠ '?' ∧ c ≠ '#'
  resolveAmong method (splitPath path) Endpoint.surface []

/-! ## What a route gives -/

theorem resolveAmong_found {method : Method} {segments : List Str} {m : RouteMatch}
    {endpoints : List Endpoint} {allowed : List Method}
    (h : resolveAmong method segments endpoints allowed = .found m) :
    m.endpoint ∈ endpoints ∧ m.endpoint.method = method ∧
      matchTemplate m.endpoint.path segments = some m.params := by
  induction endpoints generalizing allowed with
  | nil =>
      rw [resolveAmong] at h
      split at h <;> exact absurd h nofun
  | cons endpoint endpoints ih =>
      rw [resolveAmong] at h
      split at h
      · rename_i params hparams
        split at h
        · rename_i hmethod
          obtain rfl := RouteResolution.found.inj h
          exact ⟨List.mem_cons_self, hmethod, hparams⟩
        · obtain ⟨hmem, hrest⟩ := ih h
          exact ⟨List.mem_cons_of_mem _ hmem, hrest⟩
      · obtain ⟨hmem, hrest⟩ := ih h
        exact ⟨List.mem_cons_of_mem _ hmem, hrest⟩

theorem resolve_found {method : Method} {target : Str} {m : RouteMatch}
    (h : resolve method target = .found m) :
    m.endpoint ∈ Endpoint.surface ∧ m.endpoint.method = method ∧
      ∃ segments, matchTemplate m.endpoint.path segments = some m.params := by
  obtain ⟨hmem, hmethod, hparams⟩ := resolveAmong_found h
  exact ⟨hmem, hmethod, _, hparams⟩

/-- A match keeps what is captured and captures every placeholder. -/
theorem matchSegments_isSome {pairs : List (Str × Str)} {params params' : SortedMap Str Str}
    (h : matchSegments params pairs = some params') {name : Str}
    (hname : (params.get name).isSome ∨ ∃ pair ∈ pairs, placeholder pair.1 = some name) :
    (params'.get name).isSome := by
  induction pairs generalizing params with
  | nil =>
      rw [← Option.some.inj h]
      simpa using hname
  | cons pair pairs ih =>
      obtain ⟨tmpl, value⟩ := pair
      rw [matchSegments] at h
      cases hplace : placeholder tmpl with
      | none =>
          rw [hplace] at h
          have hrest : (params.get name).isSome ∨
              ∃ pair ∈ pairs, placeholder pair.1 = some name := by
            simpa [hplace] using hname
          simp only at h
          split at h
          · exact ih h hrest
          · exact absurd h nofun
      | some other =>
          rw [hplace] at h
          apply ih h
          by_cases hother : name = other
          · left
            rw [hother, SortedMap.get_insert_self]
            rfl
          · have hne : other ≠ name := Ne.symm hother
            rw [SortedMap.get_insert_ne _ hother]
            simpa [hplace, hne] using hname

theorem matchTemplate_isSome {template : Str} {segments : List Str} {params : SortedMap Str Str}
    (h : matchTemplate template segments = some params) {name tmpl : Str}
    (htmpl : tmpl ∈ splitPath template) (hname : placeholder tmpl = some name) :
    (params.get name).isSome := by
  unfold matchTemplate at h
  split at h
  · exact absurd h nofun
  · rename_i hlength
    apply matchSegments_isSome h
    right
    obtain ⟨i, hi, rfl⟩ := List.mem_iff_getElem.mp htmpl
    have hlength : (splitPath template).length = segments.length := not_not.mp hlength
    refine ⟨((splitPath template)[i], segments[i]), ?_, hname⟩
    rw [List.mem_iff_getElem]
    exact ⟨i, by simp; omega, List.getElem_zip⟩

/-! ## Access tokens -/

/-- The token of a `Bearer` header value; the scheme is matched in any case. -/
def bearer (authorization : Str) : Option Str :=
  match splitOnce ' ' authorization with
  | none => none
  | some (scheme, token) =>
      if scheme.map Char.toLower = "bearer".toList then
        if trim token = [] then none else some (trim token)
      else none

/-- The first non-empty value of a query parameter of a target. -/
def queryParam (target name : Str) : Option Str := do
  let query ← (target.splitOn '?')[1]?
  let query := query.takeWhile (· ≠ '#')
  (query.splitOn '&').findSome? fun pair =>
    match splitOnce '=' pair with
    | some (k, v) => if k = name ∧ v ≠ [] then some v else none
    | none => none

/-- The access token of a request: from its header, or else from its target. -/
def accessToken (authorization : Option Str) (target : Str) : Option Str :=
  match authorization.bind bearer with
  | some token => some token
  | none => queryParam target "access_token".toList

end GaussMatrix.Http
