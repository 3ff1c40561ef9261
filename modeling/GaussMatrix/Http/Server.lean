import GaussMatrix.Http.Handlers

/-!
# The ingress

A request is resolved to an endpoint, authenticated as the endpoint requires, and given to the
endpoint's handler.
-/

namespace GaussMatrix.Http

open Library Util Api Api.Events StateRes Svc Fed RoomService

namespace Ingress

/-- An inbound request with its body. -/
structure Request extends Http.Request where
  body : Option Str

/-- What a handler is given. -/
structure Call where
  m : RouteMatch
  user : Option UserId
  req : Request
  clock : Clock

abbrev Handler := ServerEnv → Data → Call → Response × Data

/-- A handler that only reads. -/
def reading (serve : ServerEnv → Data → Call → Response) : Handler := fun env s c => (serve env s c, s)

/-! ## The endpoints with a handler -/

def publicRoutes : List ((Method × Str) × Handler) :=
  [((.get, "/_matrix/client/versions".toList), reading fun _ _ _ => .jsonOk versionsBody),
    ((.get, "/_matrix/client/v3/login".toList), reading fun _ _ _ => .jsonOk loginFlowsBody),
    ((.post, "/_matrix/client/v3/login".toList), fun env s c => serveLogin env s c.req.body),
    ((.get, "/_matrix/key/v2/server".toList), reading fun env s c =>
      .jsonOk (keyDocument env.toEnv env.ed s (c.clock.now 0 + keyLifetimeMs)).write)]

/-- The room reads, and the other reads of a client. -/
def clientReads : List ((Method × Str) × Handler) :=
  [((.get, "/_matrix/client/v3/account/whoami".toList), reading fun _ _ c => serveWhoami c.user),
    ((.get, "/_matrix/client/v3/rooms/{roomId}/state".toList),
      reading fun env s c => serveRoomState env.toEnv.sha256 s c.m),
    ((.get, "/_matrix/client/v3/rooms/{roomId}/members".toList),
      reading fun env s c => serveMembers env.toEnv.sha256 s c.m),
    ((.get, "/_matrix/client/v3/rooms/{roomId}/joined_members".toList),
      reading fun _ s c => serveJoinedMembers s c.m),
    ((.get, "/_matrix/client/v3/rooms/{roomId}/state/{eventType}/{stateKey}".toList),
      reading fun _ s c => serveStateEvent s c.m),
    ((.get, "/_matrix/client/v3/rooms/{roomId}/state/{eventType}".toList),
      reading fun _ s c => serveStateEvent s c.m),
    ((.get, "/_matrix/client/v3/rooms/{roomId}/messages".toList),
      reading fun env s c => serveMessages env.toEnv.sha256 s c.m),
    ((.get, eventPath), reading fun env s c => serveEvent env.toEnv.sha256 s c.m),
    ((.get, "/_matrix/client/v3/presence/{userId}/status".toList),
      reading fun _ s c => serveGetPresence s c.m),
    ((.post, "/_matrix/client/v3/keys/query".toList),
      reading fun _ s c => serveKeysQuery s c.req.body),
    ((.get, "/_matrix/client/v3/sync".toList), reading fun env s c =>
      serveSync env.toEnv.sha256 s c.user c.req.target c.clock.room)]

def clientWrites : List ((Method × Str) × Handler) :=
  [((.put, "/_matrix/client/v3/rooms/{roomId}/send/{eventType}/{txnId}".toList),
      fun env s c => serveSend env.toEnv s c.m c.user c.req.body (c.clock.now 0)),
    ((.put, "/_matrix/client/v3/rooms/{roomId}/typing/{userId}".toList),
      fun _ s c => serveTyping s c.m c.user c.req.body (c.clock.now 0)),
    ((.post, "/_matrix/client/v3/rooms/{roomId}/receipt/{receiptType}/{eventId}".toList),
      fun _ s c => serveReceipt s c.m c.user (c.clock.now 0)),
    ((.put, "/_matrix/client/v3/presence/{userId}/status".toList),
      fun _ s c => serveSetPresence s c.m c.user c.req.body),
    ((.post, "/_matrix/client/v3/rooms/{roomId}/join".toList),
      fun env s c => serveMembershipSelf env s c.m c.user "join" (c.clock.now 0)),
    ((.post, "/_matrix/client/v3/rooms/{roomId}/leave".toList),
      fun env s c => serveMembershipSelf env s c.m c.user "leave" (c.clock.now 0)),
    ((.post, "/_matrix/client/v3/rooms/{roomId}/invite".toList),
      fun env s c => serveMembershipTarget env s c.m c.user c.req.body "invite" (c.clock.now 0)),
    ((.post, "/_matrix/client/v3/rooms/{roomId}/kick".toList),
      fun env s c => serveMembershipTarget env s c.m c.user c.req.body "leave" (c.clock.now 0)),
    ((.post, "/_matrix/client/v3/rooms/{roomId}/ban".toList),
      fun env s c => serveMembershipTarget env s c.m c.user c.req.body "ban" (c.clock.now 0)),
    ((.post, "/_matrix/client/v3/createRoom".toList),
      fun env s c => serveCreateRoom env s c.user c.req.body c.clock.now),
    ((.post, "/_matrix/client/v3/keys/upload".toList),
      fun env s c => serveKeysUpload env.ed s c.user c.req.body),
    ((.post, "/_matrix/client/v3/keys/claim".toList), fun _ s c => serveKeysClaim s c.req.body),
    ((.post, "/_matrix/client/v3/keys/device_signing/upload".toList),
      fun env s c => serveDeviceSigningUpload env.ed s c.user c.req.body)]

def federationRoutes : List ((Method × Str) × Handler) :=
  [((.put, "/_matrix/federation/v1/send/{txnId}".toList),
      fun env s c => serveTransaction env s c.req.body),
    ((.get, "/_matrix/federation/v1/state/{roomId}".toList),
      reading fun env s c => serveFederationState env.toEnv.sha256 s c.m),
    ((.get, "/_matrix/federation/v1/state_ids/{roomId}".toList),
      reading fun _ s c => serveFederationStateIds s c.m),
    ((.get, "/_matrix/federation/v1/event/{eventId}".toList),
      reading fun env s c => serveFederationEvent env s c.m (c.clock.now 0)),
    ((.get, "/_matrix/federation/v1/backfill/{roomId}".toList),
      reading fun env s c => backfillResponse env.toEnv.sha256 s c.m c.req.target),
    ((.get, "/_matrix/federation/v1/user/devices/{userId}".toList),
      reading fun _ s c => serveUserDevices s c.m)]

/-- The handlers, by method and path. -/
def routes : List ((Method × Str) × Handler) :=
  publicRoutes ++ clientReads ++ clientWrites ++ federationRoutes

/-! ## Handling a request -/

def notImplemented : Response := .error 501 (.unrecognized "endpoint not yet implemented")

def serve (env : ServerEnv) (s : Data) (c : Call) : Response × Data :=
  match routes.lookup (c.m.endpoint.method, c.m.endpoint.path) with
  | some handler => handler env s c
  | none => (notImplemented, s)

/-- The request as its signature check sees it. -/
def Request.federation (req : Request) : FederationRequest where
  method := methodName req.method
  uri := req.target
  content := req.body
  authorization := req.authorization

/-- The gate before the handlers: the user of a client's token, nobody where no token is required, or
a refusal. -/
def authenticate (env : ServerEnv) (s : Data) (m : RouteMatch) (req : Request) (gate : UInt64) :
    Except Response (Option UserId) :=
  match m.endpoint.auth with
  | .none | .appservice => .ok none
  | .accessToken =>
      match accessToken req.authorization req.target with
      | none => .error (.error 401 (.missingToken "missing access token"))
      | some token =>
          match SessionStore.userFor s token with
          | some user => .ok (some user)
          | none => .error (.error 401 (.unknownToken "unrecognized access token"))
  | .federation =>
      if verifyFederationRequest env.toEnv s req.federation gate then .ok none
      else .error (.error 401 (.new "M_UNAUTHORIZED" "invalid federation signature"))

/-- Handle a request: the response, and the data after. -/
def handle (env : ServerEnv) (s : Data) (req : Request) (clock : Clock) : Response × Data :=
  match resolve req.method req.target with
  | .found m =>
      match authenticate env s m req clock.gate with
      | .error refused => (refused, s)
      | .ok user => serve env s { m, user, req, clock }
  | .methodNotAllowed allowed =>
      let refused := Response.error 405 (.unrecognized "method not allowed for this endpoint")
      ({ refused with headers := refused.headers ++ [("Allow".toList, allowHeader allowed)] }, s)
  | .notFound => (.error 404 (.unrecognized "unrecognized request"), s)

/-- The data after a request. -/
def requestStep (env : ServerEnv) (s : Data) (x : Request × Clock) : Data :=
  (handle env s x.1 x.2).2

end Ingress

end GaussMatrix.Http
