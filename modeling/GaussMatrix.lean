import GaussMatrix.Agent.AuditTrail
import GaussMatrix.Agent.Discovery
import GaussMatrix.Agent.EntryPoints
import GaussMatrix.Agent.GrantBuilder
import GaussMatrix.Agent.GrantContent
import GaussMatrix.Agent.GrantMirror
import GaussMatrix.Agent.IncidentReview
import GaussMatrix.Agent.Memory
import GaussMatrix.Agent.PolicyContent
import GaussMatrix.Agent.Replay
import GaussMatrix.Agent.Scrape
import GaussMatrix.Agent.Surface
import GaussMatrix.Agent.TokenLedgers
import GaussMatrix.Api.EventIdentity
import GaussMatrix.Api.JsonRoundTrip
import GaussMatrix.Api.JsonStrict
import GaussMatrix.Api.RedactTwice
import GaussMatrix.Api.ReferenceBinding
import GaussMatrix.Fed.Delivery
import GaussMatrix.Fed.Reencode
import GaussMatrix.Http.BackfillQuery
import GaussMatrix.Http.ChainOfTrust
import GaussMatrix.Http.DeviceKeys
import GaussMatrix.Http.Ephemeral
import GaussMatrix.Http.FederationWire
import GaussMatrix.Http.KeyClaims
import GaussMatrix.Http.LoginTokens
import GaussMatrix.Http.Ownership
import GaussMatrix.Http.RoomReads
import GaussMatrix.Http.SendEvent
import GaussMatrix.Http.TransportResponse
import GaussMatrix.Http.Workers
import GaussMatrix.Obs.Siem
import GaussMatrix.Shard.Placement
import GaussMatrix.StateRes.Admission
import GaussMatrix.StateRes.Application
import GaussMatrix.StateRes.BatchWorkers
import GaussMatrix.StateRes.Cache
import GaussMatrix.StateRes.CitationOrder
import GaussMatrix.StateRes.CitedState
import GaussMatrix.StateRes.PowerAgreement
import GaussMatrix.StateRes.PowerSort
import GaussMatrix.StateRes.PowerSortPanics
import GaussMatrix.StateRes.Provenance
import GaussMatrix.StateRes.RedactedId
import GaussMatrix.StateRes.RedactedState
import GaussMatrix.Store.AuditTip
import GaussMatrix.Store.FileStore
import GaussMatrix.Store.RocksStore
import GaussMatrix.Svc.AcknowledgedSend
import GaussMatrix.Svc.Backfill
import GaussMatrix.Svc.Bans
import GaussMatrix.Svc.CoPresence
import GaussMatrix.Svc.Codec
import GaussMatrix.Svc.ConcurrentCreate
import GaussMatrix.Svc.ConcurrentSend
import GaussMatrix.Svc.Convergence
import GaussMatrix.Svc.CrashRecovery
import GaussMatrix.Svc.CreateSlot
import GaussMatrix.Svc.Disclosure
import GaussMatrix.Svc.FallibleAppend
import GaussMatrix.Svc.FederationSend
import GaussMatrix.Svc.Isolation
import GaussMatrix.Svc.KeyExchange
import GaussMatrix.Svc.KeyStore
import GaussMatrix.Svc.LastWrite
import GaussMatrix.Svc.LinearDag
import GaussMatrix.Svc.MembershipAutomaton
import GaussMatrix.Svc.OneTimeKeys
import GaussMatrix.Svc.RoomPrefix
import GaussMatrix.Svc.ServerKeys
import GaussMatrix.Svc.Sessions
import GaussMatrix.Util.Base64Spelling
import GaussMatrix.Util.Ed25519
import GaussMatrix.Util.PointDecoding
import GaussMatrix.Util.SignatureUniqueness
import GaussMatrix.Util.WideProduct
