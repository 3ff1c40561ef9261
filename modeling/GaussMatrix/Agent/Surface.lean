import GaussMatrix.Agent.Capability
import GaussMatrix.Library.Queue
import GaussMatrix.Store.Audit

/-!
# The agent surface of the client

The client keeps the requests that wait for a human, and a chain of entries on what was asked and
decided.  Over a run the queue holds what was requested and not resolved, and the chain verifies.
-/

namespace GaussMatrix.Client

open Library
open Agent (ActionClass)
open Audit (AuditEntry Digest)

/-- A grant as the client holds it, its agent, tools and rooms plain strings. -/
structure CapabilityGrant where
  agent : Str
  allowedTools : List Str
  accessibleRooms : List Str
  defaultClass : ActionClass
  overrides : List (Str × ActionClass)

namespace CapabilityGrant

def permitsTool (grant : CapabilityGrant) (tool : Str) : Bool := grant.allowedTools.any (· = tool)

def permitsRoom (grant : CapabilityGrant) (room : Str) : Bool :=
  grant.accessibleRooms.any (· = room)

def classify (grant : CapabilityGrant) (tool room : Str) : ActionClass :=
  if !grant.permitsRoom room || !grant.permitsTool tool then .forbidden
  else ((grant.overrides.find? fun o => o.1 = tool).map Prod.snd).getD grant.defaultClass

end CapabilityGrant

inductive GaussError
  | agentDenied (reason : Str)
  deriving DecidableEq

inductive Gate
  | allow
  | needsApproval (id : UInt64)
  | denied (error : GaussError)
  deriving DecidableEq

inductive ApprovalDecision
  | approve
  | deny
  deriving DecidableEq

structure ApprovalRequest where
  id : UInt64
  agent : Str
  tool : Str
  proposedAction : Str
  deriving DecidableEq

/-- Entries about agents, each the actor of its entry, oldest first. -/
structure AuditLog where
  entries : List AuditEntry
  deriving DecidableEq

namespace AuditLog

def new : AuditLog := ⟨[]⟩

/-- Append an event, chained to the last entry. -/
def append (digest : Digest) (log : AuditLog) (agent event : Str) : AuditLog :=
  let prevHash := (log.entries.getLast?.map fun e => e.hash).getD 0
  ⟨log.entries ++ [⟨agent, event, prevHash, digest agent event prevHash⟩]⟩

/-- The index of the first bad entry, if there is one. -/
def verify (digest : Digest) (log : AuditLog) : Except Nat Unit :=
  Audit.verifyFrom digest 0 0 log.entries

end AuditLog

structure AgentSurface where
  nextId : UInt64
  pending : List ApprovalRequest
  audit : AuditLog
  deriving DecidableEq

def ApprovalDecision.verb : ApprovalDecision → Str
  | approve => "approved".toList
  | deny => "denied".toList

namespace AgentSurface

def new : AgentSurface := ⟨0, [], .new⟩

def requestApproval (digest : Digest) (s : AgentSurface) (agent tool proposedAction : Str) :
    AgentSurface × UInt64 :=
  let id := s.nextId
  -- the id after the largest is 0; a build that checks overflow stops there
  ({ nextId := s.nextId + 1
     audit := s.audit.append digest agent ("approval_requested: ".toList ++ tool)
     pending := s.pending ++ [⟨id, agent, tool, proposedAction⟩] }, id)

/-- Evaluate a proposed action against the agent's grant. -/
def evaluate (digest : Digest) (s : AgentSurface) (grant : CapabilityGrant)
    (room tool proposedAction : Str) : AgentSurface × Gate :=
  match grant.classify tool room with
  | .forbidden =>
      ({ s with audit := s.audit.append digest grant.agent ("denied_by_scope: ".toList ++ tool) },
        .denied (.agentDenied (tool ++ (" is not permitted in ".toList ++ room))))
  | .auto =>
      ({ s with audit := s.audit.append digest grant.agent ("auto_allowed: ".toList ++ tool) },
        .allow)
  | .review =>
      let (s, id) := s.requestApproval digest grant.agent tool proposedAction
      (s, .needsApproval id)

/-- Resolve the first request with the id; false if there is none. -/
def resolve (digest : Digest) (s : AgentSurface) (id : UInt64) (decision : ApprovalDecision) :
    AgentSurface × Bool :=
  match s.pending.find? fun r => r.id = id with
  | some req =>
      ({ s with
          pending := s.pending.eraseP fun r => r.id = id
          audit := s.audit.append digest req.agent
            (decision.verb ++ (": ".toList ++ req.tool)) }, true)
  | none => (s, false)

end AgentSurface

/-! ## Runs of the surface -/

inductive Call
  | requestApproval (agent tool proposedAction : Str)
  | evaluate (grant : CapabilityGrant) (room tool proposedAction : Str)
  | resolve (id : UInt64) (decision : ApprovalDecision)

inductive Reply
  | id (id : UInt64)
  | gate (gate : Gate)
  | found (found : Bool)
  deriving DecidableEq

def perform (digest : Digest) (s : AgentSurface) : Call → AgentSurface × Reply
  | .requestApproval agent tool proposedAction =>
      let (s, id) := s.requestApproval digest agent tool proposedAction
      (s, .id id)
  | .evaluate grant room tool proposedAction =>
      let (s, gate) := s.evaluate digest grant room tool proposedAction
      (s, .gate gate)
  | .resolve id decision =>
      let (s, found) := s.resolve digest id decision
      (s, .found found)

def surfaceStep (digest : Digest) (s : AgentSurface) (c : Call) : AgentSurface :=
  (perform digest s c).1

/-- The surface after calls on a new one. -/
def surfaceAfter (digest : Digest) (calls : List Call) : AgentSurface :=
  run (surfaceStep digest) .new calls

/-- The calls on a new surface, each with the state that it meets. -/
def surfaceTrace (digest : Digest) (calls : List Call) : List (AgentSurface × Call) :=
  trace (surfaceStep digest) .new calls

/-- The request that a call creates, under the id that it returns. -/
def requestOf (digest : Digest) (x : AgentSurface × Call) : Option ApprovalRequest :=
  match x.2, (perform digest x.1 x.2).2 with
  | .requestApproval agent tool proposedAction, .id id => some ⟨id, agent, tool, proposedAction⟩
  | .evaluate grant _ tool proposedAction, .gate (.needsApproval id) =>
      some ⟨id, grant.agent, tool, proposedAction⟩
  | _, _ => none

/-- The requests that calls on a new surface create, in order. -/
def requests (digest : Digest) (calls : List Call) : List ApprovalRequest :=
  (surfaceTrace digest calls).filterMap (requestOf digest)

/-- The call resolves the request. -/
def resolves (x : AgentSurface × Call) (r : ApprovalRequest) : Bool :=
  match x.2 with
  | .resolve id _ => r.id = id
  | _ => false

/-- One entry is added at the end, about the agent. -/
def Records (s s' : AgentSurface) (agent : Str) : Prop :=
  ∃ e : AuditEntry, e.actor = agent ∧ s'.audit.entries = s.audit.entries ++ [e]

/-- What a call leaves behind in the log, and what a resolve returns. -/
def Answered (digest : Digest) (s : AgentSurface) (c : Call) : Prop :=
  match c with
  | .requestApproval agent _ _ => Records s (surfaceStep digest s c) agent
  | .evaluate grant _ _ _ => Records s (surfaceStep digest s c) grant.agent
  | .resolve id _ =>
      (∀ r ∈ s.pending, r.id = id →
        (perform digest s c).2 = .found true ∧ Records s (surfaceStep digest s c) r.agent) ∧
      ((∀ r ∈ s.pending, r.id ≠ id) → perform digest s c = (s, .found false))

/-- What holds of calls on a new surface. -/
structure SurfaceKept (digest : Digest) (calls : List Call) : Prop where
  verified : Throughout (surfaceStep digest) .new calls fun s => s.audit.verify digest = .ok ()
  distinct : ((requests digest calls).map ApprovalRequest.id).Nodup
  pending : ∀ before after, calls = before ++ after →
    (surfaceAfter digest before).pending =
      outstanding (requestOf digest) resolves (surfaceTrace digest before)
  answered : ∀ x ∈ surfaceTrace digest calls, Answered digest x.1 x.2

/-! ## The chain -/

theorem AuditLog.verify_append {digest : Digest} {log : AuditLog} (h : log.verify digest = .ok ())
    (agent event : Str) : (log.append digest agent event).verify digest = .ok () :=
  Audit.verifyFrom_eq_ok_iff.mpr
    (Audit.Chained.concat (Audit.verifyFrom_eq_ok_iff.mp h) agent event)

/-! ## What a call does -/

/-- A call makes a request, notes what was decided at once, settles a request, or finds none. -/
inductive CallCase (digest : Digest) (s : AgentSurface) (c : Call) : Prop
  | requested (r : ApprovalRequest) (event : Str) (hrequest : requestOf digest (s, c) = some r)
      (hid : r.id = s.nextId) (hresolves : ∀ q, resolves (s, c) q = false)
      (hstep : surfaceStep digest s c =
        ⟨s.nextId + 1, s.pending ++ [r], s.audit.append digest r.agent event⟩)
  | noted (agent event : Str) (hrequest : requestOf digest (s, c) = none)
      (hresolves : ∀ q, resolves (s, c) q = false)
      (hstep : surfaceStep digest s c = { s with audit := s.audit.append digest agent event })
  | settled (id : UInt64) (agent event : Str) (hrequest : requestOf digest (s, c) = none)
      (hresolves : ∀ q, resolves (s, c) q = decide (q.id = id))
      (hstep : surfaceStep digest s c =
        { s with
            pending := s.pending.eraseP fun r => r.id = id
            audit := s.audit.append digest agent event })
  | unknown (id : UInt64) (hrequest : requestOf digest (s, c) = none)
      (hresolves : ∀ q, resolves (s, c) q = decide (q.id = id))
      (hnone : ∀ r ∈ s.pending, r.id ≠ id) (hstep : surfaceStep digest s c = s)

section

variable {digest : Digest} {s : AgentSurface} {id : UInt64} {decision : ApprovalDecision}

theorem find?_eq_none_iff : (s.pending.find? fun r => r.id = id) = none ↔ ∀ r ∈ s.pending, r.id ≠ id := by
  simp [List.find?_eq_none]

theorem perform_resolve_unknown (h : ∀ r ∈ s.pending, r.id ≠ id) :
    perform digest s (.resolve id decision) = (s, .found false) := by
  simp only [perform, AgentSurface.resolve, find?_eq_none_iff.mpr h]

theorem perform_resolve_found {r : ApprovalRequest}
    (h : (s.pending.find? fun r => r.id = id) = some r) :
    perform digest s (.resolve id decision) =
      ({ s with
          pending := s.pending.eraseP fun r => r.id = id
          audit := s.audit.append digest r.agent (decision.verb ++ (": ".toList ++ r.tool)) },
        .found true) := by
  simp only [perform, AgentSurface.resolve, h]

theorem callCase (digest : Digest) (s : AgentSurface) (c : Call) : CallCase digest s c := by
  cases c with
  | requestApproval agent tool proposedAction =>
      exact .requested ⟨s.nextId, agent, tool, proposedAction⟩ _ rfl rfl (fun _ => rfl) rfl
  | evaluate grant room tool proposedAction =>
      cases hcls : grant.classify tool room with
      | forbidden =>
          apply CallCase.noted grant.agent ("denied_by_scope: ".toList ++ tool)
          · simp only [requestOf, perform, AgentSurface.evaluate, hcls]
          · exact fun _ => rfl
          · simp only [surfaceStep, perform, AgentSurface.evaluate, hcls]
      | auto =>
          apply CallCase.noted grant.agent ("auto_allowed: ".toList ++ tool)
          · simp only [requestOf, perform, AgentSurface.evaluate, hcls]
          · exact fun _ => rfl
          · simp only [surfaceStep, perform, AgentSurface.evaluate, hcls]
      | review =>
          -- the request is logged by `request_approval`, and not a second time
          apply CallCase.requested ⟨s.nextId, grant.agent, tool, proposedAction⟩
            ("approval_requested: ".toList ++ tool)
          · simp only [requestOf, perform, AgentSurface.evaluate, hcls, AgentSurface.requestApproval]
          · rfl
          · exact fun _ => rfl
          · simp only [surfaceStep, perform, AgentSurface.evaluate, hcls,
              AgentSurface.requestApproval]
  | resolve id decision =>
      cases hfind : s.pending.find? fun r => r.id = id with
      | none =>
          have hnone := find?_eq_none_iff.mp hfind
          apply CallCase.unknown id rfl (fun _ => rfl) hnone
          rw [surfaceStep, perform_resolve_unknown hnone]
      | some r =>
          apply CallCase.settled id r.agent _ rfl (fun _ => rfl)
          rw [surfaceStep, perform_resolve_found hfind]

/-! ## What a step keeps -/

theorem verified_step (h : s.audit.verify digest = .ok ()) (c : Call) :
    (surfaceStep digest s c).audit.verify digest = .ok () := by
  cases callCase digest s c with
  | requested r event hrequest hid hresolves hstep =>
      rw [hstep]
      exact AuditLog.verify_append h r.agent event
  | noted agent event hrequest hresolves hstep =>
      rw [hstep]
      exact AuditLog.verify_append h agent event
  | settled id agent event hrequest hresolves hstep =>
      rw [hstep]
      exact AuditLog.verify_append h agent event
  | unknown id hrequest hresolves hnone hstep =>
      rw [hstep]
      exact h

/-- The requests made so far have the numbers from 0 on as their ids, and what waits is among them. -/
structure Numbered (made : List ApprovalRequest) (s : AgentSurface) : Prop where
  ids : made.map ApprovalRequest.id = (List.range made.length).map UInt64.ofNat
  next : s.nextId = UInt64.ofNat made.length
  waiting : s.pending.Sublist made

theorem numbered_new : Numbered [] .new := ⟨rfl, rfl, List.Sublist.refl []⟩

theorem Numbered.step {made : List ApprovalRequest} (h : Numbered made s) (c : Call) :
    Numbered (made ++ (requestOf digest (s, c)).toList) (surfaceStep digest s c) := by
  cases callCase digest s c with
  | requested r event hrequest hid hresolves hstep =>
      rw [hrequest, Option.toList_some, hstep]
      constructor
      · -- the request has the counter as its id, and that is the number of requests before it
        rw [List.map_append, h.ids, List.length_append, List.length_singleton, List.range_succ,
          List.map_append, List.map_singleton, List.map_singleton, hid, h.next]
      · show s.nextId + 1 = _
        rw [h.next, List.length_append, List.length_singleton, UInt64.ofNat_add]
        rfl
      · exact h.waiting.append (List.Sublist.refl [r])
  | noted agent event hrequest hresolves hstep =>
      rw [hrequest, Option.toList_none, List.append_nil, hstep]
      exact ⟨h.ids, h.next, h.waiting⟩
  | settled id agent event hrequest hresolves hstep =>
      rw [hrequest, Option.toList_none, List.append_nil, hstep]
      exact ⟨h.ids, h.next, List.eraseP_sublist.trans h.waiting⟩
  | unknown id hrequest hresolves hnone hstep =>
      rw [hrequest, Option.toList_none, List.append_nil, hstep]
      exact h

/-- While no more ids were given out than there are, no two requests that wait share one. -/
theorem Numbered.nodup {made : List ApprovalRequest} (h : Numbered made s)
    (hlen : made.length < 2 ^ 64) :
    (made.map ApprovalRequest.id).Nodup ∧ (s.pending.map ApprovalRequest.id).Nodup := by
  have hmade : (made.map ApprovalRequest.id).Nodup := by
    rw [h.ids]
    exact nodup_map_ofNat_range hlen.le
  exact ⟨hmade, hmade.sublist (h.waiting.map ApprovalRequest.id)⟩

/-- Where the ids are distinct, a call takes out what it resolves, and adds what it requests. -/
theorem pending_step (hs : (s.pending.map ApprovalRequest.id).Nodup) (c : Call) :
    (surfaceStep digest s c).pending =
      (s.pending.filter fun r => !resolves (s, c) r) ++ (requestOf digest (s, c)).toList := by
  cases callCase digest s c with
  | requested r event hrequest hid hresolves hstep =>
      simp [hrequest, hstep, hresolves]
  | noted agent event hrequest hresolves hstep =>
      simp [hrequest, hstep, hresolves]
  | settled id agent event hrequest hresolves hstep =>
      simp only [hrequest, hstep, hresolves, Option.toList_none, List.append_nil]
      exact eraseP_eq_filter hs id
  | unknown id hrequest hresolves hnone hstep =>
      simp only [hrequest, hstep, hresolves, Option.toList_none, List.append_nil]
      rw [eq_comm, List.filter_eq_self]
      intro r hr
      rw [decide_eq_false (hnone r hr)]
      rfl

theorem answered_of_nodup (hs : (s.pending.map ApprovalRequest.id).Nodup) (c : Call) :
    Answered digest s c := by
  cases c with
  | requestApproval agent tool proposedAction => exact ⟨_, rfl, rfl⟩
  | evaluate grant room tool proposedAction =>
      show Records s (surfaceStep digest s _) grant.agent
      cases hcls : grant.classify tool room with
      | forbidden =>
          simp only [surfaceStep, perform, AgentSurface.evaluate, hcls]
          exact ⟨_, rfl, rfl⟩
      | auto =>
          simp only [surfaceStep, perform, AgentSurface.evaluate, hcls]
          exact ⟨_, rfl, rfl⟩
      | review =>
          simp only [surfaceStep, perform, AgentSurface.evaluate, hcls]
          exact ⟨_, rfl, rfl⟩
  | resolve id decision =>
      constructor
      · intro r hr hid
        cases hfind : s.pending.find? fun q => q.id = id with
        | none => exact absurd hid (find?_eq_none_iff.mp hfind r hr)
        | some q =>
            -- the first request with the id is the only one
            have hq : q.id = id := by simpa using List.find?_some hfind
            obtain rfl : q = r := by
              apply List.inj_on_of_nodup_map hs (List.mem_of_find?_eq_some hfind) hr
              rw [hq, hid]
            rw [surfaceStep, perform_resolve_found hfind]
            exact ⟨rfl, _, rfl, rfl⟩
      · exact fun hnone => perform_resolve_unknown hnone

end

/-! ## What a run keeps -/

section

variable {digest : Digest} {calls before after : List Call}

theorem numbered_surfaceAfter (digest : Digest) (calls : List Call) :
    Numbered (requests digest calls) (surfaceAfter digest calls) :=
  history_run numbered_new fun x _ _ h => h.step x.2

theorem requests_length_le (h : calls = before ++ after) :
    (requests digest before).length ≤ (requests digest calls).length := by
  rw [h, requests, requests, surfaceTrace, surfaceTrace, trace_append, List.filterMap_append,
    List.length_append]
  omega

/-- No two requests that wait share an id in a state that a call meets. -/
theorem pending_nodup (hlen : (requests digest calls).length < 2 ^ 64)
    {x : AgentSurface × Call} (hx : x ∈ surfaceTrace digest calls) :
    (x.1.pending.map ApprovalRequest.id).Nodup := by
  obtain ⟨before, after, hcalls, hstate⟩ := exists_prefix_of_mem_trace hx
  have hle : (requests digest before).length ≤ (requests digest calls).length :=
    requests_length_le hcalls
  rw [hstate]
  exact ((numbered_surfaceAfter digest before).nodup (by omega)).2

/-- Over every run with fewer requests than ids the chain verifies, ids are given out once, and the
queue holds what was requested and not resolved. -/
theorem surface_kept (digest : Digest) (calls : List Call)
    (hlen : (requests digest calls).length < 2 ^ 64) : SurfaceKept digest calls := by
  constructor
  case verified =>
    apply throughout_of_steps
    · rfl
    · exact fun x _ h => verified_step h x.2
  case distinct => exact ((numbered_surfaceAfter digest calls).nodup hlen).1
  case pending =>
    intro before after hcalls
    -- up to here too there are fewer requests than ids
    have hbefore : (requests digest before).length < 2 ^ 64 :=
      (requests_length_le hcalls).trans_lt hlen
    apply pending_run
    · rfl
    · exact fun x hx => pending_step (pending_nodup hbefore hx) x.2
  case answered => exact fun x hx => answered_of_nodup (pending_nodup hlen hx) x.2

end

namespace SampleSurface

/-- A digest that tells texts apart by their lengths. -/
def lengths : Digest := fun agent event prevHash =>
  UInt64.ofNat (agent.length + 31 * event.length) + 7 * prevHash

/-- Two requests, of which the first is approved. -/
def firstApproved : List Call :=
  [.requestApproval "@a:b".toList "email".toList "Email the summary".toList,
    .requestApproval "@a:b".toList "search".toList "Search the notes".toList,
    .resolve 0 .approve]

end SampleSurface

open SampleSurface in
/-- The second request is left. -/
theorem surface_kept_firstApproved :
    (requests lengths firstApproved).length < 2 ^ 64 ∧ SurfaceKept lengths firstApproved ∧
      (surfaceAfter lengths firstApproved).pending =
        [⟨1, "@a:b".toList, "search".toList, "Search the notes".toList⟩] := by
  have hlen : (requests lengths firstApproved).length < 2 ^ 64 := by
    show 2 < 2 ^ 64
    norm_num
  exact ⟨hlen, surface_kept lengths firstApproved hlen, rfl⟩

end GaussMatrix.Client
