import GaussMatrix.Agent.AuditTrail
import GaussMatrix.Agent.Discovery
import GaussMatrix.Agent.Memory
import GaussMatrix.Library.Lines

/-!
# Room context for agents

The rooms of a grant are resources that its agent lists and reads.  A read of a room outside the grant
is denied before the room is looked at.
-/

namespace GaussMatrix.Agent

open Library Util Audit Obs

/-! ## Resources -/

structure Message where
  sender : Str
  body : Str
  deriving DecidableEq

/-- The source of room history, as it answers during a call. -/
abbrev RoomContext := RoomId → List Message

/-- A resource as it is listed. -/
structure McpResource where
  uri : Str
  name : Str
  mimeType : Str
  deriving DecidableEq

structure ResourceContents where
  uri : Str
  mimeType : Str
  text : Str
  deriving DecidableEq

inductive ResourceError
  | accessDenied (uri : Str)
  | unknownResource (uri : Str)
  deriving DecidableEq

def roomUriPrefix : Str := "gauss://room/"

def roomResourceUri (room : RoomId) : Str := roomUriPrefix ++ room.asStr

def roomFromUri (uri : Str) : Option RoomId := (stripPrefix roomUriPrefix uri).bind RoomId.parse

def Message.render (m : Message) : Str := m.sender ++ ": ".toList ++ m.body

def renderTimeline (messages : List Message) : Str := ['\n'].intercalate (messages.map Message.render)

/-- A room context that is kept in a map. -/
abbrev MapRoomContext := SortedMap Str (List Message)

def MapRoomContext.withMessages (ctx : MapRoomContext) (room : RoomId) (messages : List Message) :
    MapRoomContext :=
  ctx.insert room.asStr messages

def MapRoomContext.messages (ctx : MapRoomContext) : RoomContext := fun room =>
  (ctx.get room.asStr).getD []

namespace Gateway

variable {α : Type} (env : GatewayEnv) (g : Gateway)

/-- Count a call and answer; no answer when the counter overflows. -/
def countAnd (name : Str) (labels : List (Str × Str)) (answer : α) : Gateway × Option α :=
  match g.metrics.incCounter env.overflowChecks name labels with
  | none => (g, none)
  | some metrics => ({ g with metrics }, some answer)

def auditText (agent : AgentId) (text : Str) : Gateway :=
  { g with store := append env.digest g.store agent.asStr text }

def listResources (grant : CapabilityGrant) : Gateway × Option (List McpResource) :=
  (g.auditText env grant.agent
    ("resources_listed: ".toList ++ decimal grant.accessibleRooms.length)).countAnd env
      "gm_agent_resource_lists_total" [] (grant.accessibleRooms.map fun room =>
        { uri := roomResourceUri room
          name := "Timeline of ".toList ++ room.asStr
          mimeType := "text/plain" })

/-- Count a read under its result. -/
def countRead (result : Str) (answer : Except ResourceError ResourceContents) :
    Gateway × Option (Except ResourceError ResourceContents) :=
  g.countAnd env "gm_agent_resource_reads_total" [("result".toList, result)] answer

def readResource (grant : CapabilityGrant) (uri : Str) (ctx : RoomContext) :
    Gateway × Option (Except ResourceError ResourceContents) :=
  match roomFromUri uri with
  -- the one outcome that is counted and not audited
  | none => g.countRead env "unknown" (.error (.unknownResource uri))
  | some room =>
      if !grant.permitsRoom room then
        (g.auditText env grant.agent ("resource_denied: ".toList ++ uri)).countRead env "denied"
          (.error (.accessDenied uri))
      else
        let text := renderTimeline (ctx room)
        (g.auditText env grant.agent ("resource_read: ".toList ++ uri)).countRead env "ok"
          (.ok { uri, mimeType := "text/plain", text })

end Gateway

/-! ## The gateway as a whole -/

/-- Any call of the gateway. -/
inductive AgentOp
  | mediate (op : GatewayCall)
  | memory (op : MemoryOp)
  | listTools (grant : CapabilityGrant) (catalog : ToolCatalog)
  | listResources (grant : CapabilityGrant)
  | readResource (grant : CapabilityGrant) (uri : Str) (ctx : RoomContext)

/-- What a call gives back; none where it panics. -/
inductive AgentAnswer
  | mediated (invoked : List ToolCall) (answer : Option (Except GatewayError Outcome))
  | stored (answer : Option (Except MemoryError Unit))
  | recalled (answer : Option (Except MemoryError (Option Str)))
  | recalledAll (answer : Option (Except MemoryError (List MemoryItem)))
  | tools (shown : Option (List DiscoverableTool))
  | resources (listed : Option (List McpResource))
  | contents (answer : Option (Except ResourceError ResourceContents))

def serveMemory (env : GatewayEnv) (g : Gateway) : MemoryOp → AgentAnswer
  | .remember grant room key value => .stored (g.remember env grant room key value).answer
  | .recallItem grant room key => .recalled (g.recallItem env grant room key).answer
  | .recallAll grant room => .recalledAll (g.recallAll env grant room).answer
  | .forget grant room key => .stored (g.forget env grant room key).answer

def serveOp (env : GatewayEnv) (g : Gateway) : AgentOp → Gateway × AgentAnswer
  | .mediate op =>
      let reply := perform env g op
      (reply.gateway, .mediated (reply.invoked.map Prod.snd) reply.answer)
  | .memory op => (memoryStep env g op, serveMemory env g op)
  | .listTools grant catalog =>
      match g.listTools env grant catalog with
      | some (shown, g) => (g, .tools (some shown))
      | none =>
          -- the line is written before the counter overflows
          (g.auditText env grant.agent
            ("tools_listed: ".toList ++ decimal (catalog.listFor grant).length), .tools none)
  | .listResources grant =>
      let r := g.listResources env grant
      (r.1, .resources r.2)
  | .readResource grant uri ctx =>
      let r := g.readResource env grant uri ctx
      (r.1, .contents r.2)

def agentStep (env : GatewayEnv) (g : Gateway) (op : AgentOp) : Gateway := (serveOp env g op).1

/-- What a run of calls gives back, call by call. -/
def answersOver (env : GatewayEnv) (g : Gateway) (ops : List AgentOp) : List AgentAnswer :=
  (trace (agentStep env) g ops).map fun x => (serveOp env x.1 x.2).2

/-- The same call, but for what is said in rooms outside its grant. -/
inductive Alike : AgentOp → AgentOp → Prop
  | same (op : AgentOp) : Alike op op
  | read (grant : CapabilityGrant) (uri : Str) {ctx ctx' : RoomContext}
      (hctx : ∀ room, grant.permitsRoom room = true → ctx room = ctx' room) :
      Alike (.readResource grant uri ctx) (.readResource grant uri ctx')

/-- How a gateway answers the reads of a grant. -/
structure Confined (env : GatewayEnv) (g : Gateway) (grant : CapabilityGrant) (uri : Str)
    (ctx : RoomContext) : Prop where
  /-- What is listed can be read, and nothing else. -/
  listed : ∀ resources answer, (g.listResources env grant).2 = some resources →
    (g.readResource env grant uri ctx).2 = some answer →
      ((∃ r ∈ resources, r.uri = uri) ↔ ∃ contents, answer = .ok contents)
  /-- What is read is the timeline of the one room of that name, and the log has it. -/
  read : ∀ contents, (g.readResource env grant uri ctx).2 = some (.ok contents) →
    ∃! room, room ∈ grant.accessibleRooms ∧ uri = roomResourceUri room ∧
      contents = ⟨uri, "text/plain", renderTimeline (ctx room)⟩ ∧
      (g.readResource env grant uri ctx).1.store =
        append env.digest g.store grant.agent.asStr ("resource_read: ".toList ++ uri)
  /-- A refusal of a room is in the log; only what names no room is not. -/
  refused : ∀ e, (g.readResource env grant uri ctx).2 = some (.error e) →
    (∃ room, room ∉ grant.accessibleRooms ∧ uri = roomResourceUri room ∧ e = .accessDenied uri ∧
      (g.readResource env grant uri ctx).1.store =
        append env.digest g.store grant.agent.asStr ("resource_denied: ".toList ++ uri)) ∨
    (∀ room, uri ≠ roomResourceUri room) ∧ e = .unknownResource uri ∧
      (g.readResource env grant uri ctx).1.store = g.store
  /-- The requests, the budgets and the clock are left alone. -/
  frame : ∃ store metrics, (g.readResource env grant uri ctx).1 = { g with store, metrics }

section

variable {env : GatewayEnv} {g : Gateway} {grant : CapabilityGrant} {uri : Str} {room : RoomId}
  {ctx ctx' : RoomContext} {op op' : AgentOp} {ops ops' : List AgentOp}

/-! ## Names of rooms -/

theorem roomFromUri_eq_some_iff : roomFromUri uri = some room ↔ uri = roomResourceUri room := by
  rw [roomFromUri, Option.bind_eq_some_iff]
  constructor
  · rintro ⟨rest, hrest, hroom⟩
    rw [stripPrefix_eq_some_iff.mp hrest, roomResourceUri, RoomId.asStr_of_parse hroom]
  · rintro rfl
    exact ⟨room.asStr, stripPrefix_append _ _, RoomId.parse_asStr room⟩

theorem roomFromUri_roomResourceUri (room : RoomId) :
    roomFromUri (roomResourceUri room) = some room :=
  roomFromUri_eq_some_iff.mpr rfl

theorem roomResourceUri_injective : Function.Injective roomResourceUri := by
  intro room room' h
  have hsome := roomFromUri_roomResourceUri room
  rw [h, roomFromUri_roomResourceUri] at hsome
  exact (Option.some.inj hsome).symm

theorem permitsRoom_iff_mem : grant.permitsRoom room = true ↔ room ∈ grant.accessibleRooms := by
  simp [CapabilityGrant.permitsRoom]

/-! ## Reads -/

theorem countAnd_store {α : Type} (name : Str) (labels : List (Str × Str)) (answer : α) :
    (g.countAnd env name labels answer).1.store = g.store := by
  unfold Gateway.countAnd
  split <;> rfl

theorem countAnd_answer {α : Type} {name : Str} {labels : List (Str × Str)} {answer given : α}
    (h : (g.countAnd env name labels answer).2 = some given) : given = answer := by
  unfold Gateway.countAnd at h
  split at h
  · cases h
  · exact (Option.some.inj h).symm

theorem countAnd_frame {α : Type} (name : Str) (labels : List (Str × Str)) (answer : α) :
    ∃ metrics, (g.countAnd env name labels answer).1 = { g with metrics } := by
  unfold Gateway.countAnd
  split
  · exact ⟨g.metrics, rfl⟩
  · exact ⟨_, rfl⟩

/-- A read is of a name that is no room's, of a room outside the grant, or of a room in it. -/
theorem readResource_cases (env : GatewayEnv) (g : Gateway) (grant : CapabilityGrant) (uri : Str)
    (ctx : RoomContext) :
    ((∀ room, uri ≠ roomResourceUri room) ∧ g.readResource env grant uri ctx =
      g.countRead env "unknown" (.error (.unknownResource uri))) ∨
    (∃ room, uri = roomResourceUri room ∧ room ∉ grant.accessibleRooms ∧
      g.readResource env grant uri ctx =
        (g.auditText env grant.agent ("resource_denied: ".toList ++ uri)).countRead env "denied"
          (.error (.accessDenied uri))) ∨
    ∃ room, uri = roomResourceUri room ∧ room ∈ grant.accessibleRooms ∧
      g.readResource env grant uri ctx =
        (g.auditText env grant.agent ("resource_read: ".toList ++ uri)).countRead env "ok"
          (.ok ⟨uri, "text/plain", renderTimeline (ctx room)⟩) := by
  cases hroom : roomFromUri uri with
  | none =>
      left
      constructor
      · rintro room rfl
        rw [roomFromUri_roomResourceUri] at hroom
        cases hroom
      · simp only [Gateway.readResource, hroom]
  | some room =>
      right
      have huri := roomFromUri_eq_some_iff.mp hroom
      by_cases hpermit : grant.permitsRoom room = true
      · exact .inr ⟨room, huri, permitsRoom_iff_mem.mp hpermit, by
          simp [Gateway.readResource, hroom, hpermit]⟩
      · exact .inl ⟨room, huri, fun hmem => hpermit (permitsRoom_iff_mem.mpr hmem), by
          simp [Gateway.readResource, hroom, hpermit]⟩

theorem mem_listResources_iff {resources : List McpResource}
    (h : (g.listResources env grant).2 = some resources) :
    (∃ r ∈ resources, r.uri = uri) ↔ ∃ room ∈ grant.accessibleRooms, uri = roomResourceUri room := by
  rw [countAnd_answer h]
  constructor
  · rintro ⟨r, hr, rfl⟩
    obtain ⟨room, hroom, rfl⟩ := List.mem_map.mp hr
    exact ⟨room, hroom, rfl⟩
  · rintro ⟨room, hroom, rfl⟩
    exact ⟨_, List.mem_map_of_mem hroom, rfl⟩

theorem confined (env : GatewayEnv) (g : Gateway) (grant : CapabilityGrant) (uri : Str)
    (ctx : RoomContext) : Confined env g grant uri ctx := by
  obtain ⟨huri, hread⟩ | ⟨room, huri, hroom, hread⟩ | ⟨room, huri, hroom, hread⟩ :=
    readResource_cases env g grant uri ctx
  · constructor
    case listed =>
      intro resources answer hlist hanswer
      rw [hread] at hanswer
      rw [mem_listResources_iff hlist, countAnd_answer hanswer]
      exact iff_of_false (fun h => h.elim fun room hroom => huri room hroom.2) (by simp)
    case read =>
      intro contents hanswer
      rw [hread] at hanswer
      cases countAnd_answer hanswer
    case refused =>
      intro e hanswer
      rw [hread] at hanswer
      right
      cases countAnd_answer hanswer
      exact ⟨huri, rfl, by rw [hread]; exact countAnd_store _ _ _⟩
    case frame =>
      rw [hread]
      exact ⟨g.store, countAnd_frame _ _ _⟩
  · constructor
    case listed =>
      intro resources answer hlist hanswer
      rw [hread] at hanswer
      rw [mem_listResources_iff hlist, countAnd_answer hanswer]
      refine iff_of_false ?_ (by simp)
      rintro ⟨room', hroom', huri'⟩
      rw [roomResourceUri_injective (huri.symm.trans huri')] at hroom
      exact hroom hroom'
    case read =>
      intro contents hanswer
      rw [hread] at hanswer
      cases countAnd_answer hanswer
    case refused =>
      intro e hanswer
      rw [hread] at hanswer
      left
      cases countAnd_answer hanswer
      exact ⟨room, hroom, huri, rfl, by rw [hread]; exact countAnd_store _ _ _⟩
    case frame =>
      rw [hread]
      exact ⟨_, countAnd_frame _ _ _⟩
  · constructor
    case listed =>
      intro resources answer hlist hanswer
      rw [hread] at hanswer
      rw [mem_listResources_iff hlist, countAnd_answer hanswer]
      exact iff_of_true ⟨room, hroom, huri⟩ ⟨_, rfl⟩
    case read =>
      intro contents hanswer
      rw [hread] at hanswer
      have hcontents := Except.ok.inj (countAnd_answer hanswer)
      refine ⟨room, ⟨hroom, huri, hcontents, by rw [hread]; exact countAnd_store _ _ _⟩, ?_⟩
      rintro room' ⟨-, huri', -⟩
      exact roomResourceUri_injective (huri'.symm.trans huri)
    case refused =>
      intro e hanswer
      rw [hread] at hanswer
      cases countAnd_answer hanswer
    case frame =>
      rw [hread]
      exact ⟨_, countAnd_frame _ _ _⟩

/-! ## Runs -/

/-- What is said in rooms outside the grant changes nothing. -/
theorem Alike.serveOp_eq (h : Alike op op') (env : GatewayEnv) (g : Gateway) :
    serveOp env g op = serveOp env g op' := by
  cases h with
  | same op => rfl
  | @read grant uri ctx ctx' hctx =>
      have hread : g.readResource env grant uri ctx = g.readResource env grant uri ctx' := by
        unfold Gateway.readResource
        cases roomFromUri uri with
        | none => rfl
        | some room =>
            by_cases hpermit : grant.permitsRoom room = true
            · simp only [hctx room hpermit]
            · simp [hpermit]
      simp only [serveOp, hread]

/-- Over every run of calls, what an agent is given depends on no room outside the grant of the call;
after it what is listed for a grant is what can be read under it, each name one room's, and a read or
a denial of a room is a line of the log. -/
theorem resources_confined (env : GatewayEnv) (g : Gateway) (h : List.Forall₂ Alike ops ops') :
    answersOver env g ops = answersOver env g ops' ∧
    run (agentStep env) g ops = run (agentStep env) g ops' ∧
    ∀ grant uri ctx, Confined env (run (agentStep env) g ops) grant uri ctx := by
  refine ⟨?_, ?_, fun grant uri ctx => confined env _ grant uri ctx⟩
  · induction h generalizing g with
    | nil => rfl
    | cons hop hops ih =>
        simp only [answersOver, trace, List.map_cons, agentStep, hop.serveOp_eq]
        exact congrArg _ (ih _)
  · induction h generalizing g with
    | nil => rfl
    | cons hop hops ih =>
        simp only [run_cons, agentStep, hop.serveOp_eq]
        exact ih _

end

namespace SampleGateway

/-- A history where another room has been spoken in. -/
def history : MapRoomContext :=
  MapRoomContext.withMessages SortedMap.empty ⟨"!r:x", valid_room⟩ [⟨"@a:x", "secret"⟩]

end SampleGateway

open SampleGateway in
theorem resources_confined_history :
    answersOver env (.withStore Store.empty)
        [.readResource (grant .auto) "gauss://room/!r:x" history.messages] =
      answersOver env (.withStore Store.empty)
        [.readResource (grant .auto) "gauss://room/!r:x" fun _ => []] := by
  have halike : List.Forall₂ Alike
      [.readResource (grant .auto) "gauss://room/!r:x" history.messages]
      [.readResource (grant .auto) "gauss://room/!r:x" fun _ => []] := by
    refine .cons (.read _ _ ?_) .nil
    intro r hr
    have hroom : r = room := by simpa [grant, CapabilityGrant.permitsRoom, eq_comm] using hr
    rw [hroom]
    decide
  exact (resources_confined env (.withStore Store.empty) halike).1

/-! ## Timelines -/

/-- The sender and the body of a line that reads as a message. -/
def messageOf (line : Str) : Option Message :=
  match splitOnce ' ' line with
  | some (head, body) => if head.getLast? = some ':' then some ⟨head.dropLast, body⟩ else none
  | none => none

/-- Whether a line reads as the first of a message. -/
def startsMessage (line : Str) : Bool := (messageOf line).isSome

/-- A timeline as its reader sees it: the lines after the first of a message are its body's. -/
def readTimeline (text : Str) : List Message :=
  (groups startsMessage (text.splitOn '\n')).2.filterMap fun r =>
    (messageOf r.1).map fun m => { m with body := ['\n'].intercalate (m.body :: r.2) }

/-- The sender can stand before the colon: it has no blank and no line break. -/
def PlainSender (m : Message) : Prop := ' ' ∉ m.sender ∧ '\n' ∉ m.sender

/-- The lines of a body after its first. -/
def moreLines (m : Message) : List Str := (m.body.splitOn '\n').tail

section

variable {m : Message} {messages : List Message}

theorem messageOf_line {sender : Str} (h : ' ' ∉ sender) (body : Str) :
    messageOf (sender ++ ": ".toList ++ body) = some ⟨sender, body⟩ := by
  have hsplit : splitOnce ' ' (sender ++ ": ".toList ++ body) = some (sender ++ [':'], body) := by
    have hhead : ' ' ∉ sender ++ [':'] := by simp [h]
    have happend := splitOnce_append hhead body
    rw [List.append_assoc] at happend ⊢
    exact happend
  rw [messageOf, hsplit]
  simp

/-- The lines of a message: the first has the sender and reads as a message. -/
theorem splitOn_render (h : PlainSender m) : ∃ first,
    m.body.splitOn '\n' = first :: moreLines m ∧
    m.render.splitOn '\n' = (m.sender ++ ": ".toList ++ first) :: moreLines m := by
  have hfront : '\n' ∉ m.sender ++ ": ".toList := by simp [h.2]
  obtain ⟨first, more, hparts⟩ := List.exists_cons_of_ne_nil (List.splitOn_ne_nil '\n' m.body)
  have hmore : moreLines m = more := by rw [moreLines, hparts, List.tail_cons]
  refine ⟨first, by rw [hparts, hmore], ?_⟩
  rw [Message.render, splitOn_append_of_not_mem hfront, hparts, hmore, List.modifyHead_cons]

/-- A message as its record of lines. -/
def recordOf (m : Message) : Str × List Str :=
  (m.sender ++ ": ".toList ++ ((m.body.splitOn '\n').headD []), moreLines m)

theorem splitOn_renderTimeline (h : messages ≠ []) (hplain : ∀ m ∈ messages, PlainSender m) :
    (renderTimeline messages).splitOn '\n' =
      (messages.map recordOf).flatMap fun r => r.1 :: r.2 := by
  have hne : messages.map Message.render ≠ [] := by simpa using h
  rw [renderTimeline, splitOn_intercalate_parts '\n' hne, List.flatMap_map, List.flatMap_map]
  apply List.flatMap_congr
  intro m hm
  obtain ⟨first, hbody, hrender⟩ := splitOn_render (hplain m hm)
  rw [hrender, recordOf, hbody]
  rfl

theorem messageOf_recordOf (h : PlainSender m) :
    messageOf (recordOf m).1 = some ⟨m.sender, (m.body.splitOn '\n').headD []⟩ :=
  messageOf_line h.1 _

theorem startsMessage_recordOf (h : PlainSender m) : startsMessage (recordOf m).1 = true := by
  rw [startsMessage, messageOf_recordOf h]
  rfl

/-- The lines of a message give its body. -/
theorem intercalate_recordOf (m : Message) :
    ['\n'].intercalate ((m.body.splitOn '\n').headD [] :: moreLines m) = m.body := by
  obtain ⟨first, more, hparts⟩ := List.exists_cons_of_ne_nil (List.splitOn_ne_nil '\n' m.body)
  rw [moreLines, hparts, List.headD_cons, List.tail_cons, ← hparts, List.intercalate_splitOn]

theorem length_readTimeline (text : Str) :
    (readTimeline text).length = (text.splitOn '\n').countP startsMessage := by
  rw [← length_groups, readTimeline, List.length_filterMap_eq_countP, List.countP_eq_length]
  intro r hr
  have hstart := start_of_mem_groups hr
  obtain ⟨m, hm⟩ := Option.isSome_iff_exists.mp hstart
  rw [hm]
  rfl

/-- A timeline can be read back exactly where no line of a body but the first reads as a message, and a
message with such a line shows as two. -/
theorem timeline_read_iff (hplain : ∀ m ∈ messages, PlainSender m) :
    (readTimeline (renderTimeline messages) = messages ↔
      ∀ m ∈ messages, ∀ line ∈ moreLines m, startsMessage line = false) ∧
    ∀ before after m m', messages = before ++ m :: m' :: after →
      renderTimeline (before ++ ⟨m.sender, m.body ++ '\n' :: m'.render⟩ :: after) =
        renderTimeline messages := by
  constructor
  · by_cases hne : messages = []
    · rw [hne]
      exact iff_of_true rfl (by simp)
    have hlines := splitOn_renderTimeline hne hplain
    have hstart : ∀ r ∈ messages.map recordOf, startsMessage r.1 = true := by
      rw [List.forall_mem_map]
      exact fun m hm => startsMessage_recordOf (hplain m hm)
    constructor
    · intro hread m hm line hline
      -- as many lines as there are messages start one, and each message takes one of them
      have hlength := length_readTimeline (renderTimeline messages)
      rw [hread, hlines, countP_flatMap hstart, List.length_map] at hlength
      have hzero : ((messages.map recordOf).flatMap Prod.snd).countP startsMessage = 0 := by omega
      rw [List.countP_eq_zero] at hzero
      have hmem : line ∈ (messages.map recordOf).flatMap Prod.snd :=
        List.mem_flatMap.mpr ⟨recordOf m, List.mem_map_of_mem hm, hline⟩
      exact Bool.eq_false_iff.mpr (hzero line hmem)
    · intro hmore
      have hrest : ∀ r ∈ messages.map recordOf, ∀ line ∈ r.2, startsMessage line = false := by
        rw [List.forall_mem_map]
        exact hmore
      rw [readTimeline, hlines, groups_flatMap hstart hrest, List.filterMap_map]
      have hself : ∀ m ∈ messages,
          ((messageOf (recordOf m).1).map fun m' =>
            { m' with body := ['\n'].intercalate (m'.body :: (recordOf m).2) }) = some m := by
        intro m hm
        rw [messageOf_recordOf (hplain m hm), Option.map_some]
        simp only [recordOf, intercalate_recordOf]
      exact (List.filterMap_congr hself).trans List.filterMap_some
  · rintro before after m m' rfl
    have hjoin : Message.render ⟨m.sender, m.body ++ '\n' :: m'.render⟩ =
        m.render ++ ['\n'] ++ m'.render := by
      simp [Message.render]
    simp only [renderTimeline, List.map_append, List.map_cons, hjoin]
    exact intercalate_append_merge _ _ _ _ _

end

/-- A body with a line that reads as another's message. -/
theorem timeline_read_forged :
    (∀ m ∈ [(⟨"@a:x", "hi\n@b:x: yes"⟩ : Message)], PlainSender m) ∧
    readTimeline (renderTimeline [⟨"@a:x", "hi\n@b:x: yes"⟩]) ≠ [⟨"@a:x", "hi\n@b:x: yes"⟩] := by
  have hplain : ∀ m ∈ [(⟨"@a:x", "hi\n@b:x: yes"⟩ : Message)], PlainSender m := by
    intro m hm
    rw [List.mem_singleton] at hm
    rw [hm]
    exact ⟨by decide, by decide⟩
  refine ⟨hplain, fun hread => ?_⟩
  have hmore := (timeline_read_iff hplain).1.mp hread _ (List.mem_singleton_self _) "@b:x: yes"
    (by decide)
  exact absurd hmore (by decide)

end GaussMatrix.Agent
