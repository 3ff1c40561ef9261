import GaussMatrix.Svc.IncrementalSync

/-!
# Disclosure

What a sync shows of a joined room is the room's.  A room is reported as left with all of its events
in the window, also those from when the user was not joined.
-/

namespace GaussMatrix.Svc

open Library Util Api Api.Events StateRes RoomService

/-- The events in a view. -/
def viewEvents (view : SyncView) : List Pdu :=
  (view.joined.flatMap fun joined => joined.state ++ joined.timeline) ++
    view.left.flatMap fun left => left.timeline

/-- The user was joined to the event's room when a run appended the event. -/
def JoinedAtAppend (env : Env) (ops : List Op) (user : UserId) (p : Pdu) : Prop :=
  ∃ x ∈ runAppends env Store.empty ops, x.2 = p ∧ isJoined x.1 p.roomId user = true

/-- A view shows the user events of rooms that they are or were joined to, and their own membership
events. -/
def ShownToMembers (env : Env) (ops : List Op) (user : UserId) (view : SyncView) : Prop :=
  ∀ p ∈ viewEvents view, IsMembershipOf p.roomId user p ∨
    isJoined (run (step env) Store.empty ops) p.roomId user = true ∨ JoinedAtAppend env ops user p

/-- In a room that the user is not joined to, a window with a leave or a ban of theirs has, beside
their membership events, only events from when they were joined. -/
def LeftWindowsJoined (env : Env) (ops : List Op) (user : UserId) (since : Option Str) : Prop :=
  ∀ pos ∈ sincePosition since, ∀ p ∈ (runEvents env ops).drop pos,
    isJoined (run (step env) Store.empty ops) p.roomId user = false →
      leftInDelta (((runEvents env ops).drop pos).filter (·.roomId = p.roomId)) user = true →
        IsMembershipOf p.roomId user p ∨ JoinedAtAppend env ops user p

section

variable {env : Env} {s : Data} {user : UserId} {now : RoomId → UInt64} {delta : List Pdu} {p : Pdu}

/-- An event among the joined rooms is one of a joined room. -/
theorem isJoined_of_mem_initialJoined {joined : JoinedRoom}
    (hown : ∀ room, sep ∉ room.asStr → OwnTimeline s room)
    (hjoined : joined ∈ initialJoined s user now) (hp : p ∈ joined.state ++ joined.timeline) :
    isJoined s p.roomId user = true := by
  obtain ⟨room, hroom, rfl⟩ := List.mem_map.mp hjoined
  obtain ⟨hrooms, hin⟩ := List.mem_filter.mp hroom
  have htimeline := hown room (sep_not_mem_of_mem_rooms hrooms)
  have hself : p.roomId = room := by
    rcases List.mem_append.mp hp with hp | hp
    · exact htimeline.roomId_of_mem_currentStatePdus hp
    · exact htimeline p hp
  rw [hself]
  exact hin

theorem isJoined_of_mem_deltaJoined {joined : JoinedRoom}
    (hown : ∀ room, sep ∉ room.asStr → OwnTimeline s room)
    (hnamed : ∀ q ∈ delta, sep ∉ q.roomId.asStr) (hjoined : joined ∈ deltaJoined s user now delta)
    (hp : p ∈ joined.state ++ joined.timeline) : isJoined s p.roomId user = true := by
  obtain ⟨x, hx, rfl⟩ := List.mem_map.mp hjoined
  obtain ⟨hx, hin⟩ := List.mem_filter.mp hx
  obtain ⟨hevents, hne⟩ := mem_deltaRooms.mp hx
  have htimeline : ∀ q ∈ x.2, q.roomId = x.1 := by
    intro q hq
    rw [hevents] at hq
    exact of_decide_eq_true (List.mem_filter.mp hq).2
  have hself : p.roomId = x.1 := by
    rcases List.mem_append.mp hp with hp | hp
    · simp only [deltaRoom] at hp
      split at hp
      · obtain ⟨q, hq⟩ := List.exists_mem_of_ne_nil _ hne
        have hsep : sep ∉ x.1.asStr := by
          rw [← htimeline q hq]
          rw [hevents] at hq
          exact hnamed q (List.mem_of_mem_filter hq)
        exact (hown x.1 hsep).roomId_of_mem_currentStatePdus hp
      · exact htimeline p (List.mem_of_mem_filter hp)
    · exact htimeline p hp
  rw [hself]
  exact hin

/-- The events of the rooms that a delta reports as left. -/
theorem mem_deltaLeft_timeline :
    (∃ left ∈ deltaLeft s user delta, p ∈ left.timeline) ↔
      p ∈ delta ∧ isJoined s p.roomId user = false ∧
        leftInDelta (delta.filter (·.roomId = p.roomId)) user = true := by
  constructor
  · rintro ⟨left, hleft, hp⟩
    obtain ⟨x, hx, rfl⟩ := List.mem_map.mp hleft
    have hroom := (mem_deltaLeft s user delta x.1).mp (List.mem_map_of_mem hleft)
    rw [(mem_deltaRooms.mp (List.mem_of_mem_filter hx)).1, List.mem_filter] at hp
    obtain ⟨hp, hself⟩ := hp
    rw [of_decide_eq_true hself]
    exact ⟨hp, hroom⟩
  · rintro ⟨hp, hroom⟩
    obtain ⟨left, hleft, hself⟩ := List.mem_map.mp ((mem_deltaLeft s user delta p.roomId).mpr hroom)
    refine ⟨left, hleft, ?_⟩
    obtain ⟨x, hx, rfl⟩ := List.mem_map.mp hleft
    have hself : x.1 = p.roomId := hself
    show p ∈ x.2
    rw [(mem_deltaRooms.mp (List.mem_of_mem_filter hx)).1, hself]
    exact List.mem_filter.mpr ⟨hp, decide_eq_true rfl⟩

end

/-- A sync of a local run shows a user events of rooms that they are or were joined to and their own
membership events exactly when that holds of the windows of the rooms they left. -/
theorem sync_shownToMembers_iff (env : Env) (ops : List Op) (user : UserId) (since : Option Str)
    (now : RoomId → UInt64) (hlocal : ∀ op ∈ ops, op.IsLocal)
    (hnamed : WellNamed (runEvents env ops)) (hlen : (runEvents env ops).length < 2 ^ 64) :
    ShownToMembers env ops user (sync (run (step env) Store.empty ops) user since now) ↔
      LeftWindowsJoined env ops user since := by
  have hown : ∀ room, sep ∉ room.asStr → OwnTimeline (run (step env) Store.empty ops) room :=
    fun room hroom => (OwnHistory.local_run hroom hnamed hlocal).timeline
  cases hpos : sincePosition since with
  | none =>
      -- an initial sync has joined rooms only
      refine iff_of_true (fun p hp => ?_) (fun pos hpos' => nomatch hpos.symm.trans hpos')
      simp only [viewEvents, sync, hpos, List.flatMap_nil, List.append_nil] at hp
      obtain ⟨joined, hjoined, hp⟩ := List.mem_flatMap.mp hp
      exact .inr (.inl (isJoined_of_mem_initialJoined hown hjoined hp))
  | some pos =>
      have hdelta : eventsSince (run (step env) Store.empty ops) pos =
          (runEvents env ops).drop pos :=
        hnamed.streamed.eventsSince_eq hnamed.rooms hnamed.ids (by omega) pos
      have hdeltaNamed : ∀ q ∈ (runEvents env ops).drop pos, sep ∉ q.roomId.asStr :=
        fun q hq => hnamed.rooms q (List.mem_of_mem_drop hq)
      have hview : ∀ p, p ∈ viewEvents (sync (run (step env) Store.empty ops) user since now) ↔
          (∃ joined ∈ deltaJoined (run (step env) Store.empty ops) user now
            ((runEvents env ops).drop pos), p ∈ joined.state ++ joined.timeline) ∨
          ∃ left ∈ deltaLeft (run (step env) Store.empty ops) user ((runEvents env ops).drop pos),
            p ∈ left.timeline := by
        intro p
        simp only [viewEvents, sync, hpos, hdelta, List.mem_append, List.mem_flatMap]
      constructor
      · intro h pos' hpos' p hp hout hleft
        obtain rfl := Option.some.inj (hpos.symm.trans hpos')
        rcases h p ((hview p).mpr (.inr (mem_deltaLeft_timeline.mpr ⟨hp, hout, hleft⟩))) with
          hself | hin | hwas
        · exact .inl hself
        · exact absurd (hin.symm.trans hout) (by simp)
        · exact .inr hwas
      · intro h p hp
        rcases (hview p).mp hp with ⟨joined, hjoined, hp⟩ | hp
        · exact .inr (.inl (isJoined_of_mem_deltaJoined hown hdeltaNamed hjoined hp))
        · obtain ⟨hp, hout, hleft⟩ := mem_deltaLeft_timeline.mp hp
          rcases h pos hpos p hp hout hleft with hself | hwas
          · exact .inl hself
          · exact .inr (.inr hwas)

namespace SampleRun

/-- Bob joins by invitation, sends a message and leaves. -/
def bobPasses : List Op := inviting ++ joinThenLeave.flatMap (·.ops)

/-- Bob, whom nobody invited, leaves. -/
def bobSlipsIn : List Op :=
  [.createRoom alice none none fun _ => 0, .changeMembership bob mintedRoom bob "leave" 0]

end SampleRun

example : sincePosition (some "s5".toList) = some 5 := by decide +kernel

open SampleRun in
/-- From his message on bob sees the message and his leave. -/
theorem sync_shownToMembers_sample :
    ShownToMembers summingEnv bobPasses bob
      (sync (run (step summingEnv) Store.empty bobPasses) bob (some "s5".toList) fun _ => 0) := by
  have hrun : WellNamed (runEvents summingEnv bobPasses) ∧
      (runEvents summingEnv bobPasses).length = 7 ∧
      LeftWindowsJoined summingEnv bobPasses bob (some "s5".toList) := by
    unfold LeftWindowsJoined JoinedAtAppend
    decide +kernel
  obtain ⟨hnamed, hlen, hleft⟩ := hrun
  exact (sync_shownToMembers_iff summingEnv bobPasses bob (some "s5".toList) (fun _ => 0)
    (by decide +kernel) hnamed (by rw [hlen]; decide)).mpr hleft

open SampleRun in
/-- A user who never was in the room leaves it, and gets all of its events. -/
theorem sync_discloses_to_stranger :
    ¬ ∀ (env : Env) (ops : List Op) (user : UserId) (since : Option Str)
      (now : RoomId → UInt64), (∀ op ∈ ops, op.IsLocal) → WellNamed (runEvents env ops) →
        ShownToMembers env ops user (sync (run (step env) Store.empty ops) user since now) := by
  intro h
  have hrun : WellNamed (runEvents summingEnv bobSlipsIn) ∧
      ¬ ShownToMembers summingEnv bobSlipsIn bob
        (sync (run (step summingEnv) Store.empty bobSlipsIn) bob (some "s0".toList) fun _ => 0) := by
    unfold ShownToMembers JoinedAtAppend
    decide +kernel
  exact hrun.2 (h summingEnv bobSlipsIn bob (some "s0".toList) (fun _ => 0) (by decide +kernel) hrun.1)

end GaussMatrix.Svc
