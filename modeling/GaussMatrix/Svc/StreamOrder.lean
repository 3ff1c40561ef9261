import GaussMatrix.Svc.CurrentState
import GaussMatrix.Svc.Stream

/-!
# Reading the event stream

A dense stream of `n` entries has an entry at each position below `n` and no other.  What a reader gets
from a position on is what those entries lead to, in the order of their positions as long as these
have twenty digits.
-/

namespace GaussMatrix.Svc

open Library Util Api StateRes

/-- Events of one room with one id are the same event. -/
def IdsDetermine (events : List Pdu) : Prop :=
  ∀ p ∈ events, ∀ q ∈ events, p.roomId = q.roomId → p.eventId = q.eventId → p = q

instance (events : List Pdu) : Decidable (IdsDetermine events) :=
  inferInstanceAs (Decidable (∀ p ∈ events, ∀ q ∈ events, _ → _ → p = q))

theorem IdsDetermine.of_subset {events later : List Pdu} (h : IdsDetermine later)
    (hsub : ∀ p ∈ events, p ∈ later) : IdsDetermine events :=
  fun p hp q hq => h p (hsub p hp) q (hsub q hq)

namespace RoomService

/-- The event that a stream entry leads to. -/
def resolveEntry (s : Data) (entry : Record) : Option Pdu := do
  let text ← entry.asText
  let (room, id) ← splitOnce sep text
  let room ← RoomId.parse room
  let id ← EventId.parse id
  pdu s room id

/-- The event that a stream position leads to. -/
def streamEvent (s : Data) (seq : Nat) : Option Pdu :=
  ((s .eventStream).get (streamKey seq)).bind (resolveEntry s)

variable {s : Data} {since : Nat} {p : Pdu}

theorem resolveEntry_of_pdu (hroom : sep ∉ p.roomId.asStr)
    (hp : pdu s p.roomId p.eventId = some p) :
    resolveEntry s (.text (streamEntry p)) = some p := by
  simp only [resolveEntry, Record.asText, streamEntry, splitOnce_append hroom, bind,
    Option.bind_some, RoomId.parse_asStr, EventId.parse_asStr, hp]

/-- An entry is cut at its first separator: it leads to an event whose id is no shorter, and is of the
same length only when the room id has no separator. -/
theorem length_le_of_resolveEntry {q : Pdu}
    (h : resolveEntry s (.text (streamEntry p)) = some q) :
    p.eventId.asStr.length ≤ q.eventId.asStr.length ∧
      (p.eventId.asStr.length = q.eventId.asStr.length → sep ∉ p.roomId.asStr) := by
  simp only [resolveEntry, Record.asText, bind, Option.bind_some, Option.bind_eq_some_iff,
    Prod.exists] at h
  obtain ⟨a, b, hsplit, room, -, id, hid, hp⟩ := h
  obtain ⟨hentry, ha⟩ := splitOnce_eq_some hsplit
  have hq : q.eventId.asStr = b := by
    rw [(mem_timeline_of_pdu hp).2, EventId.asStr_of_parse hid]
  rw [hq]
  have hlen := congrArg List.length hentry
  simp only [streamEntry, List.length_append, List.length_cons] at hlen
  have hle : a.length ≤ p.roomId.asStr.length := by
    by_contra hlt
    -- otherwise the separator after the room id would be in the first part
    refine ha ?_
    have hget := congrArg (·[p.roomId.asStr.length]?) hentry
    simp only [streamEntry, List.getElem?_append_right le_rfl, Nat.sub_self,
      List.getElem?_cons_zero] at hget
    rw [List.getElem?_append_left (by omega)] at hget
    exact List.mem_of_getElem? hget.symm
  refine ⟨by omega, fun heq hsep => ha ?_⟩
  have htake := congrArg (List.take p.roomId.asStr.length) hentry
  have hsame : a.length = p.roomId.asStr.length := by omega
  rw [streamEntry, List.take_left, ← hsame, List.take_left] at htake
  rw [← htake]
  exact hsep

theorem eq_of_resolveEntry {q : Pdu} (hs : Keyed s) (hp : sep ∉ p.roomId.asStr)
    (hq : sep ∉ q.roomId.asStr) (h : resolveEntry s (.text (streamEntry p)) = some q) :
    q.roomId = p.roomId ∧ q.eventId = p.eventId := by
  simp only [resolveEntry, Record.asText, streamEntry, splitOnce_append hp, bind,
    Option.bind_some, RoomId.parse_asStr, EventId.parse_asStr] at h
  obtain ⟨hmem, hid⟩ := mem_timeline_of_pdu h
  exact ⟨(startsWith_timelineKey_iff hp hq).mp ((mem_timeline_iff hs).mp hmem).2, hid⟩

/-- The entry at a position, with its key. -/
def entryAt (s : Data) (seq : Nat) : Str × Record :=
  (streamKey seq, ((s .eventStream).get (streamKey seq)).getD (.text []))

theorem streamKey_injective : Function.Injective streamKey := padDecimal_injective 20

/-- The entries of a dense stream are those at the positions below its length. -/
theorem Dense.scan_perm (h : Dense s) :
    (s.scan .eventStream).Perm ((List.range (streamLen s)).map (entryAt s)) := by
  have hnodup : ((List.range (streamLen s)).map (entryAt s)).Nodup := by
    refine List.Nodup.map (fun i j heq => ?_) List.nodup_range
    exact streamKey_injective (Prod.mk.inj heq).1
  have hsubset : (List.range (streamLen s)).map (entryAt s) ⊆ s.scan .eventStream := by
    intro e he
    obtain ⟨seq, hseq, rfl⟩ := List.mem_map.mp he
    obtain ⟨entry, hentry⟩ := Option.isSome_iff_exists.mp ((h seq).mpr (List.mem_range.mp hseq))
    rw [entryAt, hentry, Option.getD_some]
    exact ((s .eventStream).mem_entries_iff _ _).mpr hentry
  have hlen : (s.scan .eventStream).length ≤
      ((List.range (streamLen s)).map (entryAt s)).length := by
    rw [List.length_map, List.length_range]
    exact le_rfl
  exact ((List.subperm_of_subset hnodup hsubset).perm_of_length_le hlen).symm

/-- Up to twenty digits the keys of the positions are in the order of the positions. -/
theorem pairwise_entryAt {n : Nat} (hn : n ≤ 10 ^ 20) :
    ((List.range n).map (entryAt s)).Pairwise (fun a b => a.1 < b.1) := by
  rw [List.pairwise_map]
  refine List.pairwise_lt_range.imp_of_mem fun hi hj hlt => ?_
  have hi := List.mem_range.mp hi
  have hj := List.mem_range.mp hj
  exact (padDecimal_lt_iff (by decide) (by omega) (by omega)).mpr hlt

theorem Dense.scan_eq (h : Dense s) (hlen : streamLen s ≤ 10 ^ 20) :
    s.scan .eventStream = (List.range (streamLen s)).map (entryAt s) :=
  h.scan_perm.eq_of_pairwise (fun _ _ _ _ hab hba => absurd hab hba.asymm) (s .eventStream).sorted
    (pairwise_entryAt hlen)

/-- What a reader gets from entries at positions. -/
theorem filterMap_entryAt (positions : List Nat) (hstored : ∀ seq ∈ positions,
      ((s .eventStream).get (streamKey seq)).isSome) (since : Nat) :
    (((positions.map (entryAt s)).filter fun e => match parseDecimal e.1 with
        | some seq => since ≤ seq
        | none => false).filterMap fun e => resolveEntry s e.2) =
      (positions.filter (since ≤ ·)).filterMap (streamEvent s) := by
  rw [List.filter_map, List.filterMap_map]
  have hpos : ∀ seq, ((fun e : Str × Record => match parseDecimal e.1 with
      | some seq => decide (since ≤ seq)
      | none => false) ∘ entryAt s) seq = decide (since ≤ seq) := by
    intro seq
    simp only [Function.comp_apply, entryAt, streamKey, parseDecimal_padDecimal]
  rw [List.filter_congr fun seq _ => hpos seq]
  refine List.filterMap_congr fun seq hseq => ?_
  obtain ⟨entry, hentry⟩ := Option.isSome_iff_exists.mp (hstored seq (List.mem_of_mem_filter hseq))
  simp only [Function.comp_apply, entryAt, streamEvent, hentry, Option.getD_some, Option.bind_some]

/-- The events since a position are those of the positions from there on, in some order. -/
theorem Dense.eventsSince_perm (h : Dense s) (since : Nat) :
    (eventsSince s since).Perm
      (((List.range (streamLen s)).filter (since ≤ ·)).filterMap (streamEvent s)) := by
  rw [← filterMap_entryAt _ fun seq hseq => (h seq).mpr (List.mem_range.mp hseq)]
  exact (h.scan_perm.filter _).filterMap _

/-- The events since a position, in order. -/
theorem Dense.eventsSince_eq (h : Dense s) (hlen : streamLen s ≤ 10 ^ 20) (since : Nat) :
    eventsSince s since =
      ((List.range (streamLen s)).filter (since ≤ ·)).filterMap (streamEvent s) := by
  rw [← filterMap_entryAt _ fun seq hseq => (h seq).mpr (List.mem_range.mp hseq), ← h.scan_eq hlen]
  rfl

/-- The elements of a list at the positions from one on. -/
theorem filterMap_range_getElem? {α : Type} (l : List α) (since : Nat) :
    ((List.range l.length).filter (since ≤ ·)).filterMap (fun k => l[k]?) = l.drop since := by
  induction l using List.reverseRecOn with
  | nil => simp
  | append_singleton l a ih =>
      have hfront : ((List.range l.length).filter (since ≤ ·)).filterMap (fun k => (l ++ [a])[k]?) =
          l.drop since := by
        rw [← ih]
        refine List.filterMap_congr fun k hk => ?_
        exact List.getElem?_append_left (List.mem_range.mp (List.mem_of_mem_filter hk))
      rw [List.length_append, List.length_singleton, List.range_succ, List.filter_append,
        List.filterMap_append, hfront]
      by_cases hle : since ≤ l.length
      · rw [List.drop_append_of_le_length hle]
        simp [hle]
      · rw [List.drop_eq_nil_of_le (by omega), List.drop_eq_nil_of_le (by simp; omega)]
        simp [hle]

/-! ## Streams of whole events -/

/-- The stream holds the entries of the events in order, and the events are what is stored. -/
structure Streamed (events : List Pdu) (s : Data) : Prop where
  keyed : Keyed s
  dense : RoomService.Dense s
  len : streamLen s = events.length
  entries : ∀ k q, events[k]? = some q →
    (s .eventStream).get (streamKey k) = some (.text (streamEntry q))
  stored : ∀ q, Stored s q ↔ q ∈ events

theorem streamed_empty : Streamed [] Store.empty where
  keyed := keyed_empty
  dense := dense_empty
  len := rfl
  entries := fun _ _ h => absurd h (by simp)
  stored := fun _ => by simp [Stored, Store.empty]

theorem SameRooms.streamed {t : Data} {events : List Pdu} (h : SameRooms s t)
    (ht : Streamed events t) : Streamed events s where
  keyed := by
    unfold Keyed
    rw [h.events]
    exact ht.keyed
  dense := h.dense ht.dense
  len := by rw [h.streamLen, ht.len]
  entries := by
    rw [h.eventStream]
    exact ht.entries
  stored := by
    unfold Stored
    rw [h.events]
    exact ht.stored

namespace Streamed

variable {events : List Pdu} {q : Pdu}

/-- An append adds its event. -/
theorem append (h : Streamed events s) (hsep : ∀ p ∈ events ++ [q], sep ∉ p.roomId.asStr)
    (hids : IdsDetermine (events ++ [q])) : Streamed (events ++ [q]) (RoomService.append s q) where
  keyed := h.keyed.append q
  dense := h.dense.append q
  len := by rw [streamLen_append h.dense, h.len, List.length_append, List.length_singleton]
  entries := by
    intro k p hk
    rw [append_eventStream]
    by_cases hend : k = events.length
    · subst hend
      rw [List.getElem?_append_right le_rfl, Nat.sub_self] at hk
      obtain rfl := Option.some.inj hk
      rw [h.len]
      exact SortedMap.get_insert_self ..
    · have hlt : k < events.length := by
        have hbound := (List.getElem?_eq_some_iff.mp hk).1
        rw [List.length_append, List.length_singleton] at hbound
        omega
      rw [List.getElem?_append_left hlt] at hk
      rw [SortedMap.get_insert_ne _ fun heq => hend (by rw [← h.len]; exact streamKey_injective heq)]
      exact h.entries k p hk
  stored := by
    intro p
    rw [stored_append_iff, h.stored, List.mem_append, List.mem_singleton]
    constructor
    · rintro (rfl | ⟨hp, -⟩)
      · exact .inr rfl
      · exact .inl hp
    · rintro (hp | rfl)
      · by_cases hpq : p = q
        · exact .inl hpq
        · refine .inr ⟨hp, fun hkey => hpq ?_⟩
          have hp' := List.mem_append_left [q] hp
          have hq' : q ∈ events ++ [q] := List.mem_append_right _ (List.mem_singleton_self q)
          obtain ⟨hroom, hid⟩ := eventId_of_timelineKey_eq (hsep p hp') (hsep q hq') hkey
          exact hids p hp' q hq' hroom hid
      · exact .inl rfl

theorem foldl_append {qs : List Pdu} (h : Streamed events s)
    (hsep : ∀ p ∈ events ++ qs, sep ∉ p.roomId.asStr) (hids : IdsDetermine (events ++ qs)) :
    Streamed (events ++ qs) (qs.foldl RoomService.append s) := by
  induction qs generalizing events s with
  | nil => rwa [List.append_nil]
  | cons q qs ih =>
      have hsplit : events ++ q :: qs = (events ++ [q]) ++ qs := by simp
      rw [hsplit] at hsep hids ⊢
      have hsub : ∀ p ∈ events ++ [q], p ∈ (events ++ [q]) ++ qs :=
        fun p hp => List.mem_append_left qs hp
      exact ih (h.append (fun p hp => hsep p (hsub p hp)) (hids.of_subset hsub)) hsep hids

section

variable (h : Streamed events s) (hsep : ∀ p ∈ events, sep ∉ p.roomId.asStr)
  (hids : IdsDetermine events)

include h hsep hids

/-- A lookup of an event by its room and id returns it. -/
theorem pdu_eq (hp : p ∈ events) : pdu s p.roomId p.eventId = some p := by
  have htimeline : p ∈ timeline s p.roomId :=
    (mem_timeline_iff h.keyed).mpr
      ⟨(h.stored p).mpr hp, (startsWith_timelineKey_iff (hsep p hp) (hsep p hp)).mpr rfl⟩
  obtain ⟨q, hq⟩ := Option.isSome_iff_exists.mp (pdu_isSome_iff.mpr ⟨p, htimeline, rfl⟩)
  obtain ⟨hmem, hid⟩ := mem_timeline_of_pdu hq
  obtain ⟨hstored, hpre⟩ := (mem_timeline_iff h.keyed).mp hmem
  have hqe := (h.stored q).mp hstored
  have hroom := (startsWith_timelineKey_iff (hsep p hp) (hsep q hqe)).mp hpre
  rw [hq, hids q hqe p hp hroom hid]

theorem streamEvent_eq (k : Nat) : streamEvent s k = events[k]? := by
  cases hk : events[k]? with
  | none =>
      have hfree : (s .eventStream).get (streamKey k) = none := by
        rw [← Option.not_isSome_iff_eq_none, h.dense, h.len]
        exact not_lt.mpr (List.getElem?_eq_none_iff.mp hk)
      rw [streamEvent, hfree, Option.bind_none]
  | some p =>
      have hp := List.mem_of_getElem? hk
      rw [streamEvent, h.entries k p hk, Option.bind_some,
        resolveEntry_of_pdu (hsep p hp) (h.pdu_eq hsep hids hp)]

/-- A reader from a position gets the events from there on. -/
theorem eventsSince_eq (hlen : events.length ≤ 10 ^ 20) (since : Nat) :
    eventsSince s since = events.drop since := by
  rw [h.dense.eventsSince_eq (by rw [h.len]; exact hlen), h.len]
  rw [funext (h.streamEvent_eq hsep hids), filterMap_range_getElem?]

/-- A reader from the start gets the events in some order, however long the stream is. -/
theorem eventsSince_perm : (eventsSince s 0).Perm events := by
  have hperm := h.dense.eventsSince_perm 0
  rw [h.len, funext (h.streamEvent_eq hsep hids), filterMap_range_getElem?, List.drop_zero] at hperm
  exact hperm

end

end Streamed

end RoomService

end GaussMatrix.Svc
