import GaussMatrix.StateRes.Agreement
import GaussMatrix.StateRes.Application

/-!
# Where a resolved event comes from

What a resolved state holds: in a slot on which the inputs agree, the event they agree on; in any
other, the event of the last step that wrote the slot.  That step asked the rules about the partial
state without the slot, so what it wrote need not be allowed by the partial state as it stood.
-/

namespace GaussMatrix.StateRes

open Library Util Api Api.Events

variable {verifyB64 : VerifyB64} {h : HashOrder} {states : List StateMap} {pdus : PduMap}
  {m : StateMap}

/-! ## The step that decides a slot -/

/-- The step writes the slot: its event is of the slot and allowed without it. -/
def writesSlot (verifyB64 : VerifyB64) (pdus : PduMap) (key : StateKey) (x : StateMap × EventId) :
    Bool :=
  match pdus.get x.2 with
  | none => false
  | some event =>
      stateSlot event = some key ∧ hiddenVerdict verifyB64 pdus.get x.1 event key = .ok ()

theorem writesSlot_iff {key : StateKey} {x : StateMap × EventId} :
    writesSlot verifyB64 pdus key x = true ↔ ∃ event, pdus.get x.2 = some event ∧
      stateSlot event = some key ∧ hiddenVerdict verifyB64 pdus.get x.1 event key = .ok () := by
  unfold writesSlot
  cases pdus.get x.2 with
  | none => exact iff_of_false nofun (fun ⟨_, h, _⟩ => nomatch h)
  | some event =>
      constructor
      · intro h
        exact ⟨event, rfl, of_decide_eq_true h⟩
      · intro ⟨event', hevent, h⟩
        obtain rfl := Option.some.inj hevent
        exact decide_eq_true h

/-- The events that the steps of a resolution are about, in their order. -/
theorem resolveSteps_eq {power other : List EventId} (hc : (separate states).2.entries ≠ [])
    (hpower : powerOrder h states pdus = some power)
    (hother : otherOrder h states pdus (run (tryApply verifyB64 pdus) (separate states).1 power) =
      some other) : resolveSteps verifyB64 h states pdus =
        trace (tryApply verifyB64 pdus) (separate states).1 (power ++ other) := by
  rw [resolveSteps, powerSteps_eq hc hpower, otherSteps_eq hc hpower hother, trace_append]

theorem tryApply_get_of_writesSlot {key : StateKey} (s : StateMap) (id : EventId)
    (hwrites : writesSlot verifyB64 pdus key (s, id) = true) :
    (tryApply verifyB64 pdus s id).get key = some id := by
  obtain ⟨event, hpdu, hslot, hok⟩ := writesSlot_iff.mp hwrites
  rw [tryApply_accepted hpdu hslot hok, SortedMap.get_insert_self]

theorem tryApply_get_of_not_writesSlot {key : StateKey} (s : StateMap) (id : EventId)
    (hwrites : writesSlot verifyB64 pdus key (s, id) = false) :
    (tryApply verifyB64 pdus s id).get key = s.get key := by
  by_contra hne
  have hwritten : writesSlot verifyB64 pdus key (s, id) = true :=
    writesSlot_iff.mpr (tryApply_get_of_ne hne)
  rw [hwrites] at hwritten
  cases hwritten

/-- A slot of the resolved state: the agreed event, or that of the last step that wrote it. -/
theorem resolve_get (hm : resolve verifyB64 h states pdus = some m) (key : StateKey) :
    m.get key = ((separate states).1.get key).or
      ((lastStep (writesSlot verifyB64 pdus key)
        (resolveSteps verifyB64 h states pdus)).map Prod.snd) := by
  -- without a contested slot there are no steps, and the agreed slots are all
  by_cases hc : (separate states).2.entries = []
  · have hsteps : resolveSteps verifyB64 h states pdus = [] := by
      rw [resolveSteps, powerSteps, otherSteps, if_pos hc, if_pos hc]
      rfl
    have hunconflicted : m = (separate states).1 := by
      simp only [resolve, if_pos hc] at hm
      exact (Option.some.inj hm).symm
    rw [hsteps, hunconflicted]
    exact Option.or_none.symm
  · obtain ⟨power, other, hpower, hother, rfl⟩ := resolve_eq_some hc hm
    have hread : (run (tryApply verifyB64 pdus) (separate states).1 (power ++ other)).get key =
        ((lastStep (writesSlot verifyB64 pdus key) (trace (tryApply verifyB64 pdus)
          (separate states).1 (power ++ other))).map Prod.snd).or ((separate states).1.get key) :=
      @read_run _ _ (tryApply verifyB64 pdus) _ (fun state => state.get key) id
        (writesSlot verifyB64 pdus key) tryApply_get_of_writesSlot tryApply_get_of_not_writesSlot
        (separate states).1 (power ++ other)
    rw [resolveSteps_eq hc hpower hother, overlay, SortedMap.get_insertAll_entries, ← run_append,
      hread]
    cases (separate states).1.get key with
    | some e => rfl
    | none => rw [Option.or_none]

/-- Each event of the full conflicted set is offered to the partial state once, and no other. -/
theorem resolveSteps_ids (hm : resolve verifyB64 h states pdus = some m) :
    ((resolveSteps verifyB64 h states pdus).map Prod.snd).Nodup ∧
      ∀ x ∈ resolveSteps verifyB64 h states pdus, x.2 ∈ fullConflicted h states pdus := by
  by_cases hc : (separate states).2.entries = []
  · rw [resolveSteps, powerSteps, otherSteps, if_pos hc, if_pos hc]
    exact ⟨List.nodup_nil, fun x hx => absurd hx List.not_mem_nil⟩
  obtain ⟨power, other, hpower, hother, -⟩ := resolve_eq_some hc hm
  have hfull : (fullConflicted h states pdus).Nodup := h.nodup_order .full _
  obtain ⟨sorted, hsorted, hpowerPerm⟩ := @reverseTopologicalPowerSort_total pdus
    (separate states).1 _ (hfull.filter (isPowerId pdus))
  have hsame : sorted = power := Option.some.inj (hsorted.symm.trans hpower)
  rw [hsame] at hpowerPerm
  have hotherPerm := perm_of_mainlineSort hother
  have hids : (resolveSteps verifyB64 h states pdus).map Prod.snd = power ++ other := by
    rw [resolveSteps_eq hc hpower hother, map_snd_trace]
  constructor
  · rw [hids]
    apply List.Nodup.append (hpowerPerm.nodup_iff.mpr (hfull.filter _))
      (hotherPerm.nodup_iff.mpr (hfull.filter _))
    -- the two passes share no event: one takes the power events, the other the rest
    intro e hpowerMem hotherMem
    have hpowerId := (List.mem_filter.mp (hpowerPerm.mem_iff.mp hpowerMem)).2
    have hotherId := (List.mem_filter.mp (hotherPerm.mem_iff.mp hotherMem)).2
    rw [hpowerId] at hotherId
    simp at hotherId
  · intro x hx
    have hid : x.2 ∈ power ++ other := by
      rw [← hids]
      exact List.mem_map.mpr ⟨x, hx, rfl⟩
    rcases List.mem_append.mp hid with hid | hid
    · exact List.mem_of_mem_filter (hpowerPerm.mem_iff.mp hid)
    · exact List.mem_of_mem_filter (hotherPerm.mem_iff.mp hid)

/-! ## Provenance -/

/-- Every input has the event in the slot. -/
def Agreed (states : List StateMap) (key : StateKey) (e : EventId) : Prop :=
  states ≠ [] ∧ ∀ s ∈ states, s.get key = some e

/-- The event is a candidate of a conflicted slot, or lies in the auth chain of some but not all
inputs. -/
def Contested (states : List StateMap) (pdus : PduMap) (e : EventId) : Prop :=
  (∃ key, (∀ e', ¬ Agreed states key e') ∧ ∃ s ∈ states, s.get key = some e) ∨
    (∃ s ∈ states, e ∈ authChain s.values pdus) ∧ ¬ ∀ s ∈ states, e ∈ authChain s.values pdus

theorem separate_eq_none_iff {key : StateKey} :
    (separate states).1.get key = none ↔ ∀ e, ¬ Agreed states key e := by
  rw [Option.eq_none_iff_forall_ne_some]
  apply forall_congr'
  intro e
  rw [ne_eq, separate_fst_eq_some_iff, Agreed]

theorem mem_fullConflicted_iff {e : EventId} :
    e ∈ fullConflicted h states pdus ↔ Contested states pdus e := by
  rw [fullConflicted, h.mem_order, List.mem_append, mem_candidates_iff, mem_authDifference]
  simp only [separate_eq_none_iff]
  rfl

/-- What the resolved state holds: agreed slots as they were, and in any other slot a contested
event of that slot, applied at a step at which `allowed` held of the partial state. -/
def InventsNothing (verifyB64 : VerifyB64) (h : HashOrder) (states : List StateMap) (pdus : PduMap)
    (allowed : StateMap → Pdu → StateKey → Prop) (m : StateMap) : Prop :=
  (∀ key e, Agreed states key e → m.get key = some e) ∧
    ∀ key e, m.get key = some e → (∀ e', ¬ Agreed states key e') →
      Contested states pdus e ∧ ∃ event, pdus.get e = some event ∧ stateSlot event = some key ∧
        ∃ s, (s, e) ∈ resolveSteps verifyB64 h states pdus ∧
          (tryApply verifyB64 pdus s e).get key = some e ∧ allowed s event key

/-- The event of a slot on which the inputs do not agree, and the step that wrote it. -/
theorem lastStep_of_get (hm : resolve verifyB64 h states pdus = some m) {key : StateKey}
    (hopen : ∀ e, ¬ Agreed states key e) : m.get key =
      (lastStep (writesSlot verifyB64 pdus key) (resolveSteps verifyB64 h states pdus)).map
        Prod.snd := by
  rw [resolve_get hm, separate_eq_none_iff.mpr hopen]
  rfl

/-- What the deciding steps have, the slots they decide have, and the other way round. -/
theorem inventsNothing_iff (hm : resolve verifyB64 h states pdus = some m)
    (allowed : StateMap → Pdu → StateKey → Prop) :
    InventsNothing verifyB64 h states pdus allowed m ↔
      ∀ key, (∀ e, ¬ Agreed states key e) →
        ∀ x ∈ lastStep (writesSlot verifyB64 pdus key) (resolveSteps verifyB64 h states pdus),
          ∀ event, pdus.get x.2 = some event → allowed x.1 event key := by
  obtain ⟨hnodup, hsub⟩ := resolveSteps_ids hm
  constructor
  · intro ⟨_, hslots⟩ key hopen x hx event hpdu
    have hget : m.get key = some x.2 := by
      rw [lastStep_of_get hm hopen, hx]
      rfl
    obtain ⟨-, event', hpdu', -, s, hs, -, hallowed⟩ := hslots key x.2 hget hopen
    -- the event is offered once, so the step is the one that was found
    have hsame : (s, x.2) = x :=
      List.inj_on_of_nodup_map hnodup hs (mem_of_lastStep hx).1 rfl
    have hevent : event' = event := Option.some.inj (hpdu'.symm.trans hpdu)
    rw [← hsame, ← hevent]
    exact hallowed
  · intro hlast
    constructor
    · intro key e hagreed
      rw [resolve_get hm, separate_fst_eq_some_iff.mpr hagreed]
      rfl
    · intro key e hget hopen
      rw [lastStep_of_get hm hopen] at hget
      obtain ⟨⟨s, id⟩, hx, hid⟩ := Option.map_eq_some_iff.mp hget
      have hid : id = e := hid
      rw [hid] at hx
      obtain ⟨hstep, hwrites⟩ := mem_of_lastStep hx
      obtain ⟨event, hpdu, hslot, -⟩ := writesSlot_iff.mp hwrites
      apply And.intro (mem_fullConflicted_iff.mp (hsub (s, e) hstep))
      exact ⟨event, hpdu, hslot, s, hstep, tryApply_get_of_writesSlot s e hwrites,
        hlast key hopen (s, e) hx event hpdu⟩

/-- The events that decide the slots on which the inputs do not agree are allowed by the whole partial
state they were applied to. -/
def DecidersAllowed (verifyB64 : VerifyB64) (h : HashOrder) (states : List StateMap)
    (pdus : PduMap) (forbids : StateMap → Pdu → StateKey → Prop) : Prop :=
  ∀ key, (∀ e, ¬ Agreed states key e) →
    ∀ x ∈ lastStep (writesSlot verifyB64 pdus key) (resolveSteps verifyB64 h states pdus),
      ∀ event, pdus.get x.2 = some event → ¬ forbids x.1 event key

/-- A resolution keeps the agreed slots and fills the others with contested events of their own that
were allowed without their slot.  They were allowed by the partial state as it stood exactly when no
step that decides such a slot applies an event that only the hiding of its slot admits; over inputs
whose events sit in their own slots, exactly when the slot held nothing that forbids the event. -/
theorem resolution_invents_nothing_iff (verifyB64 : VerifyB64) (h : HashOrder)
    (states : List StateMap) (pdus : PduMap) {m : StateMap}
    (hm : resolve verifyB64 h states pdus = some m) :
    InventsNothing verifyB64 h states pdus
        (fun s event key => hiddenVerdict verifyB64 pdus.get s event key = .ok ()) m ∧
      (InventsNothing verifyB64 h states pdus
          (fun s event _ => fullVerdict verifyB64 pdus.get s event = .ok ()) m ↔
        DecidersAllowed verifyB64 h states pdus
          (fun s event _ => fullVerdict verifyB64 pdus.get s event ≠ .ok ())) ∧
      ((∀ s ∈ states, WellSlotted pdus.get s) →
        (InventsNothing verifyB64 h states pdus
            (fun s event _ => fullVerdict verifyB64 pdus.get s event = .ok ()) m ↔
          DecidersAllowed verifyB64 h states pdus (OwnSlotForbids pdus.get))) := by
  have hgeneral : InventsNothing verifyB64 h states pdus
      (fun s event _ => fullVerdict verifyB64 pdus.get s event = .ok ()) m ↔
        DecidersAllowed verifyB64 h states pdus
          (fun s event _ => fullVerdict verifyB64 pdus.get s event ≠ .ok ()) := by
    rw [inventsNothing_iff hm]
    simp only [DecidersAllowed, ne_eq, not_not]
  refine ⟨?_, hgeneral, fun hw => ?_⟩
  · rw [inventsNothing_iff hm]
    intro key _ x hx event hpdu
    obtain ⟨event', hpdu', -, hok⟩ := writesSlot_iff.mp (mem_of_lastStep hx).2
    rw [Option.some.inj (hpdu.symm.trans hpdu')]
    exact hok
  · rw [hgeneral]
    apply forall₂_congr
    intro key _
    apply forall₂_congr
    intro x hx
    obtain ⟨hstep, hwrites⟩ := mem_of_lastStep hx
    obtain ⟨event', hpdu', hslot, hok⟩ := writesSlot_iff.mp hwrites
    -- the step was taken without the slot, so only the event there can have forbidden it
    have hwx := wellSlotted_resolveSteps hw x hstep
    apply forall₂_congr
    intro event hpdu
    have hevent : event' = event := Option.some.inj (hpdu'.symm.trans hpdu)
    rw [hevent] at hslot hok
    exact not_congr (fullVerdict_ne_ok_iff hwx hslot hok)

open Sample

/-- The invite-or-join states keep what they agree on and invent nothing. -/
theorem resolution_invents_nothing_sample : ∃ m,
    resolve noSignature .inserted inviteOrJoin events = some m ∧
      InventsNothing noSignature .inserted inviteOrJoin events
        (fun s event key => hiddenVerdict noSignature events.get s event key = .ok ()) m := by
  obtain ⟨m, hm⟩ : ∃ m, resolve noSignature .inserted inviteOrJoin events = some m :=
    Option.isSome_iff_exists.mp (by decide +kernel)
  exact ⟨m, hm, (resolution_invents_nothing_iff noSignature .inserted inviteOrJoin events hm).1⟩

/-- The banned user's join is applied, though the partial state bans him. -/
theorem resolution_applies_join_of_banned : ∃ m,
    resolve noSignature .inserted banOrJoin events = some m ∧
      ¬ InventsNothing noSignature .inserted banOrJoin events
        (fun s event _ => fullVerdict noSignature events.get s event = .ok ()) m := by
  obtain ⟨m, hm⟩ : ∃ m, resolve noSignature .inserted banOrJoin events = some m :=
    Option.isSome_iff_exists.mp (by decide +kernel)
  refine ⟨m, hm, fun hall => ?_⟩
  have hjoined : (resolve noSignature .inserted banOrJoin events).bind
      (·.get (slot roomMember "@b:x")) = some bobJoin.eventId := by decide +kernel
  have hopen : (separate banOrJoin).1.get (slot roomMember "@b:x") = none := by decide +kernel
  have hrefused : ∀ x ∈ resolveSteps noSignature .inserted banOrJoin events,
      x.2 = bobJoin.eventId → fullVerdict noSignature events.get x.1 bobJoin ≠ .ok () := by
    decide +kernel
  have hpdu : events.get bobJoin.eventId = some bobJoin := by decide +kernel
  rw [hm] at hjoined
  obtain ⟨-, event, hevent, -, s, hs, -, hok⟩ :=
    hall.2 (slot roomMember "@b:x") bobJoin.eventId hjoined (separate_eq_none_iff.mp hopen)
  rw [Option.some.inj (hevent.symm.trans hpdu)] at hok
  exact hrefused _ hs rfl hok

end GaussMatrix.StateRes
