import GaussMatrix.Library.Interleave
import GaussMatrix.Svc.Rooms

/-!
# One-time keys

A claim scans for the first key of the device and algorithm and then deletes it; nothing keeps another
claim from scanning in between.  So a key is handed out twice exactly when that happens.
-/

namespace GaussMatrix.Svc

open Library Util

/-- The prefix of the stored one-time keys of a device. -/
def otkPrefix (user : UserId) (deviceId : Str) : Str := user.asStr ++ sep :: (deviceId ++ [sep])

/-- The algorithm of a key id: what stands before its first colon. -/
def algorithmOf (keyId : Str) : Str :=
  match splitOnce ':' keyId with
  | some (alg, _) => alg
  | none => keyId

/-- The remaining one-time keys of a device, counted by algorithm. -/
def oneTimeKeyCounts (s : Data) (user : UserId) (deviceId : Str) : List (Str × UInt32) :=
  ((s.scan .deviceOtk).foldl
    (fun counts e =>
      match stripPrefix (otkPrefix user deviceId) e.1 with
      | none => counts
      | some keyId =>
          let alg := algorithmOf keyId
          counts.insert alg ((counts.get alg).getD 0 + 1))
    SortedMap.empty).entries

/-- Store one one-time key. -/
def storeOneTimeKey (s : Data) (user : UserId) (deviceId : Str) (key : Str × Str) : Data :=
  s.put .deviceOtk (otkPrefix user deviceId ++ key.1) (.text key.2)

/-- Store one-time keys: the counts and the data after. -/
def storeOneTimeKeys (s : Data) (user : UserId) (deviceId : Str) (keys : List (Str × Str)) :
    List (Str × UInt32) × Data :=
  let s := keys.foldl (fun s key => storeOneTimeKey s user deviceId key) s
  (oneTimeKeyCounts s user deviceId, s)

/-- The first stored key of the device and algorithm. -/
def pickOneTimeKey (s : Data) (user : UserId) (deviceId algorithm : Str) : Option (Str × Record) :=
  (s.scan .deviceOtk).find? fun e =>
    startsWith (otkPrefix user deviceId ++ (algorithm ++ [':'])) e.1

/-- The key id and the key of a picked entry. -/
def claimed (user : UserId) (deviceId : Str) (e : Str × Record) : Option (Str × Str) := do
  let keyId ← stripPrefix (otkPrefix user deviceId) e.1
  let json ← e.2.asText
  return (keyId, json)

/-- Claim a one-time key: the key id and the key, and the data without it. -/
def claimOneTimeKey (s : Data) (user : UserId) (deviceId algorithm : Str) :
    Option (Str × Str) × Data :=
  match pickOneTimeKey s user deviceId algorithm with
  | none => (none, s)
  | some e =>
      match claimed user deviceId e with
      | none => (none, s)
      | some key => (some key, s.delete .deviceOtk e.1)

/-! ## Calls in atomic steps -/

/-- A call on the one-time keys of a device. -/
inductive OtkCall
  | store (user : UserId) (deviceId : Str) (keys : List (Str × Str))
  | claim (user : UserId) (deviceId algorithm : Str)

/-- Where a call stands: the keys still to store, a claim's scan, the entry it is about to delete, and
the results. -/
inductive OtkPhase
  | storing (keys : List (Str × Str))
  | stored (counts : List (Str × UInt32))
  | scanning
  | picked (fullKey : Str) (key : Str × Str)
  | returned (result : Option (Str × Str))
  deriving DecidableEq

/-- One store operation of a call. -/
def otkStep (call : OtkCall) (s : Data) (phase : OtkPhase) : Data × OtkPhase :=
  match phase, call with
  | .storing (key :: keys), .store user deviceId _ =>
      (storeOneTimeKey s user deviceId key, .storing keys)
  | .storing [], .store user deviceId _ => (s, .stored (oneTimeKeyCounts s user deviceId))
  | .scanning, .claim user deviceId algorithm =>
      match pickOneTimeKey s user deviceId algorithm with
      | none => (s, .returned none)
      | some e =>
          match claimed user deviceId e with
          | none => (s, .returned none)
          | some key => (s, .picked e.1 key)
  | .picked fullKey key, .claim _ _ _ => (s.delete .deviceOtk fullKey, .returned (some key))
  | phase, _ => (s, phase)

/-- A call before its first step. -/
def OtkCall.start : OtkCall → OtkPhase
  | store _ _ keys => .storing keys
  | claim _ _ _ => .scanning

/-- A claim on its own is its scan and its delete. -/
theorem otkStep_claim (s : Data) (user : UserId) (deviceId algorithm : Str) :
    let call := OtkCall.claim user deviceId algorithm
    let scan := otkStep call s call.start
    let result := claimOneTimeKey s user deviceId algorithm
    otkStep call scan.1 scan.2 = (result.2, .returned result.1) := by
  simp only [OtkCall.start, otkStep, claimOneTimeKey]
  cases pickOneTimeKey s user deviceId algorithm with
  | none => rfl
  | some e =>
      cases hkey : claimed user deviceId e with
      | none => simp [hkey]
      | some key => simp [hkey]

/-- The stored key that a call hands out under a key id. -/
def OtkCall.fullKey : OtkCall → Str → Option Str
  | store _ _ _, _ => none
  | claim user deviceId _, keyId => some (otkPrefix user deviceId ++ keyId)

theorem otkStep_picked {call : OtkCall} {s : Data} {phase : OtkPhase} {fullKey : Str}
    {key : Str × Str} (h : (otkStep call s phase).2 = .picked fullKey key) :
    phase = .picked fullKey key ∨ phase = .scanning ∧ call.fullKey key.1 = some fullKey := by
  unfold otkStep at h
  split at h
  · exact nomatch h
  · exact nomatch h
  · rename_i user deviceId algorithm
    split at h
    · exact nomatch h
    · rename_i e hpick
      split at h
      · exact nomatch h
      · rename_i key' hkey
        obtain ⟨rfl, rfl⟩ := OtkPhase.picked.inj h
        simp only [claimed, bind, Option.bind_eq_some_iff, pure, Option.some.injEq] at hkey
        obtain ⟨keyId, hprefix, json, -, rfl⟩ := hkey
        refine .inr ⟨rfl, ?_⟩
        rw [OtkCall.fullKey, stripPrefix_eq_some_iff.mp hprefix]
  · exact nomatch h
  · exact .inl h

theorem otkStep_returned {call : OtkCall} {s : Data} {phase : OtkPhase} {key : Str × Str}
    (h : (otkStep call s phase).2 = .returned (some key)) :
    phase = .returned (some key) ∨ ∃ fullKey, phase = .picked fullKey key := by
  unfold otkStep at h
  split at h
  · exact nomatch h
  · exact nomatch h
  · split at h
    · exact nomatch h
    · split at h
      · exact nomatch h
      · exact nomatch h
  · rename_i fullKey key' user deviceId algorithm
    obtain rfl := Option.some.inj (OtkPhase.returned.inj h)
    exact .inr ⟨fullKey, rfl⟩
  · exact .inl h

section

variable {ι : Type} [DecidableEq ι] {calls : ι → OtkCall}

/-- One step of one of the calls. -/
def otkCallsStep (calls : ι → OtkCall) : Threads ι Data OtkPhase → ι → Threads ι Data OtkPhase :=
  Threads.step fun i => otkStep (calls i)

theorem otkCallsStep_shared {c : Threads ι Data OtkPhase} {i : ι} :
    (otkCallsStep calls c i).shared = (otkStep (calls i) c.shared (c.phase i)).1 := rfl

theorem otkCallsStep_phase_self {c : Threads ι Data OtkPhase} {i : ι} :
    (otkCallsStep calls c i).phase i = (otkStep (calls i) c.shared (c.phase i)).2 :=
  Threads.step_phase_self

theorem otkCallsStep_phase_of_ne {c : Threads ι Data OtkPhase} {i j : ι} (h : j ≠ i) :
    (otkCallsStep calls c i).phase j = c.phase j :=
  Threads.step_phase_of_ne h

/-- The calls before their first steps. -/
def otkCallsStart (calls : ι → OtkCall) (s : Data) : Threads ι Data OtkPhase :=
  ⟨s, fun i => (calls i).start⟩

/-- The step is a scan that picks this stored key. -/
def Picks (calls : ι → OtkCall) (x : Threads ι Data OtkPhase × ι) (fullKey : Str) : Prop :=
  match x.1.phase x.2, (otkStep (calls x.2) x.1.shared (x.1.phase x.2)).2 with
  | .scanning, .picked picked _ => picked = fullKey
  | _, _ => False

/-- The step deletes this stored key. -/
def Deletes (calls : ι → OtkCall) (x : Threads ι Data OtkPhase × ι) (fullKey : Str) : Prop :=
  match x.1.phase x.2, calls x.2 with
  | .picked picked _, .claim _ _ _ => picked = fullKey
  | _, _ => False

/-- The step stores this key. -/
def Uploads (calls : ι → OtkCall) (x : Threads ι Data OtkPhase × ι) (fullKey : Str) : Prop :=
  match x.1.phase x.2, calls x.2 with
  | .storing (key :: _), .store user deviceId _ => otkPrefix user deviceId ++ key.1 = fullKey
  | _, _ => False

/-- Both calls returned this stored key. -/
def BothReturn (calls : ι → OtkCall) (c : Threads ι Data OtkPhase) (i j : ι) (fullKey : Str) : Prop :=
  i ≠ j ∧ ∃ key key', c.phase i = .returned (some key) ∧ c.phase j = .returned (some key') ∧
    (calls i).fullKey key.1 = some fullKey ∧ (calls j).fullKey key'.1 = some fullKey

/-- Between the scans in which the two calls pick the stored key comes a step of this kind. -/
def Between (calls : ι → OtkCall) (steps : List (Threads ι Data OtkPhase × ι)) (i j : ι)
    (fullKey : Str) (kind : Threads ι Data OtkPhase × ι → Prop) : Prop :=
  ∃ x y z, x.2 = i ∧ y.2 = j ∧ Picks calls x fullKey ∧ Picks calls y fullKey ∧ kind z ∧
    ([x, z, y].Sublist steps ∨ [y, z, x].Sublist steps)

/-- The key is stored. -/
def HasKey (fullKey : Str) (c : Threads ι Data OtkPhase) : Prop :=
  (c.shared.get .deviceOtk fullKey).isSome = true

variable {x : Threads ι Data OtkPhase × ι} {fullKey : Str}

theorem pickOneTimeKey_stored {s : Data} {user : UserId} {deviceId algorithm : Str}
    {e : Str × Record} (h : pickOneTimeKey s user deviceId algorithm = some e) :
    (s.get .deviceOtk e.1).isSome = true := by
  have hmem : (e.1, e.2) ∈ (s .deviceOtk).entries := List.mem_of_find?_eq_some h
  rw [SortedMap.mem_entries_iff] at hmem
  rw [Store.get, hmem]
  rfl

omit [DecidableEq ι] in
/-- A scan picks a key that is stored. -/
theorem Picks.hasKey (h : Picks calls x fullKey) : HasKey fullKey x.1 := by
  unfold Picks at h
  split at h
  · rename_i picked key hphase hnext
    subst h
    rw [hphase] at hnext
    unfold otkStep at hnext
    split at hnext
    · rename_i heq _
      exact nomatch heq
    · rename_i heq _
      exact nomatch heq
    · split at hnext
      · exact nomatch hnext
      · rename_i e hpick
        split at hnext
        · exact nomatch hnext
        · obtain ⟨rfl, -⟩ := OtkPhase.picked.inj hnext
          exact pickOneTimeKey_stored hpick
    · rename_i heq _
      exact nomatch heq
    · exact nomatch hnext
  · exact h.elim

/-- After its deletion a key is not stored. -/
theorem Deletes.not_hasKey (h : Deletes calls x fullKey) :
    ¬ HasKey fullKey (otkCallsStep calls x.1 x.2) := by
  unfold Deletes at h
  split at h
  · rename_i picked key user deviceId algorithm hphase hcall
    subst h
    have hnone : (x.1.shared.delete .deviceOtk picked).get .deviceOtk picked = none := by
      rw [Store.get_delete, if_pos rfl]
    rw [HasKey, otkCallsStep_shared, hphase, hcall, otkStep, hnone]
    simp
  · exact h.elim

/-- A step after which a key is stored that was not has stored it. -/
theorem uploads_of_change (hbefore : ¬ HasKey fullKey x.1)
    (hafter : HasKey fullKey (otkCallsStep calls x.1 x.2)) : Uploads calls x fullKey := by
  rw [HasKey, otkCallsStep_shared] at hafter
  unfold HasKey at hbefore
  unfold Uploads
  unfold otkStep at hafter
  split at hafter
  · rename_i key keys user deviceId all hphase hcall
    rw [hphase, hcall]
    rw [storeOneTimeKey, Store.get_put] at hafter
    split at hafter
    · rename_i heq
      exact heq.symm
    · exact absurd hafter hbefore
  · exact absurd hafter hbefore
  · split at hafter
    · exact absurd hafter hbefore
    · split at hafter
      · exact absurd hafter hbefore
      · exact absurd hafter hbefore
  · rename_i picked key user deviceId algorithm hphase hcall
    rw [Store.get_delete] at hafter
    split at hafter
    · exact absurd hafter (by simp)
    · exact absurd hafter hbefore
  · exact absurd hafter hbefore

/-- A claim past its scan has picked the key that it deletes and returns. -/
theorem exists_picks (calls : ι → OtkCall) (s : Data) (schedule : List ι) (i : ι)
    {fullKey : Str} {key : Str × Str}
    (h : (run (otkCallsStep calls) (otkCallsStart calls s) schedule).phase i = .picked fullKey key) :
    (calls i).fullKey key.1 = some fullKey ∧
      ∃ x ∈ trace (otkCallsStep calls) (otkCallsStart calls s) schedule,
        x.2 = i ∧ Picks calls x fullKey := by
  induction schedule using List.reverseRecOn with
  | nil =>
      have hstart : (calls i).start = .picked fullKey key := h
      cases hcall : calls i with
      | store user deviceId keys => simp [hcall, OtkCall.start] at hstart
      | claim user deviceId algorithm => simp [hcall, OtkCall.start] at hstart
  | append_singleton schedule j ih =>
      rw [run_append, run_cons, run_nil] at h
      rw [trace_append]
      by_cases hj : i = j
      · subst hj
        rw [otkCallsStep_phase_self] at h
        rcases otkStep_picked h with hbefore | ⟨hscan, hfull⟩
        · obtain ⟨hfull, x, hx, hpicks⟩ := ih hbefore
          exact ⟨hfull, x, List.mem_append_left _ hx, hpicks⟩
        · refine ⟨hfull, _, List.mem_append_right _ (List.mem_singleton.mpr rfl), rfl, ?_⟩
          simp only [Picks]
          rw [h, hscan]
      · rw [otkCallsStep_phase_of_ne hj] at h
        obtain ⟨hfull, x, hx, hpicks⟩ := ih h
        exact ⟨hfull, x, List.mem_append_left _ hx, hpicks⟩

/-- A key that a claim returned was picked by its scan. -/
theorem exists_picks_of_returned (calls : ι → OtkCall) (s : Data) (schedule : List ι) (i : ι)
    {key : Str × Str}
    (h : (run (otkCallsStep calls) (otkCallsStart calls s) schedule).phase i =
      .returned (some key)) :
    ∃ fullKey, (calls i).fullKey key.1 = some fullKey ∧
      ∃ x ∈ trace (otkCallsStep calls) (otkCallsStart calls s) schedule,
        x.2 = i ∧ Picks calls x fullKey := by
  induction schedule using List.reverseRecOn with
  | nil =>
      have hstart : (calls i).start = .returned (some key) := h
      cases hcall : calls i with
      | store user deviceId keys => simp [hcall, OtkCall.start] at hstart
      | claim user deviceId algorithm => simp [hcall, OtkCall.start] at hstart
  | append_singleton schedule j ih =>
      rw [run_append, run_cons, run_nil] at h
      have hbefore : ∃ fullKey, (calls i).fullKey key.1 = some fullKey ∧
          ∃ x ∈ trace (otkCallsStep calls) (otkCallsStart calls s) schedule,
            x.2 = i ∧ Picks calls x fullKey := by
        by_cases hj : i = j
        · subst hj
          rw [otkCallsStep_phase_self] at h
          rcases otkStep_returned h with hbefore | ⟨fullKey, hpicked⟩
          · exact ih hbefore
          · exact ⟨fullKey, exists_picks calls s schedule i hpicked⟩
        · rw [otkCallsStep_phase_of_ne hj] at h
          exact ih h
      obtain ⟨fullKey, hfull, x, hx, hpicks⟩ := hbefore
      rw [trace_append]
      exact ⟨fullKey, hfull, x, List.mem_append_left _ hx, hpicks⟩

end

namespace SampleClaims

def alice : UserId := ⟨"@a:x", valid_alice⟩

/-- Two claims of the same kind of key of the same device. -/
def calls : Bool → OtkCall := fun _ => .claim alice "D" "alg"

/-- A store with one such key. -/
def oneKey : Data := storeOneTimeKey Store.empty alice "D" ("alg:1", "{}")

end SampleClaims

end GaussMatrix.Svc
