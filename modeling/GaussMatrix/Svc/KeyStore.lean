import GaussMatrix.Svc.FederationSend
import GaussMatrix.Svc.OneTimeKeys

/-!
# The store of end-to-end keys

Users, devices and key ids are joined with a separator into the keys of one flat store, and read back
by prefix.  What a run of uploads and claims leaves is compared with what was uploaded.
-/

namespace GaussMatrix.Svc

open Library Util RoomService

namespace DeviceKeyStore

/-! ## Calls -/

/-- A call on the keys of a device. -/
inductive Call
  | storeDeviceKeys (user : UserId) (deviceId keys : Str)
  | storeOneTimeKeys (user : UserId) (deviceId : Str) (keys : List (Str × Str))
  | claimOneTimeKey (user : UserId) (deviceId algorithm : Str)

def callStep (s : Data) : Call → Data
  | .storeDeviceKeys user deviceId keys => storeDeviceKeys s user deviceId keys
  | .storeOneTimeKeys user deviceId keys => (storeOneTimeKeys s user deviceId keys).2
  | .claimOneTimeKey user deviceId algorithm => (claimOneTimeKey s user deviceId algorithm).2

/-- The data after a run of calls from an empty store. -/
def keysAfter (calls : List Call) : Data := run callStep Store.empty calls

/-- The count reported for an algorithm; one that is not reported counts none. -/
def reportedCount (s : Data) (user : UserId) (deviceId algorithm : Str) : UInt32 :=
  ((oneTimeKeyCounts s user deviceId).lookup algorithm).getD 0

/-- The data after so many claims in a row. -/
def afterClaims (user : UserId) (deviceId algorithm : Str) (s : Data) (n : Nat) : Data :=
  run callStep s (List.replicate n (.claimOneTimeKey user deviceId algorithm))

/-! ## What was uploaded -/

/-- The device keys that the last of the calls for the device stored. -/
def lastDeviceKeys (calls : List Call) (user : UserId) (deviceId : Str) : Option Str :=
  calls.reverse.findSome? fun
    | .storeDeviceKeys user' deviceId' keys =>
        if user' = user ∧ deviceId' = deviceId then some keys else none
    | _ => none

/-- One of the calls stored the one-time key for the device. -/
def Uploaded (calls : List Call) (user : UserId) (deviceId : Str) (key : Str × Str) : Prop :=
  ∃ keys, .storeOneTimeKeys user deviceId keys ∈ calls ∧ key ∈ keys

/-- How many one-time keys the calls upload. -/
def uploads (calls : List Call) : Nat :=
  (calls.map fun
    | .storeOneTimeKeys _ _ keys => keys.length
    | _ => 0).sum

/-- The data differ in this one-time key only, which the second does not have. -/
def RemovesKey (s t : Data) (user : UserId) (deviceId keyId : Str) : Prop :=
  (∀ cf, cf ≠ .deviceOtk → t cf = s cf) ∧
    ∀ (user' : UserId) (deviceId' keyId' : Str),
      t.get .deviceOtk (otkPrefix user' deviceId' ++ keyId') =
        if user' = user ∧ deviceId' = deviceId ∧ keyId' = keyId then none
        else s.get .deviceOtk (otkPrefix user' deviceId' ++ keyId')

/-- The keys in the data are those that the calls uploaded and did not claim since, as far as reads,
claims and counts show. -/
structure FaithfulKeys (calls : List Call) (s : Data) : Prop where
  devices : ∀ user, ((deviceKeysOf s user).map Prod.fst).Nodup ∧
    ∀ deviceId keys, (deviceId, keys) ∈ deviceKeysOf s user ↔
      lastDeviceKeys calls user deviceId = some keys
  claims : ∀ user deviceId algorithm key,
    (claimOneTimeKey s user deviceId algorithm).1 = some key →
      Uploaded calls user deviceId key ∧ startsWith (algorithm ++ [':']) key.1 = true ∧
        RemovesKey s (claimOneTimeKey s user deviceId algorithm).2 user deviceId key.1
  counts : ∀ user deviceId algorithm n,
    (claimOneTimeKey (afterClaims user deviceId algorithm s n) user deviceId algorithm).1.isSome ↔
      n < (reportedCount s user deviceId algorithm).toNat

/-! ## Names that can be read in one way -/

/-- No other user and device give the key string of the device. -/
def SoleDevice (user : UserId) (deviceId : Str) : Prop :=
  ∀ (user' : UserId) (deviceId' : Str),
    user'.asStr ++ sep :: deviceId' = user.asStr ++ sep :: deviceId → user' = user

/-- No other user, device and key id give the key string of the one-time key. -/
def SoleKey (user : UserId) (deviceId keyId : Str) : Prop :=
  ∀ (user' : UserId) (deviceId' keyId' : Str),
    otkPrefix user' deviceId' ++ keyId' = otkPrefix user deviceId ++ keyId →
      user' = user ∧ deviceId' = deviceId

/-- What a call stores can be read in one way, and the id of a one-time key is an algorithm, a colon and
a rest. -/
def WellNamedKeys : Call → Prop
  | .storeDeviceKeys user deviceId _ => SoleDevice user deviceId
  | .storeOneTimeKeys user deviceId keys =>
      ∀ key ∈ keys, SoleKey user deviceId key.1 ∧ key.1.count ':' = 1
  | .claimOneTimeKey _ _ _ => True

section

variable {s : Data} {user : UserId} {deviceId algorithm keyId : Str} {calls : List Call}

/-- Names without the separator can be read in one way. -/
theorem soleDevice_of_plain (huser : sep ∉ user.asStr) (hdevice : sep ∉ deviceId) :
    SoleDevice user deviceId := by
  intro user' deviceId' h
  have hcount := congrArg (List.count sep) h
  simp only [List.count_append, List.count_cons_self, List.count_eq_zero.mpr huser,
    List.count_eq_zero.mpr hdevice] at hcount
  have huser' : sep ∉ user'.asStr := List.count_eq_zero.mp (by omega)
  exact UserId.ext (append_sep_inj huser' huser h).1

theorem soleKey_of_plain (huser : sep ∉ user.asStr) (hdevice : sep ∉ deviceId) (hkey : sep ∉ keyId) :
    SoleKey user deviceId keyId := by
  intro user' deviceId' keyId' h
  have hcount := congrArg (List.count sep) h
  simp only [otkPrefix, List.count_append, List.count_cons_self, List.count_eq_zero.mpr huser,
    List.count_eq_zero.mpr hdevice, List.count_eq_zero.mpr hkey] at hcount
  have huser' : sep ∉ user'.asStr := List.count_eq_zero.mp (by omega)
  have hdevice' : sep ∉ deviceId' := List.count_eq_zero.mp (by omega)
  simp only [otkPrefix, List.append_assoc, List.cons_append] at h
  obtain ⟨hname, hrest⟩ := append_sep_inj huser' huser h
  exact ⟨UserId.ext hname, (append_sep_inj hdevice' hdevice hrest).1⟩

/-! ## Claims and counts -/

/-- The stored one-time keys that a claim may take. -/
def claimable (s : Data) (user : UserId) (deviceId algorithm : Str) : SortedMap Str Record :=
  (s .deviceOtk).filter fun key _ => startsWith (otkPrefix user deviceId ++ (algorithm ++ [':'])) key

/-- Every one-time key is stored as a text. -/
def TextKeys (s : Data) : Prop := ∀ key value, s.get .deviceOtk key = some value → ∃ json, value = .text json

/-- What a claim does: nothing where no key is claimable, else it takes a claimable one. -/
theorem claimOneTimeKey_cases (h : TextKeys s) (user : UserId) (deviceId algorithm : Str) :
    ((claimable s user deviceId algorithm).size = 0 ∧
      claimOneTimeKey s user deviceId algorithm = (none, s)) ∨
    ∃ keyId json, s.get .deviceOtk (otkPrefix user deviceId ++ keyId) = some (.text json) ∧
      startsWith (algorithm ++ [':']) keyId = true ∧
      claimOneTimeKey s user deviceId algorithm =
        (some (keyId, json), s.delete .deviceOtk (otkPrefix user deviceId ++ keyId)) := by
  unfold claimOneTimeKey
  cases hpick : pickOneTimeKey s user deviceId algorithm with
  | none =>
      apply Or.inl
      have hnone : (claimable s user deviceId algorithm).entries = [] := by
        rw [claimable, SortedMap.filter, List.filter_eq_nil_iff]
        exact List.find?_eq_none.mp hpick
      exact ⟨by rw [SortedMap.size, hnone]; rfl, rfl⟩
  | some e =>
      apply Or.inr
      obtain ⟨key, value⟩ := e
      have hget : s.get .deviceOtk key = some value :=
        ((s .deviceOtk).mem_entries_iff _ _).mp (List.mem_of_find?_eq_some hpick)
      have hstarts : startsWith (otkPrefix user deviceId ++ (algorithm ++ [':'])) key = true :=
            by
        unfold pickOneTimeKey at hpick
        have hfound := List.find?_some hpick
        exact hfound
      obtain ⟨rest, rfl⟩ := startsWith_iff.mp hstarts
      obtain ⟨json, rfl⟩ := h _ _ hget
      rw [List.append_assoc] at hget
      refine ⟨algorithm ++ [':'] ++ rest, json, hget, startsWith_iff.mpr ⟨rest, rfl⟩, ?_⟩
      have hclaimed : claimed user deviceId
          (otkPrefix user deviceId ++ (algorithm ++ [':']) ++ rest, .text json) =
            some (algorithm ++ [':'] ++ rest, json) := by
        rw [claimed, List.append_assoc, stripPrefix_append]
        rfl
      simp only [hclaimed]
      simp only [List.append_assoc]

/-- A claim takes one of the claimable keys. -/
theorem claimable_claim (h : TextKeys s) (user : UserId) (deviceId algorithm : Str) :
    ((claimOneTimeKey s user deviceId algorithm).1.isSome ↔
      0 < (claimable s user deviceId algorithm).size) ∧
    (claimable (claimOneTimeKey s user deviceId algorithm).2 user deviceId algorithm).size =
      (claimable s user deviceId algorithm).size - 1 := by
  rcases claimOneTimeKey_cases h user deviceId algorithm with
    ⟨hnone, hcall⟩ | ⟨keyId, json, hget, hstarts, hcall⟩
  · rw [hcall]
    simp [hnone]
  · -- the key taken was claimable
    have hstarts' : startsWith (otkPrefix user deviceId ++ (algorithm ++ [':']))
        (otkPrefix user deviceId ++ keyId) = true := by
      obtain ⟨rest, rfl⟩ := startsWith_iff.mp hstarts
      exact startsWith_iff.mpr ⟨rest, by simp⟩
    have htaken : (claimable s user deviceId algorithm).get (otkPrefix user deviceId ++ keyId) =
        some (.text json) := by
      rw [claimable, SortedMap.get_filter]
      show Option.filter _ (s.get .deviceOtk _) = _
      rw [hget, Option.filter_some, if_pos hstarts']
    have hafter : claimable (s.delete .deviceOtk (otkPrefix user deviceId ++ keyId)) user deviceId
        algorithm = (claimable s user deviceId algorithm).erase (otkPrefix user deviceId ++ keyId) := by
      have hdelete : s.delete .deviceOtk (otkPrefix user deviceId ++ keyId) .deviceOtk =
          (s .deviceOtk).erase (otkPrefix user deviceId ++ keyId) := if_pos rfl
      apply SortedMap.ext_get
      intro k
      rw [claimable, claimable, hdelete, SortedMap.get_filter, SortedMap.get_erase, SortedMap.get_erase,
        SortedMap.get_filter]
      by_cases hk : k = otkPrefix user deviceId ++ keyId
      · rw [if_pos hk, if_pos hk]
        rfl
      · rw [if_neg hk, if_neg hk]
    have hsize := SortedMap.size_erase_of_get_some _ htaken
    rw [hcall, hafter]
    constructor
    · simp only [Option.isSome_some, true_iff]
      omega
    · omega

theorem TextKeys.claim (h : TextKeys s) (user : UserId) (deviceId algorithm : Str) :
    TextKeys (claimOneTimeKey s user deviceId algorithm).2 := by
  rcases claimOneTimeKey_cases h user deviceId algorithm with
    ⟨-, hcall⟩ | ⟨keyId, json, -, -, hcall⟩
  · rw [hcall]
    exact h
  · rw [hcall]
    intro key value hget
    rw [Store.get_delete] at hget
    split at hget
    · cases hget
    · exact h key value hget

/-- So many claims in a row succeed as there are claimable keys. -/
theorem claim_afterClaims_iff (h : TextKeys s) (user : UserId) (deviceId algorithm : Str) (n : Nat) :
    (claimOneTimeKey (afterClaims user deviceId algorithm s n) user deviceId algorithm).1.isSome ↔
      n < (claimable s user deviceId algorithm).size := by
  have hafter : TextKeys (afterClaims user deviceId algorithm s n) ∧
      (claimable (afterClaims user deviceId algorithm s n) user deviceId algorithm).size =
        (claimable s user deviceId algorithm).size - n := by
    induction n with
    | zero => exact ⟨h, rfl⟩
    | succ n ih =>
        have hstep : afterClaims user deviceId algorithm s (n + 1) =
            (claimOneTimeKey (afterClaims user deviceId algorithm s n) user deviceId algorithm).2 := by
          rw [afterClaims, List.replicate_succ', run_append]
          rfl
        rw [hstep]
        refine ⟨ih.1.claim user deviceId algorithm, ?_⟩
        rw [(claimable_claim ih.1 user deviceId algorithm).2, ih.2]
        omega
  rw [(claimable_claim hafter.1 user deviceId algorithm).1, hafter.2]
  omega

/-- The entry is counted for the algorithm. -/
def countedFor (user : UserId) (deviceId algorithm key : Str) : Bool :=
  (stripPrefix (otkPrefix user deviceId) key).any fun keyId => algorithmOf keyId = algorithm

theorem lookup_entries {β : Type} (m : SortedMap Str β) (k : Str) : m.entries.lookup k = m.get k := by
  apply Option.ext
  intro v
  have huniq : ∀ v₁ v₂, (k, v₁) ∈ m.entries → (k, v₂) ∈ m.entries → v₁ = v₂ := by
    intro v₁ v₂ h₁ h₂
    rw [SortedMap.mem_entries_iff] at h₁ h₂
    exact Option.some.inj (h₁.symm.trans h₂)
  rw [SortedList.lookup_eq_some_iff_mem huniq, SortedMap.mem_entries_iff]

/-- One turn of the loop of `oneTimeKeyCounts`. -/
def countKey (user : UserId) (deviceId : Str) (counts : SortedMap Str UInt32) (e : Str × Record) :
    SortedMap Str UInt32 :=
  match stripPrefix (otkPrefix user deviceId) e.1 with
  | none => counts
  | some keyId => counts.insert (algorithmOf keyId) ((counts.get (algorithmOf keyId)).getD 0 + 1)

theorem getD_countKey (user : UserId) (deviceId algorithm : Str) (counts : SortedMap Str UInt32)
    (e : Str × Record) : ((countKey user deviceId counts e).get algorithm).getD 0 =
      (counts.get algorithm).getD 0 +
        if countedFor user deviceId algorithm e.1 then 1 else 0 := by
  rw [countKey, countedFor]
  cases stripPrefix (otkPrefix user deviceId) e.1 with
  | none => exact (UInt32.add_zero _).symm
  | some keyId =>
      rw [Option.any_some]
      by_cases halg : algorithmOf keyId = algorithm
      · rw [if_pos (decide_eq_true halg), ← halg, SortedMap.get_insert_self, Option.getD_some]
      · rw [if_neg (by simpa using halg), SortedMap.get_insert_ne _ (Ne.symm halg), UInt32.add_zero]

theorem getD_foldl_countKey (user : UserId) (deviceId algorithm : Str)
    (entries : List (Str × Record)) : ∀ counts : SortedMap Str UInt32,
      ((entries.foldl (countKey user deviceId) counts).get algorithm).getD 0 =
        (counts.get algorithm).getD 0 +
          UInt32.ofNat (entries.countP fun e => countedFor user deviceId algorithm e.1) := by
  induction entries with
  | nil => exact fun counts => (UInt32.add_zero _).symm
  | cons e entries ih =>
      intro counts
      rw [List.foldl_cons, ih, getD_countKey, List.countP_cons, UInt32.ofNat_add, UInt32.add_assoc,
        UInt32.add_comm (UInt32.ofNat _)]
      split <;> rfl

theorem reportedCount_eq (s : Data) (user : UserId) (deviceId algorithm : Str) :
    reportedCount s user deviceId algorithm =
      UInt32.ofNat ((s.scan .deviceOtk).countP fun e => countedFor user deviceId algorithm e.1) := by
  have hall := getD_foldl_countKey user deviceId algorithm (s.scan .deviceOtk) SortedMap.empty
  rw [SortedMap.get_empty, Option.getD_none, UInt32.zero_add] at hall
  rw [reportedCount, oneTimeKeyCounts, lookup_entries]
  exact hall

/-- A key id with one colon belongs to the algorithm before it. -/
theorem algorithmOf_eq_iff (h : keyId.count ':' = 1) :
    algorithmOf keyId = algorithm ↔ startsWith (algorithm ++ [':']) keyId = true := by
  rw [startsWith_iff]
  constructor
  · intro halg
    have hmem : ':' ∈ keyId := List.count_pos_iff.mp (by omega)
    obtain ⟨before, after, rfl, hnot⟩ := List.eq_append_cons_of_mem hmem
    rw [algorithmOf, splitOnce_append hnot] at halg
    exact ⟨after, by rw [← halg, List.append_assoc, List.singleton_append]⟩
  · intro ⟨rest, hrest⟩
    rw [List.append_assoc] at hrest
    have hcount := congrArg (List.count ':') hrest
    rw [h, List.count_append, List.singleton_append, List.count_cons_self] at hcount
    have hnot : ':' ∉ algorithm := List.count_eq_zero.mp (by omega)
    rw [algorithmOf, hrest, List.singleton_append, splitOnce_append hnot]

/-! ## What the calls leave -/

/-- The data hold what the calls stored, each key under its one reading. -/
structure KeysOf (calls : List Call) (s : Data) : Prop where
  devices : ∀ (user : UserId) (deviceId : Str), s.get .deviceKeys (user.asStr ++ sep :: deviceId) =
    (lastDeviceKeys calls user deviceId).map .text
  keys : ∀ key value, s.get .deviceOtk key = some value → ∃ user deviceId keyId json,
    key = otkPrefix user deviceId ++ keyId ∧ value = .text json ∧
      Uploaded calls user deviceId (keyId, json) ∧ SoleKey user deviceId keyId ∧ keyId.count ':' = 1
  size : (s .deviceOtk).size ≤ uploads calls

theorem KeysOf.text (h : KeysOf calls s) : TextKeys s := by
  intro key value hget
  obtain ⟨-, -, -, json, -, hvalue, -⟩ := h.keys key value hget
  exact ⟨json, hvalue⟩

theorem keysOf_empty : KeysOf [] Store.empty where
  devices _ _ := rfl
  keys _ _ h := nomatch h
  size := Nat.le_refl _

theorem lastDeviceKeys_concat (calls : List Call) (call : Call) (user : UserId) (deviceId : Str) :
    lastDeviceKeys (calls ++ [call]) user deviceId =
      match call with
      | .storeDeviceKeys user' deviceId' keys =>
          if user' = user ∧ deviceId' = deviceId then some keys
          else lastDeviceKeys calls user deviceId
      | _ => lastDeviceKeys calls user deviceId := by
  rw [lastDeviceKeys, List.reverse_append, List.reverse_singleton, List.singleton_append,
    List.findSome?_cons]
  cases call with
  | storeDeviceKeys user' deviceId' keys =>
      by_cases h : user' = user ∧ deviceId' = deviceId
      · simp only [if_pos h]
      · simp only [if_neg h]
        rfl
  | storeOneTimeKeys user' deviceId' keys => rfl
  | claimOneTimeKey user' deviceId' algorithm => rfl

theorem uploads_concat (calls : List Call) (call : Call) :
    uploads (calls ++ [call]) = uploads calls + uploads [call] := by
  rw [uploads, List.map_append, List.sum_append]
  rfl

theorem Uploaded.concat {key : Str × Str} (h : Uploaded calls user deviceId key) (call : Call) :
    Uploaded (calls ++ [call]) user deviceId key := by
  obtain ⟨keys, hcall, hkey⟩ := h
  exact ⟨keys, List.mem_append_left _ hcall, hkey⟩

/-- Storing one-time keys writes to their family, one entry a key at most. -/
theorem storeOneTimeKeys_data (keys : List (Str × Str)) (s : Data) (user : UserId) (deviceId : Str) :
    (∀ cf, cf ≠ .deviceOtk → (storeOneTimeKeys s user deviceId keys).2 cf = s cf) ∧
      ((storeOneTimeKeys s user deviceId keys).2 .deviceOtk).size ≤
        (s .deviceOtk).size + keys.length := by
  induction keys generalizing s with
  | nil => exact ⟨fun _ _ => rfl, Nat.le_refl _⟩
  | cons key keys ih =>
      obtain ⟨hother, hsize⟩ := ih (storeOneTimeKey s user deviceId key)
      have hput : (storeOneTimeKey s user deviceId key .deviceOtk).size ≤ (s .deviceOtk).size + 1 := by
        rw [storeOneTimeKey, Store.put_self]
        exact SortedMap.size_insert_le _ _ _
      constructor
      · intro cf hcf
        exact (hother cf hcf).trans (Store.put_of_ne _ hcf _ _)
      · show ((storeOneTimeKeys (storeOneTimeKey s user deviceId key) user deviceId keys).2
          .deviceOtk).size ≤ _
        rw [List.length_cons]
        omega

/-- A key that was uploaded before a call counts as uploaded after it. -/
theorem KeysOf.keys_concat (h : KeysOf calls s) (call : Call) {key : Str} {value : Record}
    (hget : s.get .deviceOtk key = some value) : ∃ user deviceId keyId json,
      key = otkPrefix user deviceId ++ keyId ∧ value = .text json ∧
        Uploaded (calls ++ [call]) user deviceId (keyId, json) ∧ SoleKey user deviceId keyId ∧
          keyId.count ':' = 1 := by
  obtain ⟨user, deviceId, keyId, json, hkey, hvalue, hup, hrest⟩ := h.keys key value hget
  exact ⟨user, deviceId, keyId, json, hkey, hvalue, hup.concat call, hrest⟩

theorem KeysOf.step_storeDeviceKeys (h : KeysOf calls s) {user : UserId} {deviceId keys : Str}
    (hcall : WellNamedKeys (.storeDeviceKeys user deviceId keys)) :
    KeysOf (calls ++ [.storeDeviceKeys user deviceId keys])
      (callStep s (.storeDeviceKeys user deviceId keys)) := by
  have hother : Cf.deviceOtk ≠ .deviceKeys := by decide
  have hotk : callStep s (.storeDeviceKeys user deviceId keys) .deviceOtk = s .deviceOtk :=
    Store.put_of_ne s hother (user.asStr ++ sep :: deviceId) (.text keys)
  constructor
  · intro user' deviceId'
    rw [lastDeviceKeys_concat]
    show (s.put .deviceKeys _ _).get .deviceKeys _ = _
    rw [Store.get_put, h.devices]
    by_cases hsame : user = user' ∧ deviceId = deviceId'
    · obtain ⟨rfl, rfl⟩ := hsame
      simp
    · -- the string of another device is another one
      have hne : user'.asStr ++ sep :: deviceId' ≠ user.asStr ++ sep :: deviceId := by
        intro heq
        obtain rfl := hcall user' deviceId' heq
        have hdevice := List.append_cancel_left heq
        exact hsame ⟨rfl, (List.cons.inj hdevice).2.symm⟩
      rw [if_neg hne]
      simp only [if_neg hsame]
  · intro key value hget
    rw [Store.get, hotk] at hget
    exact h.keys_concat _ hget
  · rw [hotk, uploads_concat]
    exact h.size.trans (Nat.le_add_right _ _)

theorem KeysOf.step_storeOneTimeKeys (h : KeysOf calls s) {user : UserId} {deviceId : Str}
    {keys : List (Str × Str)} (hcall : WellNamedKeys (.storeOneTimeKeys user deviceId keys)) :
    KeysOf (calls ++ [.storeOneTimeKeys user deviceId keys])
      (callStep s (.storeOneTimeKeys user deviceId keys)) := by
  obtain ⟨hother, hsize⟩ := storeOneTimeKeys_data keys s user deviceId
  constructor
  · intro user' deviceId'
    rw [lastDeviceKeys_concat]
    show ((storeOneTimeKeys s user deviceId keys).2 .deviceKeys).get _ = _
    rw [hother .deviceKeys (by decide)]
    exact h.devices user' deviceId'
  · intro key value hget
    -- the last of the uploaded keys with the string is read, or else what was there
    have hfold := Store.get_foldl_put s .deviceOtk (fun key : Str × Str =>
      otkPrefix user deviceId ++ key.1) (fun key => Record.text key.2) keys key
    rw [show (callStep s (.storeOneTimeKeys user deviceId keys)).get .deviceOtk key = _ from hfold,
      Option.or_eq_some_iff] at hget
    rcases hget with hnew | ⟨-, hold⟩
    · obtain ⟨stored, hfound, rfl⟩ := Option.map_eq_some_iff.mp hnew
      have hmem : stored ∈ keys := List.mem_reverse.mp (List.mem_of_find?_eq_some hfound)
      have hkey := List.find?_some hfound
      have hkey : otkPrefix user deviceId ++ stored.1 = key := of_decide_eq_true hkey
      exact ⟨user, deviceId, stored.1, stored.2, hkey.symm, rfl,
        ⟨keys, List.mem_append_right _ (List.mem_singleton_self _), hmem⟩, hcall stored hmem⟩
    · exact h.keys_concat _ hold
  · rw [uploads_concat]
    have hone : uploads [.storeOneTimeKeys user deviceId keys] = keys.length := rfl
    have hbefore := h.size
    show ((storeOneTimeKeys s user deviceId keys).2 .deviceOtk).size ≤ _
    omega

/-- A claim takes one key out, or leaves everything as it is. -/
theorem KeysOf.step_claimOneTimeKey (h : KeysOf calls s) (user : UserId) (deviceId algorithm : Str) :
    KeysOf (calls ++ [.claimOneTimeKey user deviceId algorithm])
      (callStep s (.claimOneTimeKey user deviceId algorithm)) := by
  have hlast : ∀ u d, lastDeviceKeys (calls ++ [.claimOneTimeKey user deviceId algorithm]) u d =
      lastDeviceKeys calls u d := fun u d => lastDeviceKeys_concat _ _ u d
  have hup : uploads (calls ++ [.claimOneTimeKey user deviceId algorithm]) = uploads calls := by
    rw [uploads_concat]
    rfl
  rcases claimOneTimeKey_cases h.text user deviceId algorithm with
    ⟨-, hclaim⟩ | ⟨keyId, json, hget, -, hclaim⟩
  · have hstep : callStep s (.claimOneTimeKey user deviceId algorithm) = s := by
      rw [callStep, hclaim]
    rw [hstep]
    constructor
    · intro u d
      rw [hlast, h.devices]
    · exact fun key value hget => h.keys_concat _ hget
    · rw [hup]
      exact h.size
  · have hstep : callStep s (.claimOneTimeKey user deviceId algorithm) =
        s.delete .deviceOtk (otkPrefix user deviceId ++ keyId) := by
      rw [callStep, hclaim]
    rw [hstep]
    constructor
    · intro u d
      rw [hlast, ← h.devices]
      rfl
    · intro key value hget
      rw [Store.get_delete] at hget
      split at hget
      · cases hget
      · exact h.keys_concat _ hget
    · have hsize := SortedMap.size_erase_of_get_some (s .deviceOtk) hget
      have hbefore := h.size
      show ((s .deviceOtk).erase (otkPrefix user deviceId ++ keyId)).size ≤ _
      omega

/-- A well-named call keeps the correspondence. -/
theorem KeysOf.step (h : KeysOf calls s) {call : Call} (hcall : WellNamedKeys call) :
    KeysOf (calls ++ [call]) (callStep s call) := by
  cases call with
  | storeDeviceKeys user deviceId keys => exact h.step_storeDeviceKeys hcall
  | storeOneTimeKeys user deviceId keys => exact h.step_storeOneTimeKeys hcall
  | claimOneTimeKey user deviceId algorithm => exact h.step_claimOneTimeKey user deviceId algorithm

theorem keysOf_run (hcalls : ∀ call ∈ calls, WellNamedKeys call) : KeysOf calls (keysAfter calls) := by
  induction calls using List.reverseRecOn with
  | nil => exact keysOf_empty
  | append_singleton calls call ih =>
      rw [List.forall_mem_append] at hcalls
      have hstep := (ih hcalls.1).step (hcalls.2 call (List.mem_singleton_self _))
      rw [keysAfter, run_append]
      exact hstep

/-- A stored one-time key is read in one way. -/
theorem KeysOf.sole (h : KeysOf calls s) {value : Record}
    (hget : s.get .deviceOtk (otkPrefix user deviceId ++ keyId) = some value) :
    SoleKey user deviceId keyId ∧ keyId.count ':' = 1 ∧
      ∃ json, value = .text json ∧ Uploaded calls user deviceId (keyId, json) := by
  obtain ⟨u, d, k, json, hkey, hvalue, hup, hsole, hcolon⟩ := h.keys _ value hget
  obtain ⟨rfl, rfl⟩ := hsole user deviceId keyId hkey
  obtain rfl := List.append_cancel_left hkey
  exact ⟨hsole, hcolon, json, hvalue, hup⟩

theorem nodup_deviceKeysOf (s : Data) (user : UserId) : ((deviceKeysOf s user).map Prod.fst).Nodup := by
  have hsorted : (s.scan .deviceKeys).Pairwise fun a b => a.1 < b.1 := (s .deviceKeys).sorted
  rw [deviceKeysOf, List.Nodup, List.pairwise_map, List.pairwise_filterMap]
  refine hsorted.imp fun {e e'} hlt a ha a' ha' heq => ?_
  obtain ⟨device, hdevice, ha⟩ := Option.bind_eq_some_iff.mp ha
  obtain ⟨device', hdevice', ha'⟩ := Option.bind_eq_some_iff.mp ha'
  obtain ⟨keys, -, ha⟩ := Option.bind_eq_some_iff.mp ha
  obtain ⟨keys', -, ha'⟩ := Option.bind_eq_some_iff.mp ha'
  obtain rfl := Option.some.inj ha
  obtain rfl := Option.some.inj ha'
  have hsame : device = device' := heq
  rw [stripPrefix_eq_some_iff.mp hdevice, stripPrefix_eq_some_iff.mp hdevice', hsame] at hlt
  exact lt_irrefl _ hlt

/-- What is counted under an algorithm is what a claim can take. -/
theorem KeysOf.countedFor_eq (h : KeysOf calls s) (user : UserId) (deviceId algorithm : Str) :
    (s.scan .deviceOtk).countP (fun e => countedFor user deviceId algorithm e.1) =
      (claimable s user deviceId algorithm).size := by
  rw [claimable, SortedMap.size, SortedMap.filter, ← List.countP_eq_length_filter]
  apply List.countP_congr
  intro e he
  have hget : s.get .deviceOtk e.1 = some e.2 := ((s .deviceOtk).mem_entries_iff _ _).mp he
  rw [countedFor, Option.any_eq_true, startsWith_iff]
  constructor
  · rintro ⟨keyId, hstrip, halg⟩
    rw [stripPrefix_eq_some_iff.mp hstrip] at hget ⊢
    obtain ⟨-, hcolon, -⟩ := h.sole hget
    obtain ⟨rest, rfl⟩ := startsWith_iff.mp
      ((algorithmOf_eq_iff hcolon).mp (of_decide_eq_true halg))
    exact ⟨rest, by simp⟩
  · rintro ⟨rest, hrest⟩
    rw [hrest, List.append_assoc] at hget ⊢
    obtain ⟨-, hcolon, -⟩ := h.sole hget
    have halg := (algorithmOf_eq_iff hcolon).mpr (startsWith_iff.mpr ⟨rest, rfl⟩)
    exact ⟨_, stripPrefix_append _ _, decide_eq_true halg⟩

/-- Data that hold what the calls stored show it. -/
theorem KeysOf.faithful (h : KeysOf calls s) (hfew : uploads calls < 2 ^ 32) : FaithfulKeys calls s := by
  constructor
  case devices =>
    intro user
    constructor
    · exact nodup_deviceKeysOf s user
    · intro deviceId keys
      rw [mem_deviceKeysOf, h.devices, Option.map_eq_some_iff]
      constructor
      · intro ⟨keys', hlast, htext⟩
        rw [hlast, Record.text.inj htext]
      · exact fun hlast => ⟨keys, hlast, rfl⟩
  case claims =>
    intro user deviceId algorithm key hkey
    rcases claimOneTimeKey_cases h.text user deviceId algorithm with
      ⟨-, hclaim⟩ | ⟨keyId, json, hget, hstarts, hclaim⟩
    · rw [hclaim] at hkey
      cases hkey
    · rw [hclaim] at hkey ⊢
      obtain rfl := Option.some.inj hkey
      obtain ⟨hsole, -, json', hjson, hup⟩ := h.sole hget
      obtain rfl := Record.text.inj hjson
      refine ⟨hup, hstarts, fun cf hcf => if_neg hcf, fun user' deviceId' keyId' => ?_⟩
      show (s.delete .deviceOtk _).get .deviceOtk _ = _
      rw [Store.get_delete]
      by_cases hsame : otkPrefix user' deviceId' ++ keyId' = otkPrefix user deviceId ++ keyId
      · obtain ⟨rfl, rfl⟩ := hsole user' deviceId' keyId' hsame
        obtain rfl := List.append_cancel_left hsame
        simp
      · rw [if_neg hsame, if_neg]
        rintro ⟨rfl, rfl, rfl⟩
        exact hsame rfl
  case counts =>
    intro user deviceId algorithm n
    have hbound : (claimable s user deviceId algorithm).size < 2 ^ 32 := by
      have hle : (claimable s user deviceId algorithm).size ≤ (s .deviceOtk).size :=
        List.length_filter_le _ _
      have hsize := h.size
      omega
    rw [claim_afterClaims_iff h.text, reportedCount_eq, h.countedFor_eq user deviceId algorithm, UInt32.toNat_ofNat_of_lt' hbound]

end

/-! ## Faithful runs -/

/-- In a run of well-named calls that uploads fewer keys than its counters hold, the reads of device
keys, the claims of one-time keys and the counts are those of the keys uploaded. -/
theorem faithful_keys_of_wellNamed (calls : List Call) (hcalls : ∀ call ∈ calls, WellNamedKeys call)
    (hfew : uploads calls < 2 ^ 32) : FaithfulKeys calls (keysAfter calls) :=
  (keysOf_run hcalls).faithful hfew

namespace SampleUploads

open SampleClaims

/-- Alice uploads the keys of a device and two one-time keys of it, and one of these is claimed. -/
def uploadAndClaim : List Call :=
  [.storeDeviceKeys alice "D" "\x7b\x7d",
    .storeOneTimeKeys alice "D" [("alg:1", "1"), ("alg:2", "2")],
    .claimOneTimeKey alice "D" "alg"]

/-- Alice uploads a one-time key whose id names no algorithm. -/
def uploadBare : List Call := [.storeOneTimeKeys alice "D" [("AAAA", "1")]]

end SampleUploads

open SampleClaims SampleUploads in
/-- Keys without separators, and with one colon in their ids, are kept as uploaded. -/
theorem faithful_keys_sample : FaithfulKeys uploadAndClaim (keysAfter uploadAndClaim) := by
  have halice : sep ∉ alice.asStr := by decide
  have hnamed : ∀ call ∈ uploadAndClaim, WellNamedKeys call := by
    simp only [uploadAndClaim, List.forall_mem_cons]
    refine ⟨soleDevice_of_plain halice (by decide), ?_, trivial, by simp⟩
    intro key hkey
    have hplain : ∀ key ∈ [("alg:1".toList, "1".toList), ("alg:2".toList, "2".toList)],
        sep ∉ key.1 ∧ key.1.count ':' = 1 := by
      decide
    obtain ⟨hsep, hcolon⟩ := hplain key hkey
    exact ⟨soleKey_of_plain halice (by decide) hsep, hcolon⟩
  exact faithful_keys_of_wellNamed uploadAndClaim hnamed (by decide)

open SampleClaims SampleUploads in
/-- The key whose id has no colon is counted for an algorithm under which no claim finds it. -/
theorem bare_key_counted_not_claimable :
    ¬ ∀ calls : List Call, FaithfulKeys calls (keysAfter calls) := by
  intro h
  have hcount : 0 < (reportedCount (keysAfter uploadBare) alice "D" "AAAA").toNat := by
    decide +kernel
  have hclaim : (claimOneTimeKey (keysAfter uploadBare) alice "D" "AAAA").1 = none := by
    decide +kernel
  have hsome := ((h uploadBare).counts alice "D" "AAAA" 0).mpr hcount
  rw [afterClaims, List.replicate_zero, run_nil, hclaim] at hsome
  exact absurd hsome (by decide)

end DeviceKeyStore

end GaussMatrix.Svc
