import GaussMatrix.Store.FileStore
import GaussMatrix.Store.RocksStore
import GaussMatrix.Store.Families

/-!
# Typed stores on the backends

A store of values is kept on a backend under the names of the families, each value as its bytes.
After the same writes every backend represents the store, and so does one that is opened again on
the directory that was written.
-/

namespace GaussMatrix

open Library Util

namespace Cf

/-- The names of the families. -/
def name : Cf → Str
  | events => "events".toList
  | roomState => "room_state".toList
  | capabilityGrants => "capability_grants".toList
  | auditLog => "audit_log".toList
  | agentMemory => "agent_memory".toList
  | accessTokens => "access_tokens".toList
  | accounts => "accounts".toList
  | transactions => "transactions".toList
  | federationKeys => "federation_keys".toList
  | eventStream => "event_stream".toList
  | serverKeys => "server_keys".toList
  | typing => "typing".toList
  | receipts => "receipts".toList
  | presence => "presence".toList
  | keyCache => "key_cache".toList
  | deviceKeys => "device_keys".toList
  | deviceOtk => "device_otk".toList
  | crossSigning => "cross_signing".toList

def all : List Cf :=
  [events, roomState, capabilityGrants, auditLog, agentMemory, accessTokens, accounts, transactions,
    federationKeys, eventStream, serverKeys, typing, receipts, presence, keyCache, deviceKeys,
    deviceOtk, crossSigning]

theorem mem_all (cf : Cf) : cf ∈ all := by
  cases cf <;> decide

theorem nodup_names : (all.map name).Nodup := by
  decide +kernel

theorem name_inj {cf cf' : Cf} : cf.name = cf'.name ↔ cf = cf' := by
  constructor
  · exact List.inj_on_of_nodup_map nodup_names (mem_all cf) (mem_all cf')
  · rintro rfl
    rfl

theorem sep_not_mem_name (cf : Cf) : cfSep ∉ cf.name := by
  cases cf <;> decide

end Cf

/-! ## Writes of values -/

/-- A write of a value to a key of a family, or of none. -/
structure StoreWrite (ν : Type) where
  cf : Cf
  key : Str
  value : Option ν

namespace StoreWrite

variable {ν : Type}

def apply (s : Store ν) (w : StoreWrite ν) : Store ν :=
  match w.value with
  | some value => s.put w.cf w.key value
  | none => s.delete w.cf w.key

/-- The write as a backend sees it. -/
def encode (enc : ν → Bytes) (w : StoreWrite ν) : Write :=
  match w.value with
  | some value => .put w.cf.name w.key (enc value)
  | none => .delete w.cf.name w.key

section

variable {enc : ν → Bytes} {w : StoreWrite ν}

@[simp] theorem cf_encode : (w.encode enc).cf = w.cf.name := by
  rw [encode]
  cases w.value <;> rfl

@[simp] theorem key_encode : (w.encode enc).key = w.key := by
  rw [encode]
  cases w.value <;> rfl

@[simp] theorem value_encode : (w.encode enc).value = w.value.map enc := by
  rw [encode]
  cases w.value <;> rfl

theorem get_apply (s : Store ν) (cf : Cf) (key : Str) :
    (w.apply s).get cf key = if cf = w.cf ∧ key = w.key then w.value else s.get cf key := by
  rw [apply]
  by_cases hcf : cf = w.cf
  · subst hcf
    cases hvalue : w.value with
    | some value =>
        rw [Store.get_put]
        simp
    | none =>
        rw [Store.get_delete]
        simp
  · have hput : ∀ value, s.put w.cf w.key value cf = s cf := s.put_of_ne hcf w.key
    have hdelete : s.delete w.cf w.key cf = s cf := if_neg hcf
    rw [if_neg fun h => hcf h.1, Store.get, Store.get]
    cases w.value with
    | some value => exact congrArg (fun m : SortedMap Str ν => m.get key) (hput value)
    | none => exact congrArg (fun m : SortedMap Str ν => m.get key) hdelete

end

end StoreWrite

/-! ## What a backend represents -/

/-- The reads of the backend are those of the store, in bytes. -/
structure Represents {σ ν : Type} [Backend σ] (enc : ν → Bytes) (b : σ) (s : Store ν) : Prop where
  get : ∀ cf key, Backend.get b cf.name key = (s.get cf key).map enc
  scan : ∀ cf, Backend.scan b cf.name = (s.scan cf).map fun e => (e.1, enc e.2)
  count : ∀ cf, Backend.count b cf.name = s.count cf

namespace Represents

variable {σ ν τ : Type} [Backend σ] {enc : ν → Bytes} {b : σ} {s : Store ν} {cf : Cf}

/-- A scan is read entry by entry. -/
theorem filterMap_scan (h : Represents enc b s) {f : Entry → Option τ} {g : Str × ν → Option τ}
    (heq : ∀ e ∈ s.scan cf, f (e.1, enc e.2) = g e) :
    (Backend.scan b cf.name).filterMap f = (s.scan cf).filterMap g := by
  rw [h.scan, List.filterMap_map]
  exact List.filterMap_congr heq

-- The keys are the same on both sides, so a condition on them passes the same entries.
theorem filterMap_filter_scan (h : Represents enc b s) {pass : Str → Bool}
    {f : Entry → Option τ} {g : Str × ν → Option τ}
    (heq : ∀ e ∈ s.scan cf, f (e.1, enc e.2) = g e) :
    ((Backend.scan b cf.name).filter fun e => pass e.1).filterMap f =
      ((s.scan cf).filter fun e => pass e.1).filterMap g := by
  rw [List.filterMap_filter, List.filterMap_filter]
  apply h.filterMap_scan
  intro e he
  rw [heq e he]

end Represents

section

variable {ν : Type} {enc : ν → Bytes} {s : Store ν}

theorem MemoryStore.count_eq (m : MemoryStore) (cf : Str) : m.count cf = (m.scan cf).length := by
  rw [count, scan]
  cases m.families.get cf <;> rfl

/-- In memory the values of the keys decide the other reads. -/
theorem represents_of_get {m : MemoryStore}
    (h : ∀ cf key, m.get cf.name key = (s.get cf key).map enc) : Represents enc m s := by
  have hfamily : ∀ cf, m.family cf.name = (s cf).filterMapValues fun v => some (enc v) := by
    intro cf
    apply SortedMap.ext_get
    intro key
    rw [← MemoryStore.get_eq, h, SortedMap.get_filterMapValues]
    cases hget : (s cf).get key <;> simp [Store.get, hget]
  have hscan : ∀ cf, m.scan cf.name = (s.scan cf).map fun e => (e.1, enc e.2) := by
    intro cf
    rw [MemoryStore.scan_eq, hfamily]
    exact congrFun (List.filterMap_eq_map' (f := fun e : Str × ν => (e.1, enc e.2))) _
  refine ⟨h, hscan, fun cf => ?_⟩
  show m.count cf.name = (s cf).size
  rw [MemoryStore.count_eq, hscan, List.length_map, Store.scan, SortedMap.size]

/-- What the keys hold after writes, on any state that held the values of the store before. -/
theorem get_run_encode {m : MemoryStore} (h : ∀ cf key, m.get cf.name key = (s.get cf key).map enc)
    (ws : List (StoreWrite ν)) (cf : Cf) (key : Str) :
    (run Backend.write m (ws.map (StoreWrite.encode enc))).get cf.name key =
      ((run StoreWrite.apply s ws).get cf key).map enc := by
  induction ws generalizing m s with
  | nil => exact h cf key
  | cons w ws ih =>
      rw [List.map_cons, run_cons, run_cons]
      apply ih
      intro cf' key'
      rw [MemoryStore.get_write, StoreWrite.get_apply, h]
      simp only [StoreWrite.cf_encode, StoreWrite.key_encode, StoreWrite.value_encode, Cf.name_inj]
      split <;> rfl

/-- A backend that represents the store, whatever is written to both. -/
def Follows {σ : Type} [Backend σ] (enc : ν → Bytes) (b : σ) (s : Store ν) : Prop :=
  ∀ ws, Represents enc (run Backend.write b (ws.map (StoreWrite.encode enc)))
    (run StoreWrite.apply s ws)

theorem Follows.represents {σ : Type} [Backend σ] {b : σ} (h : Follows enc b s) :
    Represents enc b s :=
  h []

theorem Follows.run {σ : Type} [Backend σ] {b : σ} (h : Follows enc b s) (ws : List (StoreWrite ν)) :
    Follows enc (Library.run Backend.write b (ws.map (StoreWrite.encode enc)))
      (Library.run StoreWrite.apply s ws) := by
  intro later
  rw [← run_append, ← run_append, ← List.map_append]
  exact h (ws ++ later)

theorem follows_memory {m : MemoryStore} (h : Represents enc m s) : Follows enc m s :=
  fun ws => represents_of_get fun cf key => get_run_encode h.get ws cf key

theorem represents_empty : Represents enc MemoryStore.empty (Store.empty : Store ν) :=
  ⟨fun _ _ => rfl, fun _ => rfl, fun _ => rfl⟩

theorem follows_rocks : Follows enc RocksStore.empty (Store.empty : Store ν) := by
  intro ws
  have hnames : ∀ w ∈ ws.map (StoreWrite.encode enc), cfSep ∉ w.cf := by
    rw [List.forall_mem_map]
    intro w _
    rw [StoreWrite.cf_encode]
    exact w.cf.sep_not_mem_name
  have hmirrors := RocksStore.mirrors_run hnames
  have hmemory : Represents enc (run Backend.write MemoryStore.empty _) _ :=
    follows_memory represents_empty ws
  have hscan := fun cf : Cf => hmirrors.scan cf.sep_not_mem_name
  constructor
  · intro cf key
    rw [← hmemory.get cf key]
    -- a read of the database is one of the key space
    show (RocksStore.db _).get _ = _
    rw [hmirrors.holds, SortedMap.get_mapKeys, hmirrors.get cf.name key cf.sep_not_mem_name]
    rfl
  · intro cf
    rw [← hmemory.scan cf]
    exact hscan cf
  · intro cf
    rw [← hmemory.count cf]
    show (RocksStore.scan _ _).length = MemoryStore.count _ _
    rw [hscan cf, MemoryStore.count_eq]

end

/-! ## On files -/

section Files

open FileStore

variable {ν : Type} {enc : ν → Bytes} {s : Store ν} {limit : Nat} {readDir : ReadDir} {root : Root}
  {t : FileTree} {values : Str → Str → Option Bytes}

/-- The values after operations are those in memory after their writes. -/
theorem valuesAfter_eq (m : MemoryStore) (ops : List FileOp) :
    valuesAfter m.get ops = (run Backend.write m (ops.map FileOp.write)).get := by
  induction ops generalizing m with
  | nil => rfl
  | cons op ops ih =>
      have hupdate : update m.get op.write = (Backend.write m op.write).get := by
        funext cf key
        rw [MemoryStore.get_write, update]
      rw [List.map_cons, run_cons, ← ih, ← hupdate]
      rfl

/-- The copy in memory is written as every store in memory. -/
theorem mem_of_runSteps_perform {ops : List FileOp} {m : MemoryStore}
    {last : MemoryStore × FileTree}
    (h : runSteps (ops.map (FileOp.perform limit)) (m, t) = .ok last) :
    last.1 = run Backend.write m (ops.map FileOp.write) := by
  induction ops generalizing m t with
  | nil => exact congrArg Prod.fst (Except.ok.inj h).symm
  | cons op ops ih =>
      rw [List.map_cons, runSteps, FileOp.perform] at h
      cases hfiles : runSteps (op.steps limit) t with
      | error e =>
          rw [hfiles] at h
          cases h
      | ok t' =>
          rw [hfiles] at h
          rw [List.map_cons, run_cons]
          exact ih h

/-- What is opened at the root is the store, and the directory holds it. -/
structure Opens (enc : ν → Bytes) (readDir : ReadDir) (root : Root) (s : Store ν) (t : FileTree) :
    Prop where
  opened : openStore readDir root = .ok (load readDir t, t)
  sound : Sound (load readDir t).get t
  represents : Represents enc (load readDir t) s

theorem opens_of_sound (hread : ∀ (ν : Type) (m : SortedMap Str ν), (readDir ν m).Perm m.entries)
    (hopened : openStore readDir root = .ok (load readDir t, t)) (hsound : Sound values t)
    (h : ∀ cf key, values cf.name key = (s.get cf key).map enc) : Opens enc readDir root s t := by
  have hload : (load readDir t).get = values := by
    funext cf key
    exact get_load hread hsound cf key
  refine ⟨hopened, hload ▸ hsound, represents_of_get fun cf key => ?_⟩
  rw [hload, h]

theorem opens_absent (hread : ∀ (ν : Type) (m : SortedMap Str ν), (readDir ν m).Perm m.entries) :
    Opens enc readDir .absent Store.empty SortedMap.empty := by
  have hsound : Sound (fun _ _ => none) SortedMap.empty := by
    refine ⟨fun _ _ hnode => ?_, fun _ _ _ => rfl, fun _ => rfl⟩
    cases hnode
  exact opens_of_sound hread rfl hsound fun _ _ => rfl

theorem load_empty (hread : ∀ (ν : Type) (m : SortedMap Str ν), (readDir ν m).Perm m.entries) :
    load readDir SortedMap.empty = MemoryStore.empty := by
  have hnil : readDir FileTree.Node SortedMap.empty = [] := List.perm_nil.mp (hread _ _)
  rw [load, hnil]
  rfl

/-- Operations that write these values come through, and leave the store with them. -/
theorem Opens.perform (h : Opens enc readDir root s t) {ws : List (StoreWrite ν)}
    {ops : List FileOp}
    (hread : ∀ (ν : Type) (m : SortedMap Str ν), (readDir ν m).Perm m.entries)
    (hops : ∀ op ∈ ops, op.Named limit)
    (hwrites : ops.map FileOp.write = ws.map (StoreWrite.encode enc)) :
    ∃ t', runSteps (ops.map (FileOp.perform limit)) (load readDir t, t) =
        .ok (run Backend.write (load readDir t) (ws.map (StoreWrite.encode enc)), t') ∧
      Opens enc readDir (.folder t') (run StoreWrite.apply s ws) t' := by
  obtain ⟨last, hrun, hsound⟩ := runSteps_perform hops (load readDir t) h.sound
  have hmem := mem_of_runSteps_perform hrun
  rw [hwrites] at hmem
  rw [valuesAfter_eq, hwrites] at hsound
  refine ⟨last.2, ?_, opens_of_sound hread rfl hsound ?_⟩
  · rw [hrun, ← hmem]
  · exact fun cf key => get_run_encode h.represents.get ws cf key

/-- A crash in an operation leaves the store of the writes before it, or of its own as well. -/
theorem Opens.crash (h : Opens enc readDir root s t) {ws : List (StoreWrite ν)} {w : StoreWrite ν}
    {life : Life} (hread : ∀ (ν : Type) (m : SortedMap Str ν), (readDir ν m).Perm m.entries)
    (hlife : life.Named limit)
    (hcompleted : life.completed.map FileOp.write = ws.map (StoreWrite.encode enc))
    (hinterrupted : life.interrupted.write = w.encode enc) :
    ∃ t', life.crash limit readDir root = .ok (.folder t') ∧
      (Opens enc readDir (.folder t') (run StoreWrite.apply s ws) t' ∨
        Opens enc readDir (.folder t') (run StoreWrite.apply s (ws ++ [w])) t') := by
  obtain ⟨t', hcrash, hsound⟩ := life.crash_sound hlife h.opened h.sound
  refine ⟨t', hcrash, ?_⟩
  rw [valuesAfter_eq, hcompleted] at hsound
  rcases hsound with hsound | hsound
  · left
    exact opens_of_sound hread rfl hsound fun cf key => get_run_encode h.represents.get ws cf key
  · right
    apply opens_of_sound hread rfl hsound
    intro cf key
    rw [run_append, run_cons, run_nil, update, StoreWrite.get_apply, hinterrupted,
      get_run_encode h.represents.get]
    simp only [StoreWrite.cf_encode, StoreWrite.key_encode, StoreWrite.value_encode, Cf.name_inj]
    split <;> rfl

end Files

end GaussMatrix
