import GaussMatrix.Library.KeyRange
import GaussMatrix.Library.Runs
import GaussMatrix.Util.ByteOrder

/-!
# Backends of the store

What a backend offers: writes and reads of keys in families, scans in key order, and pages of a scan
behind a cursor.  The backend in memory keeps one ordered map for each family.
-/

namespace GaussMatrix

open Library Util

abbrev Entry := Str × Bytes

/-- Whether a key stands behind the cursor. -/
def isAfter (after : Option Str) (key : Str) : Bool := after.elim true fun cursor => cursor < key

/-- A page as a backend makes it that only scans. -/
def defaultScanPaged (scan : List Entry) (after : Option Str) (limit : Nat) : List Entry :=
  (scan.filter fun e => isAfter after e.1).take limit

/-- A backend with states in `σ`. -/
class Backend (σ : Type) where
  put : σ → Str → Str → Bytes → σ
  delete : σ → Str → Str → σ
  get : σ → Str → Str → Option Bytes
  scan : σ → Str → List Entry
  count : σ → Str → Nat
  scanPaged : σ → Str → Option Str → Nat → List Entry :=
    fun s cf after limit => defaultScanPaged (scan s cf) after limit

/-- A write to a backend. -/
inductive Write
  | put (cf key : Str) (value : Bytes)
  | delete (cf key : Str)

namespace Write

def cf : Write → Str
  | put cf _ _ => cf
  | delete cf _ => cf

def key : Write → Str
  | put _ key _ => key
  | delete _ key => key

/-- What the key holds after the write. -/
def value : Write → Option Bytes
  | put _ _ value => some value
  | delete _ _ => none

end Write

namespace Backend

variable {σ : Type} [Backend σ]

def write (s : σ) : Write → σ
  | .put cf key value => put s cf key value
  | .delete cf key => delete s cf key

end Backend

/-! ## In memory -/

structure MemoryStore where
  families : SortedMap Str (SortedMap Str Bytes)

namespace MemoryStore

def empty : MemoryStore := ⟨SortedMap.empty⟩

def put (s : MemoryStore) (cf key : Str) (value : Bytes) : MemoryStore :=
  ⟨s.families.insert cf (((s.families.get cf).getD SortedMap.empty).insert key value)⟩

def delete (s : MemoryStore) (cf key : Str) : MemoryStore :=
  match s.families.get cf with
  | some family => ⟨s.families.insert cf (family.erase key)⟩
  | none => s

def get (s : MemoryStore) (cf key : Str) : Option Bytes :=
  (s.families.get cf).bind fun family => family.get key

def scan (s : MemoryStore) (cf : Str) : List Entry :=
  ((s.families.get cf).map SortedMap.entries).getD []

def count (s : MemoryStore) (cf : Str) : Nat := ((s.families.get cf).map SortedMap.size).getD 0

/-- The range of keys behind a cursor, which it does not include. -/
def range (family : SortedMap Str Bytes) (after : Option Str) : List Entry :=
  match after with
  | some cursor => family.entries.filter fun e => cursor < e.1
  | none => family.entries

def scanPaged (s : MemoryStore) (cf : Str) (after : Option Str) (limit : Nat) : List Entry :=
  match s.families.get cf with
  | some family => (range family after).take limit
  | none => []

instance : Backend MemoryStore := ⟨put, delete, get, scan, count, scanPaged⟩

/-- A family, empty before its first write. -/
def family (s : MemoryStore) (cf : Str) : SortedMap Str Bytes :=
  (s.families.get cf).getD SortedMap.empty

variable (s : MemoryStore) (cf : Str)

theorem get_eq (key : Str) : s.get cf key = (s.family cf).get key := by
  rw [get, family]
  cases s.families.get cf <;> rfl

theorem scan_eq : s.scan cf = (s.family cf).entries := by
  rw [scan, family]
  cases s.families.get cf <;> rfl

theorem family_put (cf' key : Str) (value : Bytes) :
    (s.put cf key value).family cf' =
      if cf' = cf then (s.family cf).insert key value else s.family cf' := by
  rw [family, put, SortedMap.get_insert]
  split <;> rfl

theorem family_delete (cf' key : Str) :
    (s.delete cf key).family cf' = if cf' = cf then (s.family cf).erase key else s.family cf' := by
  rw [delete]
  cases hfamily : s.families.get cf with
  | some fam =>
      simp only [family, SortedMap.get_insert, hfamily]
      split <;> rfl
  | none =>
      -- nothing is removed from a family that is not there
      have herase : (SortedMap.empty : SortedMap Str Bytes).erase key = SortedMap.empty := rfl
      simp only [family, hfamily, Option.getD_none, herase]
      split
      · rename_i heq
        rw [heq, hfamily]
        rfl
      · rfl

/-- A write changes what its key holds. -/
theorem get_write (w : Write) (key : Str) :
    (Backend.write s w).get cf key =
      if cf = w.cf ∧ key = w.key then w.value else s.get cf key := by
  rw [get_eq, get_eq]
  cases w with
  | put cf' key' value =>
      show ((s.put cf' key' value).family cf).get key =
        if cf = cf' ∧ key = key' then some value else (s.family cf).get key
      rw [family_put]
      by_cases hcf : cf = cf'
      · rw [if_pos hcf, SortedMap.get_insert]
        by_cases hkey : key = key'
        · rw [if_pos hkey, if_pos ⟨hcf, hkey⟩]
        · rw [if_neg hkey, if_neg fun h => hkey h.2, hcf]
      · rw [if_neg hcf, if_neg fun h => hcf h.1]
  | delete cf' key' =>
      show ((s.delete cf' key').family cf).get key =
        if cf = cf' ∧ key = key' then none else (s.family cf).get key
      rw [family_delete]
      by_cases hcf : cf = cf'
      · rw [if_pos hcf, SortedMap.get_erase]
        by_cases hkey : key = key'
        · rw [if_pos hkey, if_pos ⟨hcf, hkey⟩]
        · rw [if_neg hkey, if_neg fun h => hkey h.2, hcf]
      · rw [if_neg hcf, if_neg fun h => hcf h.1]

/-- The page of the range is the page of the scan. -/
theorem scanPaged_eq (after : Option Str) (limit : Nat) :
    s.scanPaged cf after limit = defaultScanPaged (s.scan cf) after limit := by
  rw [scanPaged, scan, defaultScanPaged]
  cases s.families.get cf with
  | none => simp
  | some fam =>
      cases after with
      | none =>
          show fam.entries.take limit = (fam.entries.filter fun _ => true).take limit
          rw [List.filter_true]
      | some cursor => rfl

end MemoryStore

end GaussMatrix
