import GaussMatrix.Library.SortedMap
import GaussMatrix.Library.Text

/-!
# The key-value store

A store is one ordered map for each column family; a scan lists a family in key order.  Writes do
not fail.
-/

namespace GaussMatrix

open Library

/-- The column families. -/
inductive Cf
  | events
  | roomState
  | capabilityGrants
  | auditLog
  | agentMemory
  | accessTokens
  | accounts
  | transactions
  | federationKeys
  | eventStream
  | serverKeys
  | typing
  | receipts
  | presence
  | keyCache
  | deviceKeys
  | deviceOtk
  | crossSigning
  deriving DecidableEq

/-- A column-family keyed store of values of type `ν`. -/
def Store (ν : Type) : Type := Cf → SortedMap Str ν

namespace Store

variable {ν : Type}

/-- The store with nothing in it. -/
def empty : Store ν := fun _ => SortedMap.empty

/-- Insert or overwrite a key of a family. -/
def put (s : Store ν) (cf : Cf) (key : Str) (value : ν) : Store ν :=
  fun cf' => if cf' = cf then (s cf).insert key value else s cf'

/-- Remove a key of a family. -/
def delete (s : Store ν) (cf : Cf) (key : Str) : Store ν :=
  fun cf' => if cf' = cf then (s cf).erase key else s cf'

def get (s : Store ν) (cf : Cf) (key : Str) : Option ν := (s cf).get key

/-- All entries of a family, in key order. -/
def scan (s : Store ν) (cf : Cf) : List (Str × ν) := (s cf).entries

/-- The number of entries of a family. -/
def count (s : Store ν) (cf : Cf) : Nat := (s cf).size

@[simp] theorem put_self (s : Store ν) (cf : Cf) (key : Str) (value : ν) :
    s.put cf key value cf = (s cf).insert key value :=
  if_pos rfl

@[simp] theorem put_of_ne (s : Store ν) {cf cf' : Cf} (h : cf' ≠ cf) (key : Str) (value : ν) :
    s.put cf key value cf' = s cf' :=
  if_neg h

theorem get_put (s : Store ν) (cf : Cf) (key key' : Str) (value : ν) :
    (s.put cf key value).get cf key' = if key' = key then some value else s.get cf key' := by
  rw [get, put_self]
  by_cases h : key' = key
  · rw [h, SortedMap.get_insert_self, if_pos rfl]
  · rw [SortedMap.get_insert_ne _ h, if_neg h, get]

theorem get_delete (s : Store ν) (cf : Cf) (key key' : Str) :
    (s.delete cf key).get cf key' = if key' = key then none else s.get cf key' := by
  have hself : s.delete cf key cf = (s cf).erase key := if_pos rfl
  rw [get, hself, SortedMap.get_erase]
  by_cases h : key' = key
  · rw [if_pos h, if_pos h]
  · rw [if_neg h, if_neg h, get]

/-- After a list of writes to a family, a key holds what the last write to it put there. -/
theorem get_foldl_put {ι : Type} (s : Store ν) (cf : Cf) (key : ι → Str) (value : ι → ν)
    (writes : List ι) (k : Str) :
    (writes.foldl (fun s w => s.put cf (key w) (value w)) s).get cf k =
      ((writes.reverse.find? fun w => key w = k).map value).or (s.get cf k) := by
  induction writes generalizing s with
  | nil => rfl
  | cons w writes ih =>
      rw [List.foldl_cons, ih, List.reverse_cons, List.find?_append, get_put]
      cases writes.reverse.find? fun w => key w = k with
      | some later => rfl
      | none =>
          by_cases hkey : key w = k
          · simp [hkey]
          · simp [hkey, Ne.symm hkey]

end Store

end GaussMatrix
