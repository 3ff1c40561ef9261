import GaussMatrix.Api.JsonText
import GaussMatrix.Api.Pdu

/-!
# The fields of an object

Looking up a field of an object that was built from a list of fields, redacted, stripped of a field
or written.
-/

namespace GaussMatrix.Api

open Library

namespace Json

theorem lookup_insert (k k' : Str) (v : Json) (fields : List (Str × Json)) :
    (SortedList.insert k v fields).lookup k' = if k' = k then some v else fields.lookup k' := by
  by_cases h : k' = k
  · rw [if_pos h, h]
    convert SortedList.lookup_insert_self k v fields
  · rw [if_neg h]
    convert SortedList.lookup_insert_ne h v fields

theorem lookup_cons (k k' : Str) (v : Json) (fields : List (Str × Json)) :
    List.lookup k' ((k, v) :: fields) = if k' = k then some v else fields.lookup k' := by
  by_cases h : k' = k
  · rw [if_pos h, h, List.lookup_cons_self]
  · rw [if_neg h, List.lookup_cons, beq_false_of_ne h]

theorem lookup_insertFields {fields : List (Str × Json)} (hnodup : (fields.map Prod.fst).Nodup)
    (acc : List (Str × Json)) (k : Str) :
    (fields.foldl (fun m f => SortedList.insert f.1 f.2 m) acc).lookup k =
      (fields.lookup k).or (acc.lookup k) := by
  induction fields generalizing acc with
  | nil => rfl
  | cons f fields ih =>
      obtain ⟨l, v⟩ := f
      obtain ⟨hnew, hnodup⟩ := List.nodup_cons.mp hnodup
      rw [List.foldl_cons, ih hnodup, lookup_cons, lookup_insert]
      by_cases hk : k = l
      · have hnone : fields.lookup k = none := by
          rw [List.lookup_eq_none_iff]
          intro f hf
          have hne : k ≠ f.1 := by
            intro heq
            apply hnew
            rw [← hk, heq]
            exact List.mem_map.mpr ⟨f, hf, rfl⟩
          exact bne_iff_ne.mpr hne
        rw [if_pos hk, if_pos hk, hnone]
        rfl
      · rw [if_neg hk, if_neg hk]

/-- A field of an object built from fields with different keys. -/
theorem get_ofFields {fields : List (Str × Json)} (hnodup : (fields.map Prod.fst).Nodup) (k : Str) :
    (ofFields fields).get k = fields.lookup k := by
  show (fields.foldl _ []).lookup k = fields.lookup k
  rw [lookup_insertFields hnodup]
  exact Option.or_none

theorem mem_insertFields {fields acc : List (Str × Json)} {f : Str × Json}
    (h : f ∈ fields.foldl (fun m f => SortedList.insert f.1 f.2 m) acc) : f ∈ fields ∨ f ∈ acc := by
  induction fields generalizing acc with
  | nil => exact .inr h
  | cons g fields ih =>
      rcases ih h with h | h
      · exact .inl (List.mem_cons_of_mem g h)
      · rcases SortedList.mem_insert h with rfl | h
        · exact .inl List.mem_cons_self
        · exact .inr h

theorem sorted_insertFields {fields acc : List (Str × Json)} (h : SortedList.Sorted acc) :
    SortedList.Sorted (fields.foldl (fun m f => SortedList.insert f.1 f.2 m) acc) := by
  induction fields generalizing acc with
  | nil => exact h
  | cons f fields ih => exact ih (SortedList.sorted_insert f.1 f.2 h)

theorem nestingFields_le_iff {fields : List (Str × Json)} {n : Nat} :
    nestingFields fields ≤ n ↔ ∀ f ∈ fields, f.2.nesting + 1 ≤ n := by
  induction fields with
  | nil => simp [nestingFields]
  | cons f fields ih =>
      rw [nestingFields, Nat.max_le, ih, List.forall_mem_cons]

theorem nestingItems_le_iff {items : List Json} {n : Nat} :
    nestingItems items ≤ n ↔ ∀ item ∈ items, item.nesting + 1 ≤ n := by
  induction items with
  | nil => simp [nestingItems]
  | cons item items ih =>
      rw [nestingItems, Nat.max_le, ih, List.forall_mem_cons]

/-- An object is as deep as its deepest field asks for. -/
theorem nesting_ofFields_le_iff {fields : List (Str × Json)}
    (hnodup : (fields.map Prod.fst).Nodup) {n : Nat} :
    (ofFields fields).nesting ≤ n ↔ ∀ f ∈ fields, f.2.nesting + 1 ≤ n := by
  show nestingFields _ ≤ n ↔ _
  rw [nestingFields_le_iff]
  constructor
  · intro h f hf
    obtain ⟨k, v⟩ := f
    have hfound : (fields.foldl (fun m f => SortedList.insert f.1 f.2 m) []).lookup k = some v := by
      rw [lookup_insertFields hnodup, List.lookup_nil, Option.or_none,
        SortedList.lookup_eq_some_iff_mem]
      · exact hf
      · intro v₁ v₂ h₁ h₂
        exact (Prod.mk.inj (List.inj_on_of_nodup_map hnodup h₁ h₂ rfl)).2
    obtain ⟨l₁, l₂, hsplit, -⟩ := List.lookup_eq_some_iff.mp hfound
    exact h (k, v) (by rw [hsplit]; simp)
  · intro h f hf
    rcases mem_insertFields hf with hf | hf
    · exact h f hf
    · cases hf

theorem ordered_ofFields {fields : List (Str × Json)} (h : ∀ f ∈ fields, Ordered f.2) :
    Ordered (ofFields fields) := by
  refine everywhere_object.mpr ⟨decide_eq_true (sorted_insertFields List.Pairwise.nil), ?_⟩
  intro f hf
  rcases mem_insertFields hf with hf | hf
  · exact h f hf
  · cases hf

theorem lookup_erase (k k' : Str) (fields : List (Str × Json)) :
    (SortedList.erase k fields).lookup k' = if k' = k then none else fields.lookup k' := by
  induction fields with
  | nil => exact (ite_self none).symm
  | cons f fields ih =>
      obtain ⟨l, v⟩ := f
      rw [SortedList.erase] at ih ⊢
      rw [lookup_cons]
      by_cases hl : l = k
      · rw [List.filter_cons_of_neg (by simp [hl]), ih, hl]
        by_cases hk : k' = k
        · rw [if_pos hk, if_pos hk]
        · rw [if_neg hk, if_neg hk, if_neg hk]
      · rw [List.filter_cons_of_pos (by simp [hl]), lookup_cons, ih]
        by_cases hk : k' = l
        · have hne : k' ≠ k := fun heq => hl (hk ▸ heq)
          rw [if_pos hk, if_neg hne, if_pos hk]
        · rw [if_neg hk, if_neg hk]

theorem lookup_writtenFields (fields : List (Str × Json)) (k : Str) :
    (writtenFields fields).lookup k = (fields.lookup k).map written := by
  induction fields with
  | nil => rfl
  | cons f fields ih =>
      obtain ⟨l, v⟩ := f
      rw [writtenFields, lookup_cons, lookup_cons, ih]
      split <;> rfl

/-- A field of what a written object reads as. -/
theorem get_written (v : Json) (k : Str) : v.written.get k = (v.get k).map written := by
  cases v with
  | object fields => exact lookup_writtenFields fields k
  | null => rfl
  | bool b => rfl
  | number n => rfl
  | string s => rfl
  | array items => rfl

end Json

/-- One turn of the loop of `keepKeys`. -/
def keepKey (obj out : List (Str × Json)) (key : Str) : List (Str × Json) :=
  match obj.lookup key with
  | some value => SortedList.insert key value out
  | none => out

theorem keepKeys_eq_foldl (obj : List (Str × Json)) (keys : List Str) :
    keepKeys obj keys = keys.foldl (keepKey obj) [] := rfl

theorem lookup_keepKey (obj out : List (Str × Json)) (key k : Str) :
    (keepKey obj out key).lookup k =
      if k = key then (obj.lookup k).or (out.lookup k) else out.lookup k := by
  unfold keepKey
  by_cases hkey : k = key
  · subst hkey
    rw [if_pos rfl]
    cases obj.lookup k with
    | none => rfl
    | some value => exact (Json.lookup_insert k k value out).trans (if_pos rfl)
  · rw [if_neg hkey]
    cases obj.lookup key with
    | none => rfl
    | some value => exact (Json.lookup_insert key k value out).trans (if_neg hkey)

theorem mem_keepKey {obj out : List (Str × Json)} {key : Str} {f : Str × Json}
    (h : f ∈ keepKey obj out key) : (f.1 = key ∧ obj.lookup f.1 = some f.2) ∨ f ∈ out := by
  unfold keepKey at h
  cases hkey : obj.lookup key with
  | none =>
      rw [hkey] at h
      exact .inr h
  | some value =>
      rw [hkey] at h
      rcases SortedList.mem_insert h with rfl | h
      · exact .inl ⟨rfl, hkey⟩
      · exact .inr h

theorem sorted_keepKey (obj : List (Str × Json)) (key : Str) {out : List (Str × Json)}
    (hout : SortedList.Sorted out) : SortedList.Sorted (keepKey obj out key) := by
  unfold keepKey
  cases obj.lookup key with
  | none => exact hout
  | some value => exact SortedList.sorted_insert key value hout

/-- Once a key has been met the result has it, and no other key touches it. -/
theorem lookup_foldl_keepKey (obj : List (Str × Json)) (keys : List Str) (k : Str) :
    ∀ out, (keys.foldl (keepKey obj) out).lookup k =
      if k ∈ keys then (obj.lookup k).or (out.lookup k) else out.lookup k := by
  induction keys with
  | nil =>
      intro out
      rw [if_neg List.not_mem_nil]
      rfl
  | cons key keys ih =>
      intro out
      rw [List.foldl_cons, ih, lookup_keepKey]
      by_cases hkey : k = key
      · have hmem : k ∈ key :: keys := List.mem_cons.mpr (.inl hkey)
        rw [if_pos hkey, if_pos hmem, ← Option.or_assoc, Option.or_self, ite_self]
      · have hmem : k ∈ key :: keys ↔ k ∈ keys := by simp [hkey]
        simp only [hmem, if_neg hkey]

theorem lookup_keepKeys (obj : List (Str × Json)) {keys : List Str} {k : Str} (hk : k ∈ keys) :
    (keepKeys obj keys).lookup k = obj.lookup k := by
  rw [keepKeys_eq_foldl, lookup_foldl_keepKey, if_pos hk, List.lookup_nil, Option.or_none]

theorem mem_keepKeys {obj : List (Str × Json)} {keys : List Str} {f : Str × Json}
    (h : f ∈ keepKeys obj keys) : f.1 ∈ keys ∧ obj.lookup f.1 = some f.2 := by
  have hrun : ∀ (todo : List Str) (out : List (Str × Json)), (∀ key ∈ todo, key ∈ keys) →
      (∀ g ∈ out, g.1 ∈ keys ∧ obj.lookup g.1 = some g.2) →
      ∀ g ∈ todo.foldl (keepKey obj) out, g.1 ∈ keys ∧ obj.lookup g.1 = some g.2 := by
    intro todo
    induction todo with
    | nil => exact fun out _ hout => hout
    | cons key todo ih =>
        intro out htodo hout
        obtain ⟨hkeys, htodo⟩ := List.forall_mem_cons.mp htodo
        apply ih _ htodo
        intro g hg
        rcases mem_keepKey hg with hnew | hg
        · exact ⟨by rwa [hnew.1], hnew.2⟩
        · exact hout g hg
  exact hrun keys [] (fun _ h => h) (fun _ h => absurd h List.not_mem_nil) f h

theorem sorted_keepKeys (obj : List (Str × Json)) (keys : List Str) :
    SortedList.Sorted (keepKeys obj keys) := by
  have hrun : ∀ (keys : List Str) (out : List (Str × Json)), SortedList.Sorted out →
      SortedList.Sorted (keys.foldl (keepKey obj) out) := by
    intro keys
    induction keys with
    | nil => exact fun out hout => hout
    | cons key keys ih => exact fun out hout => ih _ (sorted_keepKey obj key hout)
  exact hrun keys [] List.Pairwise.nil

/-- Every field of what is kept. -/
theorem lookup_keepKeys_eq (obj : List (Str × Json)) (keys : List Str) (k : Str) :
    (keepKeys obj keys).lookup k = if k ∈ keys then obj.lookup k else none := by
  by_cases hk : k ∈ keys
  · rw [if_pos hk]
    exact lookup_keepKeys obj hk
  · rw [if_neg hk, Option.eq_none_iff_forall_ne_some]
    intro v hv
    obtain ⟨front, back, hsplit, -⟩ := List.lookup_eq_some_iff.mp hv
    have hmem : (k, v) ∈ keepKeys obj keys := by
      rw [hsplit]
      exact List.mem_append_right front List.mem_cons_self
    exact hk (mem_keepKeys hmem).1

end GaussMatrix.Api
