import GaussMatrix.Store.Audit

/-!
# What the audit log shows

A record whose texts have no separator is shown as it was given.  A record with one is shown with
other texts, or not at all.
-/

namespace GaussMatrix.Audit

open Library

/-- The actor and the event of each entry. -/
def shown (s : Store Bytes) : List (Str × Str) := (entries s).map fun e => (e.actor, e.event)

/-- The log shows exactly the records, and verifies. -/
def Complete (digest : Digest) (s : Store Bytes) (records : List (Str × Str)) : Prop :=
  shown s = records ∧ verify digest s = .ok ()

/-- The texts of the record have no separator. -/
def PlainRecord (r : Str × Str) : Prop := sep ∉ r.1 ∧ sep ∉ r.2

/-- A log whose rows are the records, one each, in their order. -/
structure Keeps (digest : Digest) (s : Store Bytes) (records : List (Str × Str)) : Prop where
  positioned : Positioned s
  count : s.count .auditLog = records.length
  complete : Complete digest s records

section

variable {digest : Digest} {s : Store Bytes} {records : List (Str × Str)} {actor event : Str}

theorem keeps_of_empty (hempty : s.scan .auditLog = []) : Keeps digest s [] := by
  have hentries : entries s = [] := by rw [entries, hempty, List.filterMap_nil]
  constructor
  · intro row hrow
    rw [hempty] at hrow
    exact absurd hrow List.not_mem_nil
  · show (s.scan .auditLog).length = 0
    rw [hempty, List.length_nil]
  · constructor
    · rw [shown, hentries, List.map_nil]
    · rw [verify, hentries]
      rfl

/-- A plain record is added at the end of the log and of its chain. -/
theorem Keeps.append (h : Keeps digest s records) (hlen : records.length < 10 ^ 20)
    (hplain : PlainRecord (actor, event)) :
    Keeps digest (append digest s actor event) (records ++ [(actor, event)]) := by
  have hcount : s.count .auditLog < 10 ^ 20 := by
    rw [h.count]
    exact hlen
  have hentries : entries (Audit.append digest s actor event) =
      entries s ++ [nextEntry digest s actor event] := by
    have hdecode : decode (encode (nextEntry digest s actor event)) =
        some (nextEntry digest s actor event) := decode_encode hplain.1 hplain.2
    rw [entries_append h.positioned hcount, hdecode, Option.toList_some]
  have hchained : Chained digest (entries s) := verify_eq_ok_iff.mp h.complete.2
  constructor
  · exact h.positioned.append hcount
  · rw [count_append h.positioned hcount, h.count, List.length_append, List.length_singleton]
  · constructor
    · rw [shown, hentries, List.map_append, ← shown, h.complete.1]
      rfl
    · rw [verify_eq_ok_iff, hentries]
      exact hchained.concat actor event

theorem keeps_appendAll (hempty : s.scan .auditLog = []) (hlen : records.length < 10 ^ 20)
    (hplain : ∀ r ∈ records, PlainRecord r) :
    Keeps digest (appendAll digest s records) records := by
  induction records using List.reverseRecOn with
  | nil => exact keeps_of_empty hempty
  | append_singleton records r ih =>
      rw [List.length_append, List.length_singleton] at hlen
      rw [List.forall_mem_append] at hplain
      have hbefore := ih (by omega) hplain.1
      rw [appendAll, List.foldl_append]
      exact hbefore.append (by omega) (hplain.2 r (List.mem_singleton_self r))

/-- What is shown has no separator. -/
theorem plainRecord_of_mem_shown {r : Str × Str} (h : r ∈ shown s) : PlainRecord r := by
  obtain ⟨e, he, rfl⟩ := List.mem_map.mp h
  obtain ⟨row, -, hrow⟩ := List.mem_filterMap.mp he
  obtain ⟨text, -, hdecode⟩ := Option.bind_eq_some_iff.mp hrow
  exact sep_not_mem_of_decode hdecode

/-- A log that starts empty shows its records and verifies exactly when none has a separator. -/
theorem complete_appendAll_iff (hempty : s.scan .auditLog = []) (hlen : records.length < 10 ^ 20) :
    Complete digest (appendAll digest s records) records ↔ ∀ r ∈ records, PlainRecord r := by
  constructor
  · rintro ⟨hshown, -⟩ r hr
    rw [← hshown] at hr
    exact plainRecord_of_mem_shown hr
  · exact fun hplain => (keeps_appendAll hempty hlen hplain).complete

end

end GaussMatrix.Audit
