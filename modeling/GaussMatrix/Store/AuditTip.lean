import GaussMatrix.Store.Audit

/-!
# The audit tip

The last entry of a log that verifies commits to the entries before it.  A record with a separator in
its text can show as an entry of its author's making, and with it as the tip a log that verifies may
lack the entries before.
-/

namespace GaussMatrix.Audit

open Library

/-- Among the entries a digest stands for one actor, event and hash before, and is not the genesis
hash. -/
structure CollisionFree (digest : Digest) (es : List AuditEntry) : Prop where
  inj : ∀ e ∈ es, ∀ f ∈ es, digest e.actor e.event e.prevHash = digest f.actor f.event f.prevHash →
    e.actor = f.actor ∧ e.event = f.event ∧ e.prevHash = f.prevHash
  ne_zero : ∀ e ∈ es, digest e.actor e.event e.prevHash ≠ 0

instance (digest : Digest) (es : List AuditEntry) : Decidable (CollisionFree digest es) :=
  decidable_of_iff ((∀ e ∈ es, ∀ f ∈ es,
      digest e.actor e.event e.prevHash = digest f.actor f.event f.prevHash →
        e.actor = f.actor ∧ e.event = f.event ∧ e.prevHash = f.prevHash) ∧
      ∀ e ∈ es, digest e.actor e.event e.prevHash ≠ 0)
    ⟨fun h => ⟨h.1, h.2⟩, fun h => ⟨h.inj, h.ne_zero⟩⟩

theorem Chained.eq_of_getLast? {digest : Digest} {es fs : List AuditEntry}
    (hes : Chained digest es) (hfs : Chained digest fs) (hfree : CollisionFree digest (es ++ fs))
    (hlast : es.getLast? = fs.getLast?) : es = fs := by
  have hsealed : ∀ e ∈ es ++ fs, Sealed digest e := by
    intro e he
    rcases List.mem_append.mp he with he | he
    · exact hes.2 e he
    · exact hfs.2 e he
  apply hes.1.eq_of_getLast? hfs.1 _ _ hlast
  · intro e he f hf heq
    have hdigest : digest e.actor e.event e.prevHash = digest f.actor f.event f.prevHash := by
      rw [← hsealed e he, ← hsealed f hf, heq]
    obtain ⟨hactor, hevent, hprev⟩ := hfree.inj e he f hf hdigest
    cases e
    cases f
    simp_all
  · intro e he hzero
    have hseal : e.hash = digest e.actor e.event e.prevHash := hsealed e he
    exact hfree.ne_zero e he (hseal.symm.trans hzero)

/-! ## A log with given entries -/

/-- Rows with the entries, under keys of growing length. -/
def rowsFrom : Nat → List AuditEntry → List (Str × Bytes)
  | _, [] => []
  | i, e :: es => (List.replicate i 'a', .utf8 (encode e)) :: rowsFrom (i + 1) es

theorem replicate_lt_replicate {i j : Nat} (h : i < j) :
    List.replicate i 'a' < List.replicate j 'a' := by
  induction i generalizing j with
  | zero =>
      obtain ⟨j, rfl⟩ := Nat.exists_eq_succ_of_ne_zero (Nat.pos_iff_ne_zero.mp h)
      exact List.nil_lt_cons 'a' _
  | succ i ih =>
      obtain ⟨j, rfl⟩ := Nat.exists_eq_succ_of_ne_zero (Nat.ne_of_gt (Nat.zero_lt_of_lt h))
      rw [List.replicate_succ, List.replicate_succ, List.cons_lt_cons_iff]
      exact .inr ⟨rfl, ih (Nat.lt_of_succ_lt_succ h)⟩

theorem key_of_mem_rowsFrom {i : Nat} {es : List AuditEntry} {row : Str × Bytes}
    (h : row ∈ rowsFrom i es) : ∃ j, i ≤ j ∧ row.1 = List.replicate j 'a' := by
  induction es generalizing i with
  | nil => exact absurd h List.not_mem_nil
  | cons e es ih =>
      rcases List.mem_cons.mp h with rfl | h
      · exact ⟨i, Nat.le_refl i, rfl⟩
      · obtain ⟨j, hj, hkey⟩ := ih h
        exact ⟨j, by omega, hkey⟩

theorem sorted_rowsFrom (i : Nat) (es : List AuditEntry) : SortedList.Sorted (rowsFrom i es) := by
  induction es generalizing i with
  | nil => exact List.Pairwise.nil
  | cons e es ih =>
      rw [rowsFrom, SortedList.Sorted, List.pairwise_cons]
      refine ⟨fun row hrow => ?_, ih (i + 1)⟩
      obtain ⟨j, hj, hkey⟩ := key_of_mem_rowsFrom hrow
      rw [hkey]
      exact replicate_lt_replicate (by omega)

/-- A store whose audit family has rows for the entries. -/
def storeOf (es : List AuditEntry) : Store Bytes :=
  fun cf => if cf = .auditLog then ⟨rowsFrom 0 es, sorted_rowsFrom 0 es⟩ else SortedMap.empty

/-- The entry keeps to its row: its texts have no separator. -/
def Plain (e : AuditEntry) : Prop := sep ∉ e.actor ∧ sep ∉ e.event

theorem entries_storeOf {es : List AuditEntry} (h : ∀ e ∈ es, Plain e) :
    entries (storeOf es) = es := by
  have hrows : ∀ i, (rowsFrom i es).filterMap (fun row => row.2.fromUtf8.bind decode) = es := by
    induction es with
    | nil => exact fun _ => rfl
    | cons e es ih =>
        intro i
        rw [List.forall_mem_cons] at h
        have hdecode : (Bytes.utf8 (encode e)).fromUtf8.bind decode = some e :=
          decode_encode h.1.1 h.1.2
        rw [rowsFrom, List.filterMap_cons, hdecode]
        exact congrArg (e :: ·) (ih h.2 (i + 1))
  exact hrows 0

/-! ## What the tip commits to -/

/-- A chain of entries that can be stored, free of collisions with the entries, ends where they end. -/
def EndsChain (digest : Digest) (es : List AuditEntry) : Prop :=
  ∃ chain : List AuditEntry, chain.getLast? = es.getLast? ∧ Chained digest chain ∧
    (∀ e ∈ chain, Plain e) ∧ CollisionFree digest (es ++ chain)

/-- A log stands as the only one that verifies with its last entry exactly when it verifies itself, or
nothing that ends with this entry does. -/
theorem audit_tip_commits_iff (digest : Digest) (records : List (Str × Str)) :
    let s := appendAll digest Store.empty records
    (∀ s' : Store Bytes, CollisionFree digest (entries s ++ entries s') →
      (entries s').getLast? = (entries s).getLast? → verify digest s' = .ok () →
        entries s' = entries s) ↔
      (verify digest s = .ok () ∨ ¬ EndsChain digest (entries s)) := by
  intro s
  constructor
  · intro h
    rw [or_iff_not_imp_right, not_not]
    rintro ⟨chain, hlast, hchained, hplain, hfree⟩
    -- the chain, written out as a log, is the log's own
    have hentries : entries (storeOf chain) = chain := entries_storeOf hplain
    have hsame := h (storeOf chain) (by rw [hentries]; exact hfree) (by rw [hentries]; exact hlast)
      (by rw [verify_eq_ok_iff, hentries]; exact hchained)
    rw [verify_eq_ok_iff, ← hsame, hentries]
    exact hchained
  · intro h s' hfree hlast hverify
    rw [verify_eq_ok_iff] at hverify
    rcases h with h | h
    · rw [verify_eq_ok_iff] at h
      exact (h.eq_of_getLast? hverify hfree hlast.symm).symm
    · refine absurd ⟨entries s', hlast, hverify, fun e he => ?_, hfree⟩ h
      obtain ⟨row, -, hrow⟩ := List.mem_filterMap.mp he
      obtain ⟨text, -, hdecode⟩ := Option.bind_eq_some_iff.mp hrow
      exact sep_not_mem_of_decode hdecode

namespace SampleLog

/-- A digest that sums up its input. -/
def sumDigest : Digest := fun actor event prevHash =>
  UInt64.ofNat (1 + (actor.map Char.toNat).sum + 256 * (event.map Char.toNat).sum) + 65536 * prevHash

/-- Two records, the second with the rest of a row in its text. -/
def forgingRecords : List (Str × Str) :=
  [("a", "b"), ("x", "y".toList ++ sep :: ('0' :: sep :: decimal (sumDigest "x" "y" 0).toNat))]

end SampleLog

open SampleLog in
/-- The row of the first record is deleted, and the log verifies with the last entry as before. -/
theorem audit_tip_forged :
    ¬ ∀ (digest : Digest) (records : List (Str × Str)) (s' : Store Bytes),
      CollisionFree digest (entries (appendAll digest Store.empty records) ++ entries s') →
        (entries s').getLast? = (entries (appendAll digest Store.empty records)).getLast? →
          verify digest s' = .ok () →
            entries s' = entries (appendAll digest Store.empty records) := by
  intro h
  have hlogs := h sumDigest forgingRecords
    ((appendAll sumDigest Store.empty forgingRecords).delete .auditLog (seqKey 0))
    (by decide +kernel) (by decide +kernel) (by decide +kernel)
  revert hlogs
  decide +kernel

end GaussMatrix.Audit
