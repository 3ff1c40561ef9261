import Mathlib

/-!
# Hash chains

Entries that each carry a hash of their own and the hash of the entry before.  Where a hash stands for
one entry only and none is the genesis hash, the last entry of a chain determines all of it.
-/

namespace GaussMatrix.Library

variable {ε η : Type}

/-- Each entry carries the hash of the one before, the first one the genesis hash. -/
def Linked (prev hash : ε → η) : η → List ε → Prop
  | _, [] => True
  | genesis, e :: es => prev e = genesis ∧ Linked prev hash (hash e) es

/-- The hash that the next entry carries. -/
def tipHash (hash : ε → η) (genesis : η) (es : List ε) : η := (es.getLast?.map hash).getD genesis

variable {prev hash : ε → η} {genesis : η}

@[simp] theorem tipHash_nil : tipHash hash genesis [] = genesis := rfl

@[simp] theorem tipHash_concat (es : List ε) (e : ε) :
    tipHash hash genesis (es ++ [e]) = hash e := by
  rw [tipHash, List.getLast?_concat]
  rfl

theorem linked_concat {es : List ε} {e : ε} :
    Linked prev hash genesis (es ++ [e]) ↔
      Linked prev hash genesis es ∧ prev e = tipHash hash genesis es := by
  induction es generalizing genesis with
  | nil => simp [Linked]
  | cons first es ih =>
      have htip : tipHash hash genesis (first :: es) = tipHash hash (hash first) es := by
        rw [tipHash, tipHash, List.getLast?_cons]
        cases es.getLast? with
        | none => rfl
        | some last => rfl
      rw [List.cons_append, Linked, Linked, ih, htip, and_assoc]

/-- Two chains with one last entry are the same chain. -/
theorem Linked.eq_of_getLast? {es fs : List ε} (hes : Linked prev hash genesis es)
    (hfs : Linked prev hash genesis fs)
    (hinj : ∀ e ∈ es ++ fs, ∀ f ∈ es ++ fs, hash e = hash f → e = f)
    (hgenesis : ∀ e ∈ es ++ fs, hash e ≠ genesis) (hlast : es.getLast? = fs.getLast?) :
    es = fs := by
  induction es using List.reverseRecOn generalizing fs with
  | nil =>
      rw [List.getLast?_nil, eq_comm, List.getLast?_eq_none_iff] at hlast
      exact hlast.symm
  | append_singleton es last ih =>
      obtain ⟨fs, rfl⟩ : ∃ fs', fs = fs' ++ [last] := by
        rw [List.getLast?_concat, eq_comm, List.getLast?_eq_some_iff] at hlast
        exact hlast
      rw [linked_concat] at hes hfs
      have htip : tipHash hash genesis es = tipHash hash genesis fs := hes.2.symm.trans hfs.2
      have hsub : ∀ e ∈ es ++ fs, e ∈ (es ++ [last]) ++ (fs ++ [last]) := by
        intro e he
        simp only [List.mem_append] at he ⊢
        tauto
      -- the entries before the last one agree: both missing, or of one hash
      have hbefore : es.getLast? = fs.getLast? := by
        cases he : es.getLast? with
        | none =>
            cases hf : fs.getLast? with
            | none => rfl
            | some f =>
                rw [tipHash, tipHash, he, hf] at htip
                have hmem := hsub f (List.mem_append_right _ (List.mem_of_getLast? hf))
                exact absurd htip.symm (hgenesis f hmem)
        | some e =>
            have hemem := hsub e (List.mem_append_left _ (List.mem_of_getLast? he))
            cases hf : fs.getLast? with
            | none =>
                rw [tipHash, tipHash, he, hf] at htip
                exact absurd htip (hgenesis e hemem)
            | some f =>
                rw [tipHash, tipHash, he, hf] at htip
                have hfmem := hsub f (List.mem_append_right _ (List.mem_of_getLast? hf))
                rw [hinj e hemem f hfmem htip]
      have heq := ih hes.1 hfs.1 (fun e he f hf => hinj e (hsub e he) f (hsub f hf))
        (fun e he => hgenesis e (hsub e he)) hbefore
      rw [heq]

end GaussMatrix.Library
