import Mathlib

/-!
# Topological orders

Orders in which each element comes after its parents.  In such an order an element comes after all
its ancestors, and where no element is its own ancestor there is always one to go on with.
-/

namespace GaussMatrix.Library

variable {α : Type} {parents : α → List α}

/-- `a` is reached from `b` by going from elements to their parents, at least once. -/
def Ancestor (parents : α → List α) (b a : α) : Prop :=
  Relation.TransGen (fun x y => y ∈ parents x) b a

theorem Ancestor.mono {parents' : α → List α} {a b : α} (h : Ancestor parents b a)
    (hsub : ∀ c, parents c ⊆ parents' c) : Ancestor parents' b a := by
  induction h with
  | single hparent => exact .single (hsub _ hparent)
  | tail _ hparent ih => exact .tail ih (hsub _ hparent)

/-- Before each element of the order stand all its parents. -/
def ParentsFirst (parents : α → List α) (order : List α) : Prop :=
  ∀ before b after, order = before ++ b :: after → ∀ a ∈ parents b, a ∈ before

theorem parentsFirst_nil : ParentsFirst parents [] := by
  intro before b after h
  cases before with
  | nil => cases h
  | cons c before => cases h

/-- An element whose parents are all placed can be placed next. -/
theorem ParentsFirst.concat {order : List α} {next : α} (h : ParentsFirst parents order)
    (hnext : ∀ a ∈ parents next, a ∈ order) : ParentsFirst parents (order ++ [next]) := by
  intro before b after hsplit a ha
  rcases List.eq_nil_or_concat after with rfl | ⟨after, last, rfl⟩
  · obtain ⟨horder, hlast⟩ := List.append_inj' hsplit rfl
    have hb : next = b := (List.cons.inj hlast).1
    rw [← horder]
    exact hnext a (hb ▸ ha)
  · rw [List.concat_eq_append, ← List.cons_append, ← List.append_assoc] at hsplit
    exact h before b after (List.append_inj' hsplit rfl).1 a ha

section

variable [DecidableEq α] {order : List α} {a b : α}

theorem ParentsFirst.idxOf_lt (h : ParentsFirst parents order) (hnodup : order.Nodup)
    (hb : b ∈ order) (ha : a ∈ parents b) : order.idxOf a < order.idxOf b := by
  obtain ⟨before, after, hsplit⟩ := List.append_of_mem hb
  have hbefore := h before b after hsplit a ha
  rw [hsplit] at hnodup
  have hnew : b ∉ before := by
    intro hmem
    exact (List.nodup_append.mp hnodup).2.2 b hmem b List.mem_cons_self rfl
  rw [hsplit, List.idxOf_append_of_mem hbefore, List.idxOf_append_of_notMem hnew,
    List.idxOf_cons_self]
  have hlt := List.idxOf_lt_length_of_mem hbefore
  omega

/-- An ancestor of an element of the order stands before it. -/
theorem ParentsFirst.idxOf_lt_of_ancestor (h : ParentsFirst parents order)
    (hnodup : order.Nodup) (hb : b ∈ order) (hab : Ancestor parents b a) :
    order.idxOf a < order.idxOf b := by
  induction hab with
  | single hparent => exact h.idxOf_lt hnodup hb hparent
  | tail _ hparent ih =>
      have hmem := List.idxOf_lt_length_iff.mp (ih.trans (List.idxOf_lt_length_of_mem hb))
      exact (h.idxOf_lt hnodup hmem hparent).trans ih

end

/-- Among finitely many elements, none its own ancestor, some element has no parent. -/
theorem exists_without_parent {left : List α} (hne : left ≠ [])
    (hacyclic : ∀ a, ¬ Ancestor parents a a) : ∃ b ∈ left, ∀ a ∈ parents b, a ∉ left := by
  have hirrefl : Std.Irrefl (fun a b : α => Ancestor parents b a) := ⟨hacyclic⟩
  have htrans : IsTrans α (fun a b => Ancestor parents b a) :=
    ⟨fun _ _ _ hab hbc => Relation.TransGen.trans hbc hab⟩
  have hstrict : IsStrictOrder α (fun a b => Ancestor parents b a) := {}
  have hwf : ({x | x ∈ left} : Set α).WellFoundedOn (fun a b => Ancestor parents b a) :=
    left.finite_toSet.wellFoundedOn
  obtain ⟨c, hc⟩ := List.exists_mem_of_ne_nil left hne
  obtain ⟨⟨b, hb⟩, -, hmin⟩ := hwf.has_min Set.univ ⟨⟨c, hc⟩, trivial⟩
  refine ⟨b, hb, fun a ha hleft => ?_⟩
  exact hmin ⟨a, hleft⟩ trivial (Relation.TransGen.single ha)

/-- Parents of smaller rank leave no cycle. -/
theorem not_ancestor_self {rank : α → Nat} (h : ∀ b, ∀ a ∈ parents b, rank a < rank b) (a : α) :
    ¬ Ancestor parents a a := by
  have hrank : ∀ {b c : α}, Ancestor parents b c → rank c < rank b := by
    intro b c hbc
    induction hbc with
    | single hparent => exact h _ _ hparent
    | tail _ hparent ih => exact (h _ _ hparent).trans ih
  exact fun hself => absurd (hrank hself) (lt_irrefl _)

end GaussMatrix.Library
