import GaussMatrix.Library.Runs

/-!
# Hashes that run over blocks

A hash folds a step over the blocks of the padded message, from a fixed state.  The padding ends with
the length of the message, so no padded message is the end of another one: two messages with the same
hash are the same, or hashing them takes two different steps to one state.
-/

namespace GaussMatrix.Library

/-! ## Steps that collide -/

section

variable {σ β : Type} {step : σ → β → σ} {s : σ} {xs ys : List β}

/-- The runs over two lists take different steps to one state. -/
def Collides (step : σ → β → σ) (s : σ) (xs ys : List β) : Prop :=
  ∃ x ∈ trace step s xs, ∃ y ∈ trace step s ys, x ≠ y ∧ step x.1 x.2 = step y.1 y.2

theorem Collides.append (h : Collides step s xs ys) (xs' ys' : List β) :
    Collides step s (xs ++ xs') (ys ++ ys') := by
  obtain ⟨x, hx, y, hy, hne, heq⟩ := h
  refine ⟨x, ?_, y, ?_, hne, heq⟩
  · rw [trace_append]
    exact List.mem_append_left _ hx
  · rw [trace_append]
    exact List.mem_append_left _ hy

/-- Backwards from one state the steps are the same until one of the lists is used up, or two different
steps meet. -/
theorem suffix_or_collides (h : run step s xs = run step s ys) :
    xs <:+ ys ∨ ys <:+ xs ∨ Collides step s xs ys := by
  induction xs using List.reverseRecOn generalizing ys with
  | nil => exact .inl List.nil_suffix
  | append_singleton xs b ih =>
      rcases List.eq_nil_or_concat ys with rfl | ⟨ys, c, rfl⟩
      · exact .inr (.inl List.nil_suffix)
      · rw [List.concat_eq_append] at h ⊢
        rw [run_append, run_append] at h
        by_cases hlast : (run step s xs, b) = (run step s ys, c)
        · obtain ⟨hstate, rfl⟩ := Prod.mk.inj hlast
          rw [List.suffix_append_self_iff, List.suffix_append_self_iff]
          exact (ih hstate).imp_right fun hrest => hrest.imp_right fun hmeet => hmeet.append _ _
        · refine .inr (.inr ⟨_, ?_, _, ?_, hlast, h⟩)
          · rw [trace_append]
            exact List.mem_append_right _ List.mem_cons_self
          · rw [trace_append]
            exact List.mem_append_right _ List.mem_cons_self

end

/-! ## Blocks -/

section

variable {α : Type} {n : Nat} {data data' : List α}

/-- A list in blocks of `n`; what is left over is dropped. -/
def blocksOf (n : Nat) (data : List α) : List (List α) :=
  (List.range (data.length / n)).map fun i => (data.drop (n * i)).take n

theorem flatten_groups (n k : Nat) (data : List α) (h : data.length = n * k) :
    ((List.range k).map fun i => (data.drop (n * i)).take n).flatten = data := by
  induction k generalizing data with
  | zero => exact (List.length_eq_zero_iff.mp h).symm
  | succ k ih =>
      have hrest : (data.drop n).length = n * k := by
        rw [List.length_drop, h, Nat.mul_succ, Nat.add_sub_cancel]
      have hlater : ∀ i, (data.drop (n * (i + 1))).take n = ((data.drop n).drop (n * i)).take n := by
        intro i
        rw [List.drop_drop, Nat.mul_succ, Nat.add_comm]
      rw [List.range_succ_eq_map, List.map_cons, List.map_map, List.flatten_cons]
      simp only [Function.comp_def, Nat.succ_eq_add_one, hlater]
      rw [ih (data.drop n) hrest, Nat.mul_zero, List.drop_zero, List.take_append_drop]

/-- Whole blocks lose nothing. -/
theorem flatten_blocksOf (h : n ∣ data.length) : (blocksOf n data).flatten = data :=
  flatten_groups n _ data (Nat.mul_div_cancel' h).symm

theorem suffix_of_blocksOf (h : n ∣ data.length) (h' : n ∣ data'.length)
    (hsuffix : blocksOf n data <:+ blocksOf n data') : data <:+ data' := by
  obtain ⟨front, hfront⟩ := hsuffix
  refine ⟨front.flatten, ?_⟩
  rw [← flatten_blocksOf h, ← List.flatten_append, hfront, flatten_blocksOf h']

end

/-! ## Padding -/

section

variable {α : Type}

/-- How a message is padded: a mark, a filler so often as the length asks, and the length written
out in a fixed number of places. -/
structure Padding (α : Type) where
  mark : α
  filler : α
  fill : Nat → Nat
  count : Nat → List α
  width : Nat
  width_count : ∀ n, (count n).length = width

def Padding.pad (p : Padding α) (msg : List α) : List α :=
  msg ++ p.mark :: List.replicate (p.fill msg.length) p.filler ++ p.count msg.length

/-- No padded message is the end of another one, as far as the count tells lengths apart. -/
theorem Padding.eq_of_suffix (p : Padding α) {bound : Nat}
    (hcount : Set.InjOn p.count {n | n < bound}) {msg msg' : List α} (h : msg.length < bound)
    (h' : msg'.length < bound) (hsuffix : p.pad msg <:+ p.pad msg') : msg = msg' := by
  obtain ⟨front, hfront⟩ := hsuffix
  rw [pad, pad, ← List.append_assoc] at hfront
  have hwidth : (p.count msg.length).length = (p.count msg'.length).length := by
    rw [p.width_count, p.width_count]
  obtain ⟨hbody, htail⟩ := List.append_inj' hfront hwidth
  have hlength : msg.length = msg'.length := hcount h h' htail
  -- with the same count the padding is the same, so nothing stands in front
  have hempty : front.length = 0 := by
    have hsizes := congrArg List.length hbody
    simp only [List.length_append, List.length_cons, List.length_replicate, hlength] at hsizes
    omega
  rw [List.length_eq_zero_iff.mp hempty, List.nil_append] at hbody
  exact (List.append_inj hbody hlength).1

variable {σ : Type} {step : σ → List α → σ} {s : σ} {n bound : Nat}

/-- Two messages with the same hash are the same, or hashing them takes two different steps to one
state. -/
theorem Padding.eq_or_collides (p : Padding α) (hblocks : ∀ msg, n ∣ (p.pad msg).length)
    (hcount : Set.InjOn p.count {n | n < bound}) {msg msg' : List α} (h : msg.length < bound)
    (h' : msg'.length < bound)
    (hsame : run step s (blocksOf n (p.pad msg)) = run step s (blocksOf n (p.pad msg'))) :
    msg = msg' ∨ Collides step s (blocksOf n (p.pad msg)) (blocksOf n (p.pad msg')) := by
  rcases suffix_or_collides hsame with hsuffix | hsuffix | hcollides
  · exact .inl (p.eq_of_suffix hcount h h' (suffix_of_blocksOf (hblocks _) (hblocks _) hsuffix))
  · exact .inl (p.eq_of_suffix hcount h' h
      (suffix_of_blocksOf (hblocks _) (hblocks _) hsuffix)).symm
  · exact .inr hcollides

end

end GaussMatrix.Library
