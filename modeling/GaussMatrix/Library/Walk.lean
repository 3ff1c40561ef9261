import Mathlib

/-!
# Walks over finite graphs

Two walks over a graph that is given by a successor function: the chain of a partial successor, and
the set a worklist reaches.  Both take a fuel argument, and for both a bound is proved that makes it
enough.
-/

namespace GaussMatrix.Library

variable {α : Type}

/-! ## The chain of a partial successor -/

/-- The elements from a start along `next`, to the one that has no successor; `none` when `fuel`
elements are not enough. -/
def follow (next : α → Option α) : Nat → Option α → Option (List α)
  | _, none => some []
  | 0, some _ => none
  | fuel + 1, some a => (follow next fuel (next a)).map (a :: ·)

attribute [local simp] follow

variable {next : α → Option α}

theorem follow_succ_some {fuel : Nat} {a : α} {l : List α}
    (h : follow next fuel (some a) = some l) :
    ∃ fuel' l', fuel = fuel' + 1 ∧ l = a :: l' ∧ follow next fuel' (next a) = some l' := by
  cases fuel with
  | zero => simp [follow] at h
  | succ fuel =>
      obtain ⟨l', hl', rfl⟩ := Option.map_eq_some_iff.mp h
      exact ⟨fuel, l', rfl, rfl, hl'⟩

/-- A chain that ends is found with any fuel that covers its length. -/
theorem follow_of_length_le {fuel fuel' : Nat} {start : Option α} {l : List α}
    (h : follow next fuel start = some l) (hle : l.length ≤ fuel') :
    follow next fuel' start = some l := by
  induction l generalizing fuel fuel' start with
  | nil =>
      cases start with
      | none => cases fuel' <;> rfl
      | some a =>
          obtain ⟨_, _, _, hl, _⟩ := follow_succ_some h
          exact absurd hl (by simp)
  | cons b l ih =>
      cases start with
      | none => cases fuel <;> simp [follow] at h
      | some a =>
          obtain ⟨_, l', _, hl, hrest⟩ := follow_succ_some h
          obtain ⟨rfl, rfl⟩ := List.cons.inj hl
          cases fuel' with
          | zero => simp at hle
          | succ n =>
              have hn : l.length ≤ n := by simpa using hle
              rw [follow, ih hrest hn]
              rfl

theorem follow_unique {fuel fuel' : Nat} {start : Option α} {l l' : List α}
    (h : follow next fuel start = some l) (h' : follow next fuel' start = some l') : l = l' := by
  have hl := follow_of_length_le h (le_max_left l.length l'.length)
  have hl' := follow_of_length_le h' (le_max_right l.length l'.length)
  exact Option.some.inj (hl.symm.trans hl')

theorem length_le_of_follow {fuel : Nat} {start : Option α} {l : List α}
    (h : follow next fuel start = some l) : l.length ≤ fuel := by
  induction fuel generalizing start l with
  | zero =>
      cases start with
      | none =>
          obtain rfl := Option.some.inj h
          exact le_rfl
      | some a => simp [follow] at h
  | succ n ih =>
      cases start with
      | none =>
          obtain rfl := Option.some.inj h
          exact Nat.zero_le _
      | some a =>
          obtain ⟨l', hl', rfl⟩ := Option.map_eq_some_iff.mp h
          exact Nat.succ_le_succ (ih hl')

/-- From each element of a chain the rest of the chain is followed. -/
theorem follow_of_mem {fuel : Nat} {start : Option α} {l : List α} {a : α}
    (h : follow next fuel start = some l) (ha : a ∈ l) :
    ∃ l', follow next fuel (some a) = some l' ∧ l'.length ≤ l.length := by
  induction l generalizing fuel start with
  | nil => simp at ha
  | cons b l ih =>
      cases start with
      | none => cases fuel <;> simp [follow] at h
      | some b' =>
          obtain ⟨fuel', l', rfl, hl, hrest⟩ := follow_succ_some h
          obtain ⟨rfl, rfl⟩ := List.cons.inj hl
          rcases List.mem_cons.mp ha with rfl | ha
          · exact ⟨a :: l, h, le_rfl⟩
          · obtain ⟨l'', hl'', hle⟩ := ih hrest ha
            have hfuel := length_le_of_follow hl''
            exact ⟨l'', follow_of_length_le hl'' (by omega), hle.trans (Nat.le_succ _)⟩
/-- A chain that ends meets no element twice. -/
theorem nodup_of_follow {fuel : Nat} {start : Option α} {l : List α}
    (h : follow next fuel start = some l) : l.Nodup := by
  induction l generalizing fuel start with
  | nil => exact List.nodup_nil
  | cons b l ih =>
      cases start with
      | none => cases fuel <;> simp [follow] at h
      | some b' =>
          obtain ⟨fuel', l', rfl, hl, hrest⟩ := follow_succ_some h
          obtain ⟨rfl, rfl⟩ := List.cons.inj hl
          refine List.nodup_cons.mpr ⟨fun hmem => ?_, ih hrest⟩
          obtain ⟨l'', hl'', hle⟩ := follow_of_mem hrest hmem
          have heq := follow_unique hl'' h
          rw [heq, List.length_cons] at hle
          omega

theorem next_isSome_of_mem_dropLast {fuel : Nat} {start : Option α} {l : List α} {a : α}
    (h : follow next fuel start = some l) (ha : a ∈ l.dropLast) : (next a).isSome := by
  induction l generalizing fuel start with
  | nil => simp at ha
  | cons b l ih =>
      cases start with
      | none => cases fuel <;> simp [follow] at h
      | some b' =>
          obtain ⟨fuel', l', rfl, hl, hrest⟩ := follow_succ_some h
          obtain ⟨rfl, rfl⟩ := List.cons.inj hl
          cases l with
          | nil => simp at ha
          | cons c l =>
              rw [List.dropLast_cons_of_ne_nil (by simp)] at ha
              rcases List.mem_cons.mp ha with rfl | ha
              · cases hn : next a with
                | none =>
                    rw [hn] at hrest
                    cases fuel' <;> simp [follow] at hrest
                | some _ => rfl
              · exact ih hrest ha

/-- Where only the elements of `support` have a successor, one step more than `support` has elements
is enough to follow any chain that ends. -/
theorem follow_of_support [DecidableEq α] (support : List α)
    (hsup : ∀ a, (next a).isSome → a ∈ support) {fuel : Nat} {start : Option α} {l : List α}
    (h : follow next fuel start = some l) : follow next (support.length + 1) start = some l := by
  apply follow_of_length_le h
  have hsub : l.dropLast ⊆ support := fun a ha => hsup a (next_isSome_of_mem_dropLast h ha)
  have hnd : l.dropLast.Nodup := (nodup_of_follow h).sublist (List.dropLast_sublist l)
  have hle := (hnd.subperm hsub).length_le
  rw [List.length_dropLast] at hle
  omega

/-! ## The set a worklist reaches -/

section Reach

variable [DecidableEq α] {succs : α → List α}

/-- Pop an element off the worklist and, on its first visit, push its unseen successors. -/
def reachLoop (succs : α → List α) : Nat → List α → List α → List α
  | 0, _, seen => seen
  | _ + 1, [], seen => seen
  | fuel + 1, a :: stack, seen =>
      if a ∈ seen then reachLoop succs fuel stack seen
      else reachLoop succs fuel
        (((succs a).filter (fun b => b ∉ a :: seen)).reverse ++ stack) (a :: seen)

/-- The elements a worklist starting with `roots` visits. -/
def reach (succs : α → List α) (fuel : Nat) (roots : List α) : List α :=
  reachLoop succs fuel roots.reverse []

/-- The pushes that are left: the worklist and the successors of what is not seen yet. -/
def pending (succs : α → List α) (support stack seen : List α) : Nat :=
  stack.length + ((support.filter (· ∉ seen)).map fun a => (succs a).length).sum

theorem pending_visit {support : List α} (hnd : support.Nodup)
    (hsup : ∀ a, a ∉ support → succs a = []) (stack : List α) {a : α} {seen : List α}
    (ha : a ∉ seen) :
    pending succs support (((succs a).filter (fun b => b ∉ a :: seen)).reverse ++ stack)
      (a :: seen) < pending succs support (a :: stack) seen := by
  have hfilter : ((succs a).filter (fun b => b ∉ a :: seen)).length ≤ (succs a).length :=
    List.length_filter_le _ _
  have hsum : ((support.filter (· ∉ a :: seen)).map fun a => (succs a).length).sum +
      (succs a).length ≤ ((support.filter (· ∉ seen)).map fun a => (succs a).length).sum := by
    by_cases hmem : a ∈ support
    · have hperm : (support.filter (· ∉ seen)).Perm (a :: support.filter (· ∉ a :: seen)) := by
        rw [List.perm_ext_iff_of_nodup (hnd.filter _)
          (List.nodup_cons.mpr ⟨by simp, hnd.filter _⟩)]
        intro b
        simp only [List.mem_filter, List.mem_cons, decide_eq_true_eq, not_or]
        by_cases hb : b = a
        · simp [hb, hmem, ha]
        · simp [hb]
      rw [(hperm.map _).sum_eq, List.map_cons, List.sum_cons, Nat.add_comm]
    · have heq : support.filter (· ∉ a :: seen) = support.filter (· ∉ seen) := by
        apply List.filter_congr
        intro b hb
        have hne : b ≠ a := fun h => hmem (h ▸ hb)
        simp [hne]
      rw [heq, hsup a hmem]
      simp
  simp only [pending, List.length_append, List.length_reverse, List.length_cons]
  omega

/-- With enough fuel the loop ends with an empty worklist: what it returns holds the worklist and
what it saw, and is closed under successors. -/
theorem reachLoop_closed {support : List α} (hnd : support.Nodup)
    (hsup : ∀ a, a ∉ support → succs a = []) {fuel : Nat} {stack seen : List α}
    (hfuel : pending succs support stack seen < fuel)
    (hseen : ∀ a ∈ seen, ∀ b ∈ succs a, b ∈ seen ∨ b ∈ stack) :
    (∀ a, a ∈ seen ∨ a ∈ stack → a ∈ reachLoop succs fuel stack seen) ∧
      ∀ a ∈ reachLoop succs fuel stack seen, ∀ b ∈ succs a,
        b ∈ reachLoop succs fuel stack seen := by
  induction fuel generalizing stack seen with
  | zero => omega
  | succ fuel ih =>
      cases stack with
      | nil =>
          simp only [reachLoop]
          exact ⟨by simp, fun a ha b hb => by simpa using hseen a ha b hb⟩
      | cons a stack =>
          simp only [reachLoop]
          split
          · rename_i ha
            -- `a` was seen before, so it is dropped
            have hpend : pending succs support stack seen < fuel := by
              simp only [pending, List.length_cons] at hfuel ⊢
              omega
            obtain ⟨hall, hclosed⟩ := ih hpend (fun x hx b hb => by
              rcases hseen x hx b hb with h | h
              · exact .inl h
              · rcases List.mem_cons.mp h with rfl | h
                · exact .inl ha
                · exact .inr h)
            refine ⟨fun x hx => hall x ?_, hclosed⟩
            rcases hx with hx | hx
            · exact .inl hx
            · rcases List.mem_cons.mp hx with rfl | hx
              · exact .inl ha
              · exact .inr hx
          · rename_i ha
            -- `a` is visited: what it leads to and is new goes on the stack
            have hpend := lt_of_lt_of_le (pending_visit hnd hsup stack ha)
              (Nat.le_of_lt_succ hfuel)
            obtain ⟨hall, hclosed⟩ := ih hpend (fun x hx b hb => by
              by_cases hb' : b ∈ a :: seen
              · exact .inl hb'
              · right
                rcases List.mem_cons.mp hx with rfl | hx
                · refine List.mem_append_left _ (List.mem_reverse.mpr ?_)
                  exact List.mem_filter.mpr ⟨hb, by simpa using hb'⟩
                · rcases hseen x hx b hb with h | h
                  · exact absurd (List.mem_cons_of_mem _ h) hb'
                  · rcases List.mem_cons.mp h with rfl | h
                    · exact absurd List.mem_cons_self hb'
                    · exact List.mem_append_right _ h)
            refine ⟨fun x hx => hall x ?_, hclosed⟩
            rcases hx with hx | hx
            · exact .inl (List.mem_cons_of_mem _ hx)
            · rcases List.mem_cons.mp hx with rfl | hx
              · exact .inl List.mem_cons_self
              · exact .inr (List.mem_append_right _ hx)

/-- Whatever holds of the start and is passed on to successors holds of all the loop returns. -/
theorem reachLoop_sound {P : α → Prop} (hP : ∀ a, P a → ∀ b ∈ succs a, P b) {fuel : Nat}
    {stack seen : List α} (hseen : ∀ a ∈ seen, P a) (hstack : ∀ a ∈ stack, P a) :
    ∀ a ∈ reachLoop succs fuel stack seen, P a := by
  induction fuel generalizing stack seen with
  | zero => exact hseen
  | succ fuel ih =>
      cases stack with
      | nil => exact hseen
      | cons a stack =>
          obtain ⟨ha, hstack⟩ := List.forall_mem_cons.mp hstack
          simp only [reachLoop]
          split
          · exact ih hseen hstack
          · refine ih (List.forall_mem_cons.mpr ⟨ha, hseen⟩) (fun b hb => ?_)
            rcases List.mem_append.mp hb with hb | hb
            · exact hP a ha b (List.mem_of_mem_filter (List.mem_reverse.mp hb))
            · exact hstack b hb

/-- The loop adds an element to what it has seen at most once. -/
theorem nodup_reachLoop (fuel : Nat) (stack : List α) {seen : List α} (hseen : seen.Nodup) :
    (reachLoop succs fuel stack seen).Nodup := by
  induction fuel generalizing stack seen with
  | zero => exact hseen
  | succ fuel ih =>
      cases stack with
      | nil => exact hseen
      | cons a stack =>
          simp only [reachLoop]
          by_cases ha : a ∈ seen
          · rw [if_pos ha]
            exact ih stack hseen
          · rw [if_neg ha]
            exact ih _ (List.nodup_cons.mpr ⟨ha, hseen⟩)

theorem nodup_reach (fuel : Nat) (roots : List α) : (reach succs fuel roots).Nodup :=
  nodup_reachLoop fuel roots.reverse List.nodup_nil

/-- With fuel for every push, the worklist visits exactly what is reachable from its roots. -/
theorem mem_reach_iff {support : List α} (hnd : support.Nodup)
    (hsup : ∀ a, a ∉ support → succs a = []) {fuel : Nat} {roots : List α}
    (hfuel : roots.length + (support.map fun a => (succs a).length).sum < fuel) (b : α) :
    b ∈ reach succs fuel roots ↔
      ∃ a ∈ roots, Relation.ReflTransGen (fun x y => y ∈ succs x) a b := by
  constructor
  · intro hb
    apply reachLoop_sound (P := fun b =>
      ∃ a ∈ roots, Relation.ReflTransGen (fun x y => y ∈ succs x) a b) ?_ (by simp) ?_ b hb
    · rintro x ⟨a, ha, hax⟩ y hy
      exact ⟨a, ha, hax.tail hy⟩
    · intro a ha
      exact ⟨a, List.mem_reverse.mp ha, .refl⟩
  · rintro ⟨a, ha, hab⟩
    have hpend : pending succs support roots.reverse [] < fuel := by
      simpa [pending] using hfuel
    obtain ⟨hall, hclosed⟩ := reachLoop_closed hnd hsup hpend (by simp)
    induction hab with
    | refl => exact hall a (.inr (List.mem_reverse.mpr ha))
    | tail _ hy ih => exact hclosed _ ih _ hy

example : reach (fun n => if n = 0 then [1, 2] else [0]) 9 [1] = [2, 0, 1] := by decide +kernel

end Reach

end GaussMatrix.Library
