import GaussMatrix.Library.Walk

/-!
# Loops that may not end

A computation with loops is run with a bound on the rounds of each loop, and returns when some bound
is enough.  Where the graph of a walk is finite, the walk returns unless it runs into a cycle.
-/

namespace GaussMatrix.Library

/-- What a computation returns when each of its loops may take so many rounds; one round more does
not change it. -/
structure Rounds (α : Type) where
  within : Nat → Option α
  stable : ∀ n a, within n = some a → within (n + 1) = some a

namespace Rounds

variable {α β σ : Type}

theorem within_of_le (x : Rounds α) {n m : Nat} {a : α} (h : x.within n = some a) (hle : n ≤ m) :
    x.within m = some a := by
  induction m, hle using Nat.le_induction with
  | base => exact h
  | succ m _ ih => exact x.stable m a ih

/-- The computation ends and returns `a`. -/
def Returns (x : Rounds α) (a : α) : Prop := ∃ n, x.within n = some a

/-- The computation ends. -/
def Terminates (x : Rounds α) : Prop := ∃ a, x.Returns a

theorem Returns.unique {x : Rounds α} {a b : α} (ha : x.Returns a) (hb : x.Returns b) : a = b := by
  obtain ⟨n, hn⟩ := ha
  obtain ⟨m, hm⟩ := hb
  have hn' := x.within_of_le hn (le_max_left n m)
  have hm' := x.within_of_le hm (le_max_right n m)
  exact Option.some.inj (hn'.symm.trans hm')

/-! ## Sequencing -/

/-- A computation without a loop. -/
def ret (a : α) : Rounds α := ⟨fun _ => some a, fun _ _ h => h⟩

/-- One computation after the other. -/
def andThen (x : Rounds α) (f : α → Rounds β) : Rounds β where
  within n := (x.within n).bind fun a => (f a).within n
  stable n b h := by
    obtain ⟨a, ha, hb⟩ := Option.bind_eq_some_iff.mp h
    exact Option.bind_eq_some_iff.mpr ⟨a, x.stable n a ha, (f a).stable n b hb⟩

instance : Monad Rounds where
  pure := ret
  bind := andThen

@[simp] theorem returns_pure {a b : α} : (pure a : Rounds α).Returns b ↔ a = b := by
  constructor
  · rintro ⟨_, h⟩
    exact Option.some.inj h
  · rintro rfl
    exact ⟨0, rfl⟩

@[simp] theorem returns_bind {x : Rounds α} {f : α → Rounds β} {b : β} :
    (x >>= f).Returns b ↔ ∃ a, x.Returns a ∧ (f a).Returns b := by
  constructor
  · rintro ⟨n, h⟩
    obtain ⟨a, ha, hb⟩ := Option.bind_eq_some_iff.mp h
    exact ⟨a, ⟨n, ha⟩, n, hb⟩
  · rintro ⟨a, ⟨n, ha⟩, m, hb⟩
    have ha' := x.within_of_le ha (le_max_left n m)
    have hb' := (f a).within_of_le hb (le_max_right n m)
    exact ⟨max n m, Option.bind_eq_some_iff.mpr ⟨a, ha', hb'⟩⟩

/-- A computation for each element of a list, in order. -/
def each (f : α → Rounds β) : List α → Rounds (List β)
  | [] => pure []
  | a :: l => do
      let b ← f a
      let bs ← each f l
      return b :: bs

/-- Where each computation returns `g` of its element, the list of them does. -/
theorem returns_each {f : α → Rounds β} {g : α → β} {l : List α}
    (h : ∀ a ∈ l, ∀ b, (f a).Returns b ↔ g a = b) {bs : List β} :
    (each f l).Returns bs ↔ l.map g = bs := by
  induction l generalizing bs with
  | nil => simp [each]
  | cons a l ih =>
      obtain ⟨ha, hl⟩ := List.forall_mem_cons.mp h
      simp only [each, returns_bind, returns_pure, ha, ih hl, List.map_cons]
      simp

/-! ## A loop -/

/-- The state a loop is left in, when it takes fewer than `n` rounds.  A round that gives `none`
leaves the loop. -/
def iterate (body : σ → Option σ) : Nat → σ → Option σ
  | 0, _ => none
  | n + 1, s =>
      match body s with
      | none => some s
      | some s' => iterate body n s'

variable {body : σ → Option σ}

theorem iterate_stable (n : Nat) (s final : σ) (h : iterate body n s = some final) :
    iterate body (n + 1) s = some final := by
  induction n generalizing s with
  | zero => simp [iterate] at h
  | succ n ih =>
      unfold iterate at h ⊢
      cases hs : body s with
      | none => simpa [hs] using h
      | some s' =>
          simp only [hs] at h ⊢
          exact ih s' h

/-- The loop from a start. -/
def loop (body : σ → Option σ) (start : σ) : Rounds σ where
  within n := iterate body n start
  stable n final h := iterate_stable n start final h

/-- A loop is left at once, or does one round and goes on. -/
theorem returns_loop {start final : σ} :
    (loop body start).Returns final ↔
      match body start with
      | none => start = final
      | some next => (loop body next).Returns final := by
  constructor
  · rintro ⟨n, h⟩
    cases n with
    | zero => simp [loop, iterate] at h
    | succ n =>
        simp only [loop, iterate] at h
        cases hs : body start with
        | none =>
            rw [hs] at h
            exact Option.some.inj h
        | some next =>
            rw [hs] at h
            exact ⟨n, h⟩
  · intro h
    cases hs : body start with
    | none =>
        rw [hs] at h
        have hone : iterate body 1 start = some start := by simp only [iterate, hs]
        exact ⟨1, h ▸ hone⟩
    | some next =>
        rw [hs] at h
        obtain ⟨n, hn⟩ := h
        exact ⟨n + 1, by simpa only [loop, iterate, hs] using hn⟩

/-- A loop each of whose rounds another loop takes at the same time, read through `g`. -/
theorem iterate_map {τ : Type} {body' : τ → Option τ} {g : σ → τ}
    (hround : ∀ s, body' (g s) = (body s).map g) (n : Nat) (s : σ) :
    iterate body' n (g s) = (iterate body n s).map g := by
  induction n generalizing s with
  | zero => rfl
  | succ n ih =>
      unfold iterate
      rw [hround]
      cases body s with
      | none => rfl
      | some next => exact ih next

theorem returns_loop_map {τ : Type} {body' : τ → Option τ} {g : σ → τ}
    (hround : ∀ s, body' (g s) = (body s).map g) {start : σ} {final : τ} :
    (loop body' (g start)).Returns final ↔ ∃ s, (loop body start).Returns s ∧ g s = final := by
  simp only [Returns, loop, iterate_map hround, Option.map_eq_some_iff]
  constructor
  · intro ⟨n, s, hs, hg⟩
    exact ⟨s, ⟨n, hs⟩, hg⟩
  · intro ⟨s, ⟨n, hs⟩, hg⟩
    exact ⟨n, s, hs, hg⟩

/-! ## The two walks as loops -/

/-- One round of the walk along `next`: list the element at the cursor and go on to the one after
it. -/
def followBody (next : α → Option α) : List α × Option α → Option (List α × Option α)
  | (_, none) => none
  | (line, some a) => some (line ++ [a], next a)

/-- The elements from a start along `next`. -/
def walk (next : α → Option α) (start : Option α) : Rounds (List α) := do
  let final ← loop (followBody next) ([], start)
  return final.1

theorem iterate_followBody {next : α → Option α} (n : Nat) (line : List α) (start : Option α) :
    iterate (followBody next) (n + 1) (line, start) =
      (follow next n start).map fun l => (line ++ l, none) := by
  induction n generalizing line start with
  | zero => cases start <;> simp [iterate, followBody, follow]
  | succ n ih =>
      cases start with
      | none => simp [iterate, followBody, follow]
      | some a =>
          unfold iterate
          simp only [followBody, ih, follow, Option.map_map]
          congr 1
          funext l
          simp

theorem returns_walk {next : α → Option α} {start : Option α} {l : List α} :
    (walk next start).Returns l ↔ ∃ n, follow next n start = some l := by
  simp only [walk, returns_bind, returns_pure]
  constructor
  · rintro ⟨final, ⟨n, hn⟩, rfl⟩
    have hn' := (loop (followBody next) ([], start)).stable n final hn
    simp only [loop, iterate_followBody, Option.map_eq_some_iff] at hn'
    obtain ⟨l, hl, rfl⟩ := hn'
    exact ⟨n, by simpa using hl⟩
  · rintro ⟨n, hn⟩
    exact ⟨(l, none), ⟨n + 1, by simp [loop, iterate_followBody, hn]⟩, rfl⟩

section

variable [DecidableEq α]

/-- One round of the worklist: pop an element and, on its first visit, push its unseen
successors. -/
def reachBody (succs : α → List α) : List α × List α → Option (List α × List α)
  | ([], _) => none
  | (a :: stack, seen) =>
      if a ∈ seen then some (stack, seen)
      else some (((succs a).filter (fun b => b ∉ a :: seen)).reverse ++ stack, a :: seen)

/-- The elements a worklist starting with `roots` visits. -/
def visited (succs : α → List α) (roots : List α) : Rounds (List α) := do
  let final ← loop (reachBody succs) (roots.reverse, [])
  return final.2

variable {succs : α → List α} {support : List α}

theorem pending_reachBody (hnd : support.Nodup) (hsup : ∀ a, a ∉ support → succs a = [])
    {s s' : List α × List α} (h : reachBody succs s = some s') :
    pending succs support s'.1 s'.2 < pending succs support s.1 s.2 := by
  obtain ⟨stack, seen⟩ := s
  cases stack with
  | nil => simp [reachBody] at h
  | cons a stack =>
      simp only [reachBody] at h
      split at h
      · obtain rfl := Option.some.inj h
        simp only [pending, List.length_cons]
        omega
      · rename_i ha
        obtain rfl := Option.some.inj h
        exact pending_visit hnd hsup stack ha

/-- With fuel for every push, the worklist computes what the loop leaves. -/
theorem returns_loop_reachBody (hnd : support.Nodup) (hsup : ∀ a, a ∉ support → succs a = [])
    {fuel : Nat} {stack seen : List α} (hfuel : pending succs support stack seen < fuel) :
    (loop (reachBody succs) (stack, seen)).Returns ([], reachLoop succs fuel stack seen) := by
  induction fuel generalizing stack seen with
  | zero => omega
  | succ fuel ih =>
      cases stack with
      | nil => exact returns_loop.mpr rfl
      | cons a stack =>
          have hdown : ∀ s', reachBody succs (a :: stack, seen) = some s' →
              pending succs support s'.1 s'.2 < fuel := by
            intro s' hs'
            have := pending_reachBody hnd hsup hs'
            simp only at this
            omega
          rw [returns_loop]
          by_cases ha : a ∈ seen
          · simp only [reachBody, reachLoop, if_pos ha] at hdown ⊢
            exact ih (hdown _ rfl)
          · simp only [reachBody, reachLoop, if_neg ha] at hdown ⊢
            exact ih (hdown _ rfl)

theorem returns_visited (hnd : support.Nodup) (hsup : ∀ a, a ∉ support → succs a = [])
    {fuel : Nat} {roots : List α}
    (hfuel : roots.length + (support.map fun a => (succs a).length).sum < fuel) {l : List α} :
    (visited succs roots).Returns l ↔ reach succs fuel roots = l := by
  have hpend : pending succs support roots.reverse [] < fuel := by
    simpa [pending] using hfuel
  have hloop := returns_loop_reachBody hnd hsup hpend
  simp only [visited, returns_bind, returns_pure]
  constructor
  · rintro ⟨final, hfinal, rfl⟩
    rw [hfinal.unique hloop]
    rfl
  · rintro rfl
    exact ⟨_, hloop, rfl⟩

end

end Rounds

/-! ## Walks that do not end -/

variable {α : Type}

/-- The walk from `start` comes back to an element it has left. -/
def RunsIntoCycle (next : α → Option α) (start : Option α) : Prop :=
  ∃ first ∈ start, ∃ a, Relation.ReflTransGen (fun x y => next x = some y) first a ∧
    Relation.TransGen (fun x y => next x = some y) a a

variable {next : α → Option α}

theorem mem_of_follow_of_reach {fuel : Nat} {start a : α} {l : List α}
    (h : follow next fuel (some start) = some l)
    (ha : Relation.ReflTransGen (fun x y => next x = some y) start a) :
    ∃ l', follow next fuel (some a) = some l' := by
  induction ha with
  | refl => exact ⟨l, h⟩
  | tail _ hstep ih =>
      obtain ⟨l', hl'⟩ := ih
      obtain ⟨n, rest, rfl, -, hrest⟩ := follow_succ_some hl'
      rw [hstep] at hrest
      exact ⟨rest, follow_of_length_le hrest (by have := length_le_of_follow hrest; omega)⟩

/-- A walk that ends is shorter from each later element on. -/
theorem length_lt_of_reach {fuel fuel' : Nat} {a b : α} {l l' : List α}
    (hab : Relation.TransGen (fun x y => next x = some y) a b)
    (h : follow next fuel (some a) = some l) (h' : follow next fuel' (some b) = some l') :
    l'.length < l.length := by
  induction hab using Relation.TransGen.head_induction_on generalizing fuel l with
  | single hstep =>
      obtain ⟨n, rest, rfl, rfl, hrest⟩ := follow_succ_some h
      rw [hstep] at hrest
      rw [follow_unique h' hrest]
      simp
  | head hstep _ ih =>
      obtain ⟨n, rest, rfl, rfl, hrest⟩ := follow_succ_some h
      rw [hstep] at hrest
      have := ih hrest
      simp only [List.length_cons]
      omega

/-- The elements along a walk, as long as there is one. -/
theorem follow_or_long (next : α → Option α) (n : Nat) (start : Option α) :
    (∃ l, follow next n start = some l) ∨
      ∃ l : List α, l.length = n + 1 ∧ start = l.head? ∧
        l.IsChain (fun x y => next x = some y) := by
  induction n generalizing start with
  | zero =>
      cases start with
      | none => exact .inl ⟨[], rfl⟩
      | some a => exact .inr ⟨[a], rfl, rfl, List.isChain_singleton a⟩
  | succ n ih =>
      cases start with
      | none => exact .inl ⟨[], rfl⟩
      | some a =>
          rcases ih (next a) with ⟨l, hl⟩ | ⟨l, hlen, hhead, hchain⟩
          · exact .inl ⟨a :: l, by simp [follow, hl]⟩
          · refine .inr ⟨a :: l, by simp [hlen], rfl, ?_⟩
            rw [List.isChain_cons]
            exact ⟨fun b hb => by rw [hhead, hb], hchain⟩

theorem next_isSome_of_mem_dropLast_of_isChain {l : List α}
    (h : l.IsChain (fun x y => next x = some y)) {a : α} (ha : a ∈ l.dropLast) :
    (next a).isSome := by
  induction l with
  | nil => simp at ha
  | cons b l ih =>
      cases l with
      | nil => simp at ha
      | cons c l =>
          obtain ⟨hb, hl⟩ := List.isChain_cons_cons.mp h
          rw [List.dropLast_cons_of_ne_nil (by simp)] at ha
          rcases List.mem_cons.mp ha with rfl | ha
          · rw [hb]
            rfl
          · exact ih hl ha

/-- Where only the elements of `support` have a successor, a walk ends unless it runs into a
cycle. -/
theorem exists_follow_iff [DecidableEq α] (support : List α)
    (hsup : ∀ a, (next a).isSome → a ∈ support) (start : Option α) :
    (∃ n l, follow next n start = some l) ↔ ¬ RunsIntoCycle next start := by
  constructor
  · rintro ⟨n, l, hl⟩ ⟨first, hfirst, a, hreach, hcycle⟩
    rw [Option.mem_def.mp hfirst] at hl
    obtain ⟨l', hl'⟩ := mem_of_follow_of_reach hl hreach
    exact absurd (length_lt_of_reach hcycle hl' hl') (lt_irrefl _)
  · intro hno
    by_contra hend
    -- a walk of more elements than can have a successor repeats one of them
    rcases follow_or_long next (support.length + 1) start with ⟨l, hl⟩ | ⟨l, hlen, hhead, hchain⟩
    · exact hend ⟨_, l, hl⟩
    · have hlater : l.IsChain (Relation.TransGen fun x y => next x = some y) :=
        hchain.imp fun _ _ hstep => .single hstep
      have hpair : l.Pairwise (Relation.TransGen fun x y => next x = some y) := hlater.pairwise
      have hsub : l.dropLast ⊆ support :=
        fun a ha => hsup a (next_isSome_of_mem_dropLast_of_isChain hchain ha)
      have hdup : ¬ l.dropLast.Nodup := by
        intro hnd
        have hle := (hnd.subperm hsub).length_le
        rw [List.length_dropLast] at hle
        omega
      obtain ⟨a, ha⟩ := List.exists_duplicate_iff_not_nodup.mpr hdup
      have htwice : [a, a].Sublist l :=
        (List.duplicate_iff_sublist.mp ha).trans (List.dropLast_sublist l)
      have hcycle : Relation.TransGen (fun x y => next x = some y) a a := by
        simpa using hpair.sublist htwice
      cases l with
      | nil => simp at hlen
      | cons first l =>
          refine hno ⟨first, hhead, a, ?_, hcycle⟩
          rcases List.mem_cons.mp (htwice.subset List.mem_cons_self) with rfl | hmem
          · exact .refl
          · exact ((List.pairwise_cons.mp hpair).1 a hmem).to_reflTransGen

end GaussMatrix.Library
