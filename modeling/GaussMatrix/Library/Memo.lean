import GaussMatrix.Library.SortedMap

/-!
# Memoisation by a key

A partial function answered through a cache that is asked by a key of the input.  The answers are
those of the function exactly when no two inputs of the sequence share a key and differ in value.
-/

namespace GaussMatrix.Library

variable {ι κ ρ : Type} [LinearOrder κ]

/-- Answer `x`, through the cache if it is an input worth caching; `none` when the function does not
return on it. -/
def memoCall (cached : ι → Bool) (key : ι → κ) (f : ι → Option ρ) (cache : SortedMap κ ρ) (x : ι) :
    Option (ρ × SortedMap κ ρ) :=
  if cached x then
    match cache.get (key x) with
    | some v => some (v, cache)
    | none => (f x).map fun v => (v, cache.insert (key x) v)
  else (f x).map fun v => (v, cache)

/-- The answers to a sequence of calls, up to the first that does not return. -/
def memoAnswers (cached : ι → Bool) (key : ι → κ) (f : ι → Option ρ) :
    SortedMap κ ρ → List ι → List (ι × Option ρ)
  | _, [] => []
  | cache, x :: xs =>
      match memoCall cached key f cache x with
      | none => [(x, none)]
      | some (v, cache') => (x, some v) :: memoAnswers cached key f cache' xs

/-- An input has the value of every earlier input with its key, as long as the calls before it
return. -/
def KeyDetermines (cached : ι → Bool) (key : ι → κ) (f : ι → Option ρ) (xs : List ι) : Prop :=
  ∀ pre x post, xs = pre ++ x :: post → (∀ y ∈ pre, (f y).isSome) → cached x →
    ∀ y ∈ pre, cached y → key y = key x → f y = f x

variable {cached : ι → Bool} {key : ι → κ} {f : ι → Option ρ}

/-- Every entry of the cache is the value of an input that was called. -/
def CacheOf (cached : ι → Bool) (key : ι → κ) (f : ι → Option ρ) (called : ι → Prop)
    (cache : SortedMap κ ρ) : Prop :=
  ∀ k v, cache.get k = some v → ∃ y, called y ∧ cached y ∧ key y = k ∧ f y = some v

theorem cacheOf_empty (called : ι → Prop) : CacheOf cached key f called SortedMap.empty := by
  intro k v h
  exact absurd h (by simp)

theorem CacheOf.mono {called called' : ι → Prop} {cache : SortedMap κ ρ}
    (h : CacheOf cached key f called cache) (hc : ∀ y, called y → called' y) :
    CacheOf cached key f called' cache := by
  intro k v hk
  obtain ⟨y, hy, rest⟩ := h k v hk
  exact ⟨y, hc y hy, rest⟩

theorem CacheOf.insert {called : ι → Prop} {cache : SortedMap κ ρ}
    (h : CacheOf cached key f called cache) {x : ι} {v : ρ} (hx : called x) (hc : cached x)
    (hv : f x = some v) : CacheOf cached key f called (cache.insert (key x) v) := by
  intro k w hk
  rw [SortedMap.get_insert] at hk
  split at hk
  · rename_i heq
    exact ⟨x, hx, hc, heq.symm, hv.trans hk⟩
  · exact h k w hk

/-- A hit is the value of an input that was called with the same key. -/
theorem CacheOf.hit {called : ι → Prop} {cache : SortedMap κ ρ}
    (h : CacheOf cached key f called cache) {x : ι} {v : ρ}
    (hagree : ∀ y, called y → cached y → key y = key x → (f y).isSome → f y = f x)
    (hk : cache.get (key x) = some v) : f x = some v := by
  obtain ⟨y, hy, hcy, hkey, hv⟩ := h _ v hk
  rw [← hagree y hy hcy hkey (by simp [hv]), hv]

/-- A call answered from a cache of inputs that agree with it has the function's value, and leaves a
cache of the inputs called. -/
theorem memoCall_eq {called : ι → Prop} {cache : SortedMap κ ρ} {x : ι}
    (h : CacheOf cached key f called cache) (hx : called x)
    (hagree : cached x → ∀ y, called y → cached y → key y = key x → (f y).isSome → f y = f x) :
    match memoCall cached key f cache x with
    | none => f x = none
    | some (v, cache') => f x = some v ∧ CacheOf cached key f called cache' := by
  by_cases hc : cached x
  · cases hk : cache.get (key x) with
    | some v =>
        have hxv := h.hit (hagree hc) hk
        simp only [memoCall, if_pos hc, hk]
        exact ⟨hxv, h⟩
    | none =>
        cases hv : f x with
        | none => simp only [memoCall, if_pos hc, hk, hv, Option.map_none]
        | some v =>
            simp only [memoCall, if_pos hc, hk, hv, Option.map_some]
            exact ⟨trivial, h.insert hx hc hv⟩
  · cases hv : f x with
    | none => simp only [memoCall, if_neg hc, hv, Option.map_none]
    | some v =>
        simp only [memoCall, if_neg hc, hv, Option.map_some]
        exact ⟨trivial, h⟩

theorem memoAnswers_of_keyDetermines {pre xs : List ι} {cache : SortedMap κ ρ}
    (hdet : KeyDetermines cached key f (pre ++ xs)) (hpre : ∀ y ∈ pre, (f y).isSome)
    (hcache : CacheOf cached key f (· ∈ pre) cache) :
    ∀ a ∈ memoAnswers cached key f cache xs, a.2 = f a.1 := by
  induction xs generalizing pre cache with
  | nil => simp [memoAnswers]
  | cons x xs ih =>
      have hcall := memoCall_eq (x := x) (hcache.mono fun y hy => List.mem_append_left [x] hy)
        (by simp) (fun hc y hy hcy hkey hsome => by
          rcases List.mem_append.mp hy with hy | hy
          · exact hdet pre x xs rfl hpre hc y hy hcy hkey
          · rw [List.mem_singleton.mp hy])
      simp only [memoAnswers]
      split
      · rename_i hnone
        rw [hnone] at hcall
        simpa using hcall.symm
      · rename_i v cache' hsome
        rw [hsome] at hcall
        obtain ⟨hv, hcache'⟩ := hcall
        have hdet' : KeyDetermines cached key f ((pre ++ [x]) ++ xs) := by
          rwa [List.append_assoc]
        have hrest := ih hdet' (fun y hy => by
          rcases List.mem_append.mp hy with hy | hy
          · exact hpre y hy
          · rw [List.mem_singleton.mp hy, hv]
            rfl) hcache'
        simp only [List.mem_cons, forall_eq_or_imp]
        exact ⟨hv.symm, hrest⟩

/-- Each cached call that was made has its entry in the cache. -/
def Filled (cached : ι → Bool) (key : ι → κ) (f : ι → Option ρ) (done : List ι)
    (cache : SortedMap κ ρ) : Prop :=
  ∀ y ∈ done, cached y → ∃ v, cache.get (key y) = some v ∧ f y = some v

theorem Filled.memoCall {done : List ι} {cache cache' : SortedMap κ ρ} {x : ι} {v : ρ}
    (h : Filled cached key f done cache) (hv : f x = some v)
    (hcall : memoCall cached key f cache x = some (v, cache')) :
    Filled cached key f (done ++ [x]) cache' := by
  have hkeep : ∀ y ∈ done, cached y → ∃ u, cache'.get (key y) = some u ∧ f y = some u := by
    intro y hy hcy
    obtain ⟨u, hu, hfu⟩ := h y hy hcy
    refine ⟨u, ?_, hfu⟩
    unfold Library.memoCall at hcall
    split at hcall
    · cases hk : cache.get (key x) with
      | some w =>
          rw [hk] at hcall
          obtain ⟨-, rfl⟩ := Prod.mk.inj (Option.some.inj hcall)
          exact hu
      | none =>
          rw [hk, hv] at hcall
          obtain ⟨-, rfl⟩ := Prod.mk.inj (Option.some.inj hcall)
          rw [SortedMap.get_insert_ne _ (fun heq => by simp [heq, hk] at hu), hu]
    · rw [hv] at hcall
      obtain ⟨-, rfl⟩ := Prod.mk.inj (Option.some.inj hcall)
      exact hu
  intro y hy hcy
  rcases List.mem_append.mp hy with hy | hy
  · exact hkeep y hy hcy
  · obtain rfl := List.mem_singleton.mp hy
    refine ⟨v, ?_, hv⟩
    rw [Library.memoCall, if_pos hcy] at hcall
    cases hk : cache.get (key y) with
    | some w =>
        rw [hk] at hcall
        obtain ⟨rfl, rfl⟩ := Prod.mk.inj (Option.some.inj hcall)
        exact hk
    | none =>
        rw [hk, hv] at hcall
        obtain ⟨-, rfl⟩ := Prod.mk.inj (Option.some.inj hcall)
        exact SortedMap.get_insert_self _ _ _

/-- Where every answer is right, a call whose key was called before has the value of that call. -/
theorem eq_of_memoAnswers {pre post : List ι} {x : ι} {cache : SortedMap κ ρ} {done : List ι}
    (hdone : Filled cached key f done cache)
    (hright : ∀ a ∈ memoAnswers cached key f cache (pre ++ x :: post), a.2 = f a.1)
    (hpre : ∀ y ∈ pre, (f y).isSome) (hc : cached x) :
    ∀ y ∈ done ++ pre, cached y → key y = key x → f y = f x := by
  induction pre generalizing cache done with
  | nil =>
      intro y hy hcy hkey
      rw [List.append_nil] at hy
      obtain ⟨v, hget, hv⟩ := hdone y hy hcy
      have hcall : Library.memoCall cached key f cache x = some (v, cache) := by
        rw [Library.memoCall, if_pos hc, ← hkey, hget]
      have hx := hright (x, some v) (by simp [memoAnswers, hcall])
      rw [hv, ← hx]
  | cons z zs ih =>
      obtain ⟨hz, hzs⟩ := List.forall_mem_cons.mp hpre
      obtain ⟨v, hv⟩ := Option.isSome_iff_exists.mp hz
      cases hcall : Library.memoCall cached key f cache z with
      | none =>
          have hz' := hright (z, none) (by simp [memoAnswers, hcall])
          rw [hv] at hz'
          exact absurd hz' (by simp)
      | some res =>
          obtain ⟨w, cache'⟩ := res
          have hw : some w = f z := hright (z, some w) (by simp [memoAnswers, hcall])
          have hrest := ih (hdone.memoCall hw.symm hcall) (fun a ha => hright a (by
            simp only [List.cons_append, memoAnswers, hcall]
            exact List.mem_cons_of_mem _ ha)) hzs
          rwa [List.append_assoc] at hrest

/-- From an empty cache every answer is the function's exactly when the key determines the value
along the sequence. -/
theorem memoAnswers_eq_iff (xs : List ι) :
    (∀ a ∈ memoAnswers cached key f SortedMap.empty xs, a.2 = f a.1) ↔
      KeyDetermines cached key f xs := by
  constructor
  · rintro hright pre x post rfl hpre hc
    have hnone : Filled cached key f [] SortedMap.empty := by simp [Filled]
    exact eq_of_memoAnswers hnone hright hpre hc
  · intro hdet
    have hdet' : KeyDetermines cached key f ([] ++ xs) := hdet
    exact memoAnswers_of_keyDetermines hdet' (by simp) (cacheOf_empty _)

end GaussMatrix.Library
