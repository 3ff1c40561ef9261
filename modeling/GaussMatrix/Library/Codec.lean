import Mathlib.Data.List.Infix

/-!
# Readers and the writers they undo

A reader takes a value off the front of a list and leaves the rest.  It reads a writer when it takes
off exactly what the writer puts down; readers that run one after the other then read what the
writers put down one after the other.
-/

namespace GaussMatrix.Library

variable {β α γ : Type}

/-- Take a value off the front of a list, or fail. -/
abbrev Reader (β α : Type) := StateT (List β) Option α

/-- Take off this many elements. -/
def takeN (n : Nat) : Reader β (List β) := fun s =>
  if n ≤ s.length then some (s.take n, s.drop n) else none

/-- Run a reader so many times. -/
def times (r : Reader β α) : Nat → Reader β (List α)
  | 0 => pure []
  | n + 1 => do
      let a ← r
      let as ← times r n
      return a :: as

/-- The reader takes off exactly what the writer puts down for a value that satisfies `P`. -/
def Reads (r : Reader β α) (write : α → List β) (P : α → Prop) : Prop :=
  ∀ s a rest, r.run s = some (a, rest) ↔ P a ∧ s = write a ++ rest

namespace Reads

variable {r : Reader β α} {write : α → List β} {P : α → Prop}

theorem congr {write' : α → List β} {P' : α → Prop} (h : Reads r write P) (hP : ∀ a, P a ↔ P' a)
    (hwrite : ∀ a, P a → write a = write' a) : Reads r write' P' := by
  intro s a rest
  rw [h s a rest, ← hP a]
  exact and_congr_right fun ha => by rw [hwrite a ha]

theorem pure (a : α) : Reads (pure a : Reader β α) (fun _ => []) (· = a) := by
  intro s b rest
  rw [StateT.run_pure]
  constructor
  · intro h
    obtain ⟨rfl, rfl⟩ := Prod.mk.inj (Option.some.inj h)
    exact ⟨rfl, rfl⟩
  · rintro ⟨rfl, rfl⟩
    rfl

theorem takeN (n : Nat) : Reads (takeN n : Reader β (List β)) id (·.length = n) := by
  intro s a rest
  rw [StateT.run, Library.takeN]
  constructor
  · intro h
    split at h
    · rename_i hle
      obtain ⟨rfl, rfl⟩ := Prod.mk.inj (Option.some.inj h)
      exact ⟨List.length_take_of_le hle, (List.take_append_drop n s).symm⟩
    · cases h
  · rintro ⟨hlen, rfl⟩
    rw [id_eq, if_pos (by rw [List.length_append]; omega), ← hlen, List.take_left, List.drop_left]

/-- A reader after another; the first value is a part of the second. -/
theorem bind {f : α → Reader β γ} {write' : γ → List β} {Q : α → γ → Prop} {part : γ → α}
    (h : Reads r write P) (hf : ∀ a, Reads (f a) write' (Q a))
    (hpart : ∀ a c, P a → Q a c → part c = a) :
    Reads (r >>= f) (fun c => write (part c) ++ write' c) fun c => P (part c) ∧ Q (part c) c := by
  intro s c rest
  rw [StateT.run_bind]
  constructor
  · intro hrun
    obtain ⟨⟨a, mid⟩, ha, hc⟩ := Option.bind_eq_some_iff.mp hrun
    obtain ⟨hPa, rfl⟩ := (h s a mid).mp ha
    obtain ⟨hQ, rfl⟩ := (hf a mid c rest).mp hc
    obtain rfl := hpart a c hPa hQ
    exact ⟨⟨hPa, hQ⟩, (List.append_assoc _ _ _).symm⟩
  · rintro ⟨⟨hPa, hQ⟩, rfl⟩
    refine Option.bind_eq_some_iff.mpr ⟨(part c, write' c ++ rest), ?_, ?_⟩
    · exact (h _ _ _).mpr ⟨hPa, List.append_assoc _ _ _⟩
    · exact (hf _ _ _ _).mpr ⟨hQ, rfl⟩

/-- The next field of a record, with the fields before it fixed in `Q` and what is known of those
behind it in `R`. -/
theorem field {f : α → Reader β γ} {write' : γ → List β} {part : γ → α} {Q R : γ → Prop}
    (h : Reads r write P) (hf : ∀ a, Reads (f a) write' fun c => (part c = a ∧ Q c) ∧ R c) :
    Reads (r >>= f) (fun c => write (part c) ++ write' c) fun c => Q c ∧ P (part c) ∧ R c := by
  refine (h.bind hf fun a c _ hc => hc.1.1).congr (fun c => ?_) fun _ _ => rfl
  constructor
  · rintro ⟨hP, ⟨-, hQ⟩, hR⟩
    exact ⟨hQ, hP, hR⟩
  · rintro ⟨hQ, hP, hR⟩
    exact ⟨hP, ⟨rfl, hQ⟩, hR⟩

/-- A value that is read back from its spelling. -/
theorem parsed {parse : α → Option γ} {spell : γ → α} (h : Reads r write P)
    (hparse : ∀ a c, P a → (parse a = some c ↔ a = spell c)) :
    Reads (r >>= fun a => liftM (parse a)) (fun c => write (spell c)) fun c => P (spell c) := by
  have hlift : ∀ a, Reads (liftM (parse a) : Reader β γ) (fun _ => []) (parse a = some ·) := by
    intro a s c rest
    show _ ↔ parse a = some c ∧ s = rest
    cases parse a with
    | none =>
        constructor
        · intro hrun
          cases hrun
        · rintro ⟨hnone, -⟩
          cases hnone
    | some c' =>
        constructor
        · intro hsome
          obtain ⟨rfl, rfl⟩ := Prod.mk.inj (Option.some.inj hsome)
          exact ⟨rfl, rfl⟩
        · rintro ⟨hsome, rfl⟩
          obtain rfl := Option.some.inj hsome
          rfl
  refine (h.bind hlift fun a c ha hsome => ((hparse a c ha).mp hsome).symm).congr (fun c => ?_)
    fun c _ => List.append_nil _
  exact and_iff_left_of_imp fun hc => (hparse _ c hc).mpr rfl

/-- A value that is computed back from its spelling. -/
theorem map {f : α → γ} {spell : γ → α} (h : Reads r write P)
    (hf : ∀ a c, P a → (f a = c ↔ a = spell c)) :
    Reads (r >>= fun a => Pure.pure (f a)) (fun c => write (spell c)) fun c => P (spell c) := by
  have hsome : ∀ a c, P a → (some (f a) = some c ↔ a = spell c) := by
    intro a c ha
    rw [Option.some.injEq, hf a c ha]
  exact h.parsed hsome

/-- A run of one reader reads the writings one behind the other. -/
theorem times (h : Reads r write P) (n : Nat) :
    Reads (times r n) (fun as => as.flatMap write) fun as => as.length = n ∧ ∀ a ∈ as, P a := by
  induction n with
  | zero =>
      refine (pure []).congr (fun as => ?_) ?_
      · constructor
        · rintro rfl
          exact ⟨rfl, fun a ha => absurd ha List.not_mem_nil⟩
        · exact fun has => List.length_eq_zero_iff.mp has.1
      · rintro as rfl
        rfl
  | succ n ih =>
      intro s as rest
      rw [Library.times, StateT.run_bind]
      constructor
      · intro hrun
        obtain ⟨⟨a, mid⟩, ha, hrun⟩ := Option.bind_eq_some_iff.mp hrun
        obtain ⟨⟨as', last⟩, has, hrun⟩ := Option.bind_eq_some_iff.mp hrun
        obtain ⟨rfl, rfl⟩ := Prod.mk.inj (Option.some.inj hrun)
        obtain ⟨hPa, rfl⟩ := (h s a mid).mp ha
        obtain ⟨⟨hlen, hall⟩, rfl⟩ := (ih _ _ _).mp has
        refine ⟨⟨congrArg (· + 1) hlen, List.forall_mem_cons.mpr ⟨hPa, hall⟩⟩, ?_⟩
        exact (List.append_assoc _ _ _).symm
      · rintro ⟨⟨hlen, hall⟩, rfl⟩
        obtain ⟨a, as, rfl⟩ := List.exists_cons_of_length_eq_add_one hlen
        obtain ⟨hPa, hall⟩ := List.forall_mem_cons.mp hall
        have hsplit : (a :: as).flatMap write ++ rest = write a ++ (as.flatMap write ++ rest) :=
          List.append_assoc _ _ _
        have hfirst := (h _ a (as.flatMap write ++ rest)).mpr ⟨hPa, hsplit⟩
        have hothers := (ih _ as rest).mpr ⟨⟨Nat.succ.inj hlen, hall⟩, rfl⟩
        exact Option.bind_eq_some_iff.mpr
          ⟨_, hfirst, Option.bind_eq_some_iff.mpr ⟨_, hothers, rfl⟩⟩

/-! ## Whole records -/

/-- A reader takes off a value from a list that its writing is at the front of. -/
theorem map_fst_eq_some_iff (h : Reads r write P) {s : List β} {a : α} :
    (r.run s).map Prod.fst = some a ↔ P a ∧ write a <+: s := by
  rw [Option.map_eq_some_iff]
  constructor
  · rintro ⟨⟨b, rest⟩, hrun, rfl⟩
    obtain ⟨hP, rfl⟩ := (h s b rest).mp hrun
    exact ⟨hP, List.prefix_append _ _⟩
  · rintro ⟨hP, rest, rfl⟩
    exact ⟨(a, rest), (h _ _ _).mpr ⟨hP, rfl⟩, rfl⟩

/-- No writing is at the front of another. -/
theorem prefix_free (h : Reads r write P) {a b : α} (ha : P a) (hb : P b)
    (hfront : write a <+: write b) : a = b := by
  have hread := h.map_fst_eq_some_iff.mpr ⟨ha, hfront⟩
  rw [h.map_fst_eq_some_iff.mpr ⟨hb, List.prefix_refl _⟩] at hread
  exact (Option.some.inj hread).symm

end Reads

end GaussMatrix.Library
