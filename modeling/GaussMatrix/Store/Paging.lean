import GaussMatrix.Store.Backend

/-!
# Streaming a family

A stream fetches one page after the other, each behind the last key of the one before, and hands out
the entries one by one.  Over a scan in key order it hands out the scan.
-/

namespace GaussMatrix

open Library Util

/-! ## Pages of a scan in key order -/

section Page

variable {entries : List Entry}

/-- What stands behind the cursor. -/
def behind (entries : List Entry) (after : Option Str) : List Entry :=
  entries.filter fun e => isAfter after e.1

theorem defaultScanPaged_eq (after : Option Str) (limit : Nat) :
    defaultScanPaged entries after limit = (behind entries after).take limit := rfl

theorem sorted_behind (h : SortedList.Sorted entries) (after : Option Str) :
    SortedList.Sorted (behind entries after) :=
  h.filter _

/-- Behind a key that itself stands behind the cursor nothing is lost to the cursor. -/
theorem behind_behind {after : Option Str} {key : Str} (h : isAfter after key = true) :
    behind (behind entries after) (some key) = behind entries (some key) := by
  rw [behind, behind, behind, List.filter_filter]
  apply List.filter_congr
  intro e _
  cases after with
  | none => exact Bool.and_true _
  | some cursor =>
      have hcursor : cursor < key := of_decide_eq_true h
      have hkey : isAfter (some key) e.1 = true → isAfter (some cursor) e.1 = true := by
        intro hlt
        exact decide_eq_true (hcursor.trans (of_decide_eq_true hlt))
      cases hlt : isAfter (some key) e.1 with
      | false => rfl
      | true => rw [hkey hlt]; rfl

/-- Behind the last entry of a page the rest follows. -/
theorem behind_append {page rest : List Entry} {last : Entry}
    (h : SortedList.Sorted (page ++ last :: rest)) :
    behind (page ++ last :: rest) (some last.1) = rest := by
  obtain ⟨-, hlast, hpage⟩ := List.pairwise_append.mp h
  have hnone : page.filter (fun e => isAfter (some last.1) e.1) = [] := by
    rw [List.filter_eq_nil_iff]
    intro e he
    have hlt : e.1 < last.1 := hpage e he last List.mem_cons_self
    have hnot : ¬ last.1 < e.1 := lt_asymm hlt
    exact fun hafter => hnot (of_decide_eq_true hafter)
  have hself : ¬ isAfter (some last.1) last.1 = true :=
    fun hafter => lt_irrefl _ (of_decide_eq_true hafter)
  have hall : rest.filter (fun e => isAfter (some last.1) e.1) = rest := by
    rw [List.filter_eq_self]
    exact fun e he => decide_eq_true ((List.pairwise_cons.mp hlast).1 e he)
  rw [behind, List.filter_append, hnone, List.filter_cons, if_neg hself, hall, List.nil_append]

end Page

/-! ## The stream -/

/-- Where a stream stands: the entries fetched and not yet handed out, the last key fetched, and
whether the last page was fetched. -/
structure StreamState where
  buffer : List Entry
  cursor : Option Str
  done : Bool

def StreamState.start : StreamState := ⟨[], none, false⟩

section Stream

variable (scanPaged : Option Str → Nat → List Entry) (pageSize : Nat)

/-- Fetch the next page if the buffer is empty; a short page is the last one. -/
def StreamState.fetch (s : StreamState) : StreamState :=
  if s.buffer = [] ∧ s.done = false then
    let page := scanPaged s.cursor pageSize
    match page.getLast? with
    | some last => ⟨s.buffer ++ page, some last.1, page.length < pageSize⟩
    | none => ⟨s.buffer ++ page, s.cursor, true⟩
  else s

/-- Hand out the next entry. -/
def StreamState.next (s : StreamState) : Option Entry × StreamState :=
  let s := s.fetch scanPaged pageSize
  (s.buffer.head?, { s with buffer := s.buffer.tail })

/-- From here the stream hands out these entries, and then ends. -/
def Yields : StreamState → List Entry → Prop
  | s, [] => (s.next scanPaged pageSize).1 = none
  | s, e :: es => (s.next scanPaged pageSize).1 = some e ∧ Yields (s.next scanPaged pageSize).2 es

end Stream

/-- The stream of a family, by pages of at least one entry. -/
def StreamYields {σ : Type} [Backend σ] (s : σ) (cf : Str) (pageSize : Nat) (es : List Entry) :
    Prop :=
  Yields (Backend.scanPaged s cf) (max pageSize 1) StreamState.start es

section Run

variable {entries : List Entry} {pageSize : Nat} {s : StreamState}

/-- What a stream over these entries has still to hand out. -/
def pending (entries : List Entry) (s : StreamState) : List Entry :=
  s.buffer ++ if s.done then [] else behind entries s.cursor

/-- Fetching keeps what is pending, and leaves the buffer empty only when nothing is. -/
theorem pending_fetch (hsorted : SortedList.Sorted entries) (hsize : 0 < pageSize) :
    pending entries (s.fetch (defaultScanPaged entries) pageSize) = pending entries s ∧
      ((s.fetch (defaultScanPaged entries) pageSize).buffer = [] → pending entries s = []) := by
  rw [StreamState.fetch]
  split
  · rename_i hempty
    obtain ⟨hbuffer, hdone⟩ := hempty
    have hpending : pending entries s = behind entries s.cursor := by
      rw [pending, hbuffer, hdone]
      rfl
    rw [hpending, hbuffer, defaultScanPaged_eq]
    have hsplit := List.take_append_drop pageSize (behind entries s.cursor)
    rcases List.eq_nil_or_concat ((behind entries s.cursor).take pageSize) with hpage | hpage
    · -- an empty page: nothing is behind the cursor
      have hnone : behind entries s.cursor = [] :=
        (List.take_eq_nil_iff.mp hpage).resolve_left (Nat.ne_of_gt hsize)
      rw [hpage, hnone]
      exact ⟨rfl, fun _ => rfl⟩
    · obtain ⟨init, last, hpage⟩ := hpage
      rw [List.concat_eq_append] at hpage
      -- the next page begins behind the last entry of this one
      have hrest : behind entries (some last.1) = (behind entries s.cursor).drop pageSize := by
        have hmem : last ∈ behind entries s.cursor := by
          rw [← hsplit, hpage]
          simp
        have hafter := (List.mem_filter.mp hmem).2
        have hcut : behind entries s.cursor =
            init ++ last :: (behind entries s.cursor).drop pageSize := by
          rw [hpage, List.append_assoc, List.singleton_append] at hsplit
          exact hsplit.symm
        have hbehind := behind_append (hcut ▸ sorted_behind hsorted s.cursor)
        rw [← hcut, behind_behind hafter] at hbehind
        exact hbehind
      have hlast : ((behind entries s.cursor).take pageSize).getLast? = some last := by
        rw [hpage, List.getLast?_concat]
      simp only [hlast]
      constructor
      · rw [pending, hrest]
        split
        · -- a short page is the whole of what is behind the cursor
          rename_i hshort
          have hlen := of_decide_eq_true hshort
          rw [List.length_take] at hlen
          rw [List.nil_append, List.append_nil, List.take_of_length_le (by omega)]
        · exact hsplit
      · intro hnil
        rw [List.nil_append, hpage] at hnil
        exact absurd hnil (List.append_ne_nil_of_right_ne_nil _ (List.cons_ne_nil _ _))
  · -- nothing is fetched
    rename_i hfull
    refine ⟨rfl, fun hbuffer => ?_⟩
    have hdone : s.done = true := by
      rw [← Bool.not_eq_false]
      exact fun hdone => hfull ⟨hbuffer, hdone⟩
    rw [pending, hbuffer, hdone]
    rfl

/-- Handing out takes the first pending entry. -/
theorem pending_next (hsorted : SortedList.Sorted entries) (hsize : 0 < pageSize) :
    (s.next (defaultScanPaged entries) pageSize).1 = (pending entries s).head? ∧
      pending entries (s.next (defaultScanPaged entries) pageSize).2 =
        (pending entries s).tail := by
  obtain ⟨hkeep, hnone⟩ := pending_fetch (s := s) hsorted hsize
  rw [StreamState.next]
  generalize s.fetch (defaultScanPaged entries) pageSize = fetched at *
  rw [← hkeep] at hnone ⊢
  cases hbuffer : fetched.buffer with
  | nil =>
      have hpending := hnone hbuffer
      have hrest := (List.append_eq_nil_iff.mp hpending).2
      rw [hpending]
      exact ⟨rfl, hrest⟩
  | cons e buffer =>
      rw [pending, hbuffer]
      exact ⟨rfl, rfl⟩

theorem yields_pending (hsorted : SortedList.Sorted entries) (hsize : 0 < pageSize)
    {es : List Entry} (h : pending entries s = es) :
    Yields (defaultScanPaged entries) pageSize s es := by
  induction es generalizing s with
  | nil =>
      rw [Yields, (pending_next hsorted hsize).1, h]
      rfl
  | cons e es ih =>
      obtain ⟨hhead, htail⟩ := pending_next (s := s) hsorted hsize
      rw [h] at hhead htail
      exact ⟨hhead, ih htail⟩

/-- Over a scan in key order a stream hands out the scan. -/
theorem yields_scan (hsorted : SortedList.Sorted entries) (hsize : 0 < pageSize) :
    Yields (defaultScanPaged entries) pageSize StreamState.start entries := by
  apply yields_pending hsorted hsize
  exact List.filter_true entries

end Run

end GaussMatrix
