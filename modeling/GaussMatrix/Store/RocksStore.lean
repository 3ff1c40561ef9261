import GaussMatrix.Store.Paging

/-!
# The backend over one ordered key space

All families share one space of byte keys, each under its name and a separator.  Reads seek into the
space and stop at the first key of another family.  On families whose names have no separator the
backend reads as the one in memory does, page by page and as a whole.
-/

namespace GaussMatrix

open Library Util

/-- The separator between a family and a key. -/
def cfSep : Char := '\x1f'

/-- The database: an ordered map of byte strings. -/
structure RocksStore where
  db : SortedMap Bytes Bytes

namespace RocksStore

def empty : RocksStore := ⟨SortedMap.empty⟩

def composite (cf key : Str) : Str := cf ++ cfSep :: key

def keyPrefix (cf : Str) : Str := cf ++ [cfSep]

def put (s : RocksStore) (cf key : Str) (value : Bytes) : RocksStore :=
  ⟨s.db.insert (utf8Bytes (composite cf key)) value⟩

def delete (s : RocksStore) (cf key : Str) : RocksStore :=
  ⟨s.db.erase (utf8Bytes (composite cf key))⟩

def get (s : RocksStore) (cf key : Str) : Option Bytes := s.db.get (utf8Bytes (composite cf key))

/-- The loop of a scan: a key that is no text is passed over, and one of another family ends it. -/
def scanItems (pfx : Str) : List (Bytes × Bytes) → List Entry
  | [] => []
  | (rawKey, value) :: items =>
      match fromUtf8 rawKey with
      | none => scanItems pfx items
      | some key =>
          match stripPrefix pfx key with
          | none => [] -- past the family
          | some stripped => (stripped, value) :: scanItems pfx items

def scan (s : RocksStore) (cf : Str) : List Entry :=
  scanItems (keyPrefix cf) (s.db.iterFrom (utf8Bytes (keyPrefix cf)))

def count (s : RocksStore) (cf : Str) : Nat := (s.scan cf).length

/-- The loop of a page with room for so many entries: the cursor itself is passed over. -/
def pageItems (pfx : Str) (after : Option Str) : Nat → List (Bytes × Bytes) → List Entry
  | 0, _ => []
  | _ + 1, [] => []
  | room + 1, (rawKey, value) :: items =>
      match fromUtf8 rawKey with
      | none => pageItems pfx after (room + 1) items
      | some key =>
          match stripPrefix pfx key with
          | none => [] -- past the family
          | some stripped =>
              -- The iterator starts at the cursor, which the page leaves out.
              if after = some stripped then pageItems pfx after (room + 1) items
              else (stripped, value) :: pageItems pfx after room items

/-- Where a page starts to read: at the cursor, or at the family. -/
def seek (cf : Str) : Option Str → Str
  | some cursor => composite cf cursor
  | none => keyPrefix cf

def scanPaged (s : RocksStore) (cf : Str) (after : Option Str) (limit : Nat) : List Entry :=
  pageItems (keyPrefix cf) after limit (s.db.iterFrom (utf8Bytes (seek cf after)))

instance : Backend RocksStore := ⟨put, delete, get, scan, count, scanPaged⟩

/-! ## The key space as text -/

/-- The keys of the database are text, as the map of texts has them. -/
def Holds (s : RocksStore) (space : SortedMap Str Bytes) : Prop :=
  s.db = space.mapKeys utf8Bytes utf8Bytes_strictMono

/-- The entry that a key of the space is in a family. -/
def strip (pfx : Str) (e : Entry) : Option Entry := (stripPrefix pfx e.1).map fun key => (key, e.2)

theorem strip_eq_some_iff {pfx : Str} {e e' : Entry} :
    strip pfx e = some e' ↔ e.1 = pfx ++ e'.1 ∧ e.2 = e'.2 := by
  rw [strip, Option.map_eq_some_iff]
  constructor
  · rintro ⟨key, hkey, rfl⟩
    exact ⟨stripPrefix_eq_some_iff.mp hkey, rfl⟩
  · rintro ⟨hkey, hvalue⟩
    exact ⟨e'.1, stripPrefix_eq_some_iff.mpr hkey, by rw [hvalue]⟩

theorem entries_under (pfx : Str) (space : SortedMap Str Bytes) :
    (space.under pfx).entries = space.entries.filterMap (strip pfx) := rfl

section Loops

variable {pfx : Str} {l : List Entry}

/-- Behind the first key of another family there is none of this one. -/
theorem filterMap_strip_eq_nil {e : Entry} (hsorted : SortedList.Sorted (e :: l))
    (hlow : pfx ≤ e.1) (hstrip : stripPrefix pfx e.1 = none) : l.filterMap (strip pfx) = [] := by
  rw [List.filterMap_eq_nil_iff]
  intro e' he'
  rw [Option.eq_none_iff_forall_ne_some]
  intro found hfound
  have hle : e.1 ≤ e'.1 := le_of_lt ((List.pairwise_cons.mp hsorted).1 e' he')
  have hprefix : pfx <+: e'.1 := ⟨found.1, (strip_eq_some_iff.mp hfound).1.symm⟩
  obtain ⟨key, hkey⟩ := prefix_of_between hlow hle hprefix
  rw [← hkey, stripPrefix_append] at hstrip
  cases hstrip

theorem scanItems_eq (hsorted : SortedList.Sorted l) (hlow : ∀ e ∈ l, pfx ≤ e.1) :
    scanItems pfx (l.map fun e => (utf8Bytes e.1, e.2)) = l.filterMap (strip pfx) := by
  induction l with
  | nil => rfl
  | cons e l ih =>
      obtain ⟨he, hl⟩ := List.forall_mem_cons.mp hlow
      rw [List.map_cons, scanItems, fromUtf8_utf8Bytes]
      cases hstrip : stripPrefix pfx e.1 with
      | none =>
          have hnone : strip pfx e = none := by rw [strip, hstrip]; rfl
          rw [List.filterMap_cons_none hnone, filterMap_strip_eq_nil hsorted he hstrip]
          simp only [hstrip]
      | some key =>
          have hsome : strip pfx e = some (key, e.2) := by rw [strip, hstrip]; rfl
          rw [List.filterMap_cons_some hsome, ← ih hsorted.of_cons hl]
          simp only [hstrip]

theorem pageItems_eq (hsorted : SortedList.Sorted l) (hlow : ∀ e ∈ l, pfx ≤ e.1)
    (after : Option Str) (limit : Nat) :
    pageItems pfx after limit (l.map fun e => (utf8Bytes e.1, e.2)) =
      ((l.filterMap (strip pfx)).filter fun e => after ≠ some e.1).take limit := by
  induction l generalizing limit with
  | nil => cases limit <;> rfl
  | cons e l ih =>
      cases limit with
      | zero => rw [pageItems, List.take_zero]
      | succ room =>
          obtain ⟨he, hl⟩ := List.forall_mem_cons.mp hlow
          rw [List.map_cons, pageItems, fromUtf8_utf8Bytes]
          cases hstrip : stripPrefix pfx e.1 with
          | none =>
              have hnone : strip pfx e = none := by rw [strip, hstrip]; rfl
              rw [List.filterMap_cons_none hnone, filterMap_strip_eq_nil hsorted he hstrip]
              simp only [hstrip]
              rfl
          | some key =>
              have hsome : strip pfx e = some (key, e.2) := by rw [strip, hstrip]; rfl
              rw [List.filterMap_cons_some hsome]
              by_cases hcursor : after = some key
              · simp only [hstrip, if_pos hcursor, List.filter_cons]
                rw [if_neg (by simp [hcursor]), ← ih hsorted.of_cons hl]
              · simp only [hstrip, if_neg hcursor, List.filter_cons]
                rw [if_pos (by simpa using hcursor), List.take_succ_cons,
                  ← ih hsorted.of_cons hl]

end Loops

/-! ## Families -/

section Families

variable {s : RocksStore} {space : SortedMap Str Bytes} {cf cf' key key' : Str}

theorem keyPrefix_append (cf key : Str) : keyPrefix cf ++ key = composite cf key := by
  rw [keyPrefix, composite, List.append_assoc, List.singleton_append]

/-- A key of the space is in one family only. -/
theorem composite_inj (hcf : cfSep ∉ cf) (hcf' : cfSep ∉ cf') :
    composite cf key = composite cf' key' ↔ cf = cf' ∧ key = key' := by
  constructor
  · exact append_sep_inj hcf hcf'
  · rintro ⟨rfl, rfl⟩
    rfl

theorem iterFrom_low {seek : Str} (hseek : keyPrefix cf ≤ seek) :
    ∀ e ∈ space.iterFrom seek, keyPrefix cf ≤ e.1 := by
  intro e he
  exact hseek.trans (of_decide_eq_true (List.mem_filter.mp he).2)

theorem scan_eq (h : s.Holds space) : s.scan cf = (space.under (keyPrefix cf)).entries := by
  have hall : space.entries.filterMap (strip (keyPrefix cf)) =
      (space.iterFrom (keyPrefix cf)).filterMap (strip (keyPrefix cf)) := by
    rw [SortedMap.iterFrom, List.filterMap_filter]
    apply List.filterMap_congr
    intro e _
    split
    · rfl
    · -- a key below the seek has not the prefix
      rename_i hlow
      rw [Option.eq_none_iff_forall_ne_some]
      intro found hfound
      rw [(strip_eq_some_iff.mp hfound).1] at hlow
      exact hlow (decide_eq_true le_append)
  rw [scan, h, SortedMap.iterFrom_mapKeys, entries_under, hall]
  exact scanItems_eq (space.sorted.filter _) (iterFrom_low le_rfl)

/-- Behind the cursor is from the cursor on, without it. -/
theorem isAfter_iff {after : Option Str} :
    isAfter after key = true ↔ after.getD [] ≤ key ∧ after ≠ some key := by
  cases after with
  | none => exact iff_of_true rfl ⟨not_lt.mp (List.not_lt_nil key), nofun⟩
  | some cursor =>
      rw [isAfter, Option.elim_some, decide_eq_true_eq, lt_iff_le_and_ne, Option.getD_some]
      simp

/-- The page is the page of the scan. -/
theorem scanPaged_eq (h : s.Holds space) (after : Option Str) (limit : Nat) :
    s.scanPaged cf after limit = defaultScanPaged (s.scan cf) after limit := by
  have hseek : seek cf after = keyPrefix cf ++ after.getD [] := by
    cases after with
    | none => exact (List.append_nil _).symm
    | some cursor => exact (keyPrefix_append cf cursor).symm
  -- From the cursor on and without it is what stands behind it, key by key.
  have hbehind : ((space.iterFrom (keyPrefix cf ++ after.getD [])).filterMap
        (strip (keyPrefix cf))).filter (fun e => after ≠ some e.1) =
      (space.entries.filterMap (strip (keyPrefix cf))).filter fun e => isAfter after e.1 := by
    rw [SortedMap.iterFrom, List.filterMap_filter, List.filter_filterMap, List.filter_filterMap]
    apply List.filterMap_congr
    intro e _
    cases hstrip : strip (keyPrefix cf) e with
    | none => split <;> simp
    | some found =>
        rw [(strip_eq_some_iff.mp hstrip).1]
        simp only [append_le_append_iff, decide_eq_true_eq]
        by_cases hle : after.getD [] ≤ found.1
        · rw [if_pos hle, Option.filter_some, Option.filter_some]
          simp [isAfter_iff, hle]
        · rw [if_neg hle, Option.filter_some]
          simp [isAfter_iff, hle]
  rw [scanPaged, scan_eq h, defaultScanPaged, entries_under, ← hbehind, hseek, h,
    SortedMap.iterFrom_mapKeys]
  exact pageItems_eq (space.sorted.filter _) (iterFrom_low le_append) after limit

end Families

/-! ## Both backends -/

/-- The key space after a write. -/
def writeSpace (space : SortedMap Str Bytes) : Write → SortedMap Str Bytes
  | .put cf key value => space.insert (composite cf key) value
  | .delete cf key => space.erase (composite cf key)

theorem get_writeSpace (space : SortedMap Str Bytes) (w : Write) (k : Str) :
    (writeSpace space w).get k = if k = composite w.cf w.key then w.value else space.get k := by
  cases w with
  | put cf key value =>
      show (space.insert (composite cf key) value).get k =
        if k = composite cf key then some value else space.get k
      rw [SortedMap.get_insert]
      congr
  | delete cf key =>
      show (space.erase (composite cf key)).get k =
        if k = composite cf key then none else space.get k
      rw [SortedMap.get_erase]
      congr

theorem Holds.write {s : RocksStore} {space : SortedMap Str Bytes} (h : s.Holds space) (w : Write) :
    Holds (Backend.write s w) (writeSpace space w) := by
  cases w with
  | put cf key value =>
      show s.db.insert _ _ = _
      rw [h, SortedMap.mapKeys_insert]
      rfl
  | delete cf key =>
      show s.db.erase _ = _
      rw [h, SortedMap.mapKeys_erase]
      rfl

/-- The database holds what the store in memory does, in families without a separator. -/
structure Mirrors (s : RocksStore) (m : MemoryStore) (space : SortedMap Str Bytes) : Prop where
  holds : s.Holds space
  get : ∀ cf key, cfSep ∉ cf → space.get (composite cf key) = m.get cf key

theorem mirrors_empty : Mirrors empty MemoryStore.empty SortedMap.empty :=
  ⟨rfl, fun _ _ _ => rfl⟩

/-- Writes keep the mirror. -/
theorem Mirrors.write {s : RocksStore} {m : MemoryStore} {space : SortedMap Str Bytes}
    (h : Mirrors s m space) (w : Write) (hw : cfSep ∉ w.cf) :
    Mirrors (Backend.write s w) (Backend.write m w) (writeSpace space w) := by
  refine ⟨h.holds.write w, fun cf key hcf => ?_⟩
  rw [get_writeSpace, MemoryStore.get_write, h.get cf key hcf]
  simp only [composite_inj hcf hw]

theorem mirrors_run {ws : List Write} (h : ∀ w ∈ ws, cfSep ∉ w.cf) :
    Mirrors (run Backend.write empty ws) (run Backend.write MemoryStore.empty ws)
      (run writeSpace SortedMap.empty ws) := by
  induction ws using List.reverseRecOn with
  | nil => exact mirrors_empty
  | append_singleton ws w ih =>
      have hbefore := ih fun w' hw' => h w' (List.mem_append_left _ hw')
      rw [run_append, run_append, run_append]
      exact hbefore.write w (h w (List.mem_append_right _ List.mem_cons_self))

theorem Mirrors.scan {s : RocksStore} {m : MemoryStore} {space : SortedMap Str Bytes}
    (h : Mirrors s m space) {cf : Str} (hcf : cfSep ∉ cf) : s.scan cf = m.scan cf := by
  have hfamily : space.under (keyPrefix cf) = m.family cf := by
    apply SortedMap.ext_get
    intro key
    rw [SortedMap.get_under, keyPrefix_append, h.get cf key hcf, MemoryStore.get_eq]
  rw [scan_eq h.holds, hfamily, MemoryStore.scan_eq]

end RocksStore

/-- A backend whose pages are the pages of a scan in key order streams the scan. -/
theorem streamYields_scan {σ : Type} [Backend σ] {s : σ} {cf : Str}
    (hsorted : SortedList.Sorted (Backend.scan s cf))
    (hpaged : ∀ after limit,
      Backend.scanPaged s cf after limit = defaultScanPaged (Backend.scan s cf) after limit)
    (pageSize : Nat) : StreamYields s cf pageSize (Backend.scan s cf) := by
  have hpages : Backend.scanPaged s cf = defaultScanPaged (Backend.scan s cf) := by
    funext after limit
    exact hpaged after limit
  rw [StreamYields, hpages]
  exact yields_scan hsorted (Nat.lt_of_lt_of_le Nat.zero_lt_one (Nat.le_max_right _ _))

/-- After the same writes every backend reads the same pages, and streams its scan. -/
theorem paged_reads {ws : List Write} (hws : ∀ w ∈ ws, cfSep ∉ w.cf) {cf : Str} (hcf : cfSep ∉ cf) :
    let m := run Backend.write MemoryStore.empty ws
    let r := run Backend.write RocksStore.empty ws
    (∀ after limit,
      m.scanPaged cf after limit = defaultScanPaged (m.scan cf) after limit ∧
      r.scanPaged cf after limit = defaultScanPaged (m.scan cf) after limit ∧
      defaultScanPaged (r.scan cf) after limit = defaultScanPaged (m.scan cf) after limit) ∧
    ∀ pageSize, StreamYields m cf pageSize (m.scan cf) ∧ StreamYields r cf pageSize (r.scan cf) ∧
      Yields (defaultScanPaged (m.scan cf)) (max pageSize 1) StreamState.start (m.scan cf) := by
  intro m r
  have hmirrors := RocksStore.mirrors_run hws
  have hscan : r.scan cf = m.scan cf := hmirrors.scan hcf
  have hmemory : ∀ after limit,
      m.scanPaged cf after limit = defaultScanPaged (m.scan cf) after limit :=
    m.scanPaged_eq cf
  have hrocks : ∀ after limit,
      r.scanPaged cf after limit = defaultScanPaged (r.scan cf) after limit :=
    RocksStore.scanPaged_eq hmirrors.holds
  have hsorted : SortedList.Sorted (m.scan cf) := by
    rw [MemoryStore.scan_eq]
    exact (m.family cf).sorted
  constructor
  · intro after limit
    refine ⟨hmemory after limit, ?_, by rw [hscan]⟩
    rw [hrocks, hscan]
  · intro pageSize
    have hsortedRocks : SortedList.Sorted (r.scan cf) := hscan ▸ hsorted
    exact ⟨streamYields_scan hsorted hmemory pageSize,
      streamYields_scan hsortedRocks hrocks pageSize,
      yields_scan hsorted (Nat.lt_of_lt_of_le Nat.zero_lt_one (Nat.le_max_right _ _))⟩

/-- Two families of which one's name starts with the other's. -/
def twoFamilies : List Write :=
  [.put "a".toList "x".toList [1], .put "ab".toList "y".toList [2], .put "a".toList "z".toList [3],
    .delete "a".toList "x".toList, .put "a".toList [] [4]]

theorem paged_reads_twoFamilies :
    let m := run Backend.write MemoryStore.empty twoFamilies
    let r := run Backend.write RocksStore.empty twoFamilies
    (∀ after limit,
      m.scanPaged "a".toList after limit = defaultScanPaged (m.scan "a".toList) after limit ∧
      r.scanPaged "a".toList after limit = defaultScanPaged (m.scan "a".toList) after limit ∧
      defaultScanPaged (r.scan "a".toList) after limit =
        defaultScanPaged (m.scan "a".toList) after limit) ∧
    ∀ pageSize, StreamYields m "a".toList pageSize (m.scan "a".toList) ∧
      StreamYields r "a".toList pageSize (r.scan "a".toList) ∧
      Yields (defaultScanPaged (m.scan "a".toList)) (max pageSize 1) StreamState.start
        (m.scan "a".toList) := by
  have hws : ∀ w ∈ twoFamilies, cfSep ∉ w.cf := by
    simp only [twoFamilies, List.forall_mem_cons]
    exact ⟨by decide, by decide, by decide, by decide, by decide, nofun⟩
  exact paged_reads hws (by decide)

example : (run Backend.write RocksStore.empty twoFamilies).scan "a".toList =
    [([], [4]), ("z".toList, [3])] := by
  decide +kernel

end GaussMatrix
