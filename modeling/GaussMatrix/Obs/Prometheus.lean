import GaussMatrix.Library.Lines
import GaussMatrix.Obs.Metrics

/-!
# The text of the metrics

The registry as lines of text, and what a reader of the format gets back from them.
-/

namespace GaussMatrix.Obs

open Library

/-! ## The code -/

def replaceChar (c : Char) (text : Str) (s : Str) : Str := s.flatMap fun d => if d = c then text else [d]

-- the backslashes first, so that those of the other two are not doubled
def escape (s : Str) : Str :=
  replaceChar '\n' ['\\', 'n'] (replaceChar '"' ['\\', '"'] (replaceChar '\\' ['\\', '\\'] s))

def renderLabel (label : Str ×ₗ Str) : Str :=
  (ofLex label).1 ++ '=' :: '"' :: (escape (ofLex label).2 ++ ['"'])

def Series.render (s : Series) : Str :=
  if s.labels = [] then s.name
  else s.name ++ '{' :: ([','].intercalate (s.labels.map renderLabel) ++ ['}'])

/-- A signed number in decimal. -/
def signed (n : Int) : Str := if n < 0 then '-' :: decimal n.natAbs else decimal n.natAbs

def typePrefix : Str := "# TYPE "

def typeLine (name kind : Str) : Str := typePrefix ++ name ++ ' ' :: kind

/-- The series of one kind, with a header wherever the name changes. -/
def renderGroup {ν : Type} (display : ν → Str) (kind : Str) : Option Str → List (Series × ν) → Str
  | _, [] => []
  | current, (s, v) :: rest =>
      (if current = some s.name then [] else typeLine s.name kind ++ ['\n']) ++
        (s.render ++ ' ' :: display v ++ ['\n']) ++ renderGroup display kind (some s.name) rest

def Metrics.renderPrometheus (m : Metrics) : Str :=
  renderGroup (fun v : UInt64 => decimal v.toNat) "counter" none m.counters.entries ++
    renderGroup signed "gauge" none m.gauges.entries

/-! ## A reader of the format -/

structure Sample where
  kind : Str
  name : Str
  labels : List (Str × Str)
  value : Str
  deriving DecidableEq

def isNameChar (c : Char) : Bool := c.isAlphanum || c = '_' || c = ':'

/-- The text up to the closing quote, and what follows. -/
def readQuoted : Str → Option (Str × Str)
  | [] => none
  | '"' :: rest => some ([], rest)
  | '\\' :: '\\' :: rest => (readQuoted rest).map fun r => ('\\' :: r.1, r.2)
  | '\\' :: '"' :: rest => (readQuoted rest).map fun r => ('"' :: r.1, r.2)
  | '\\' :: 'n' :: rest => (readQuoted rest).map fun r => ('\n' :: r.1, r.2)
  | '\\' :: _ => none
  | c :: rest => (readQuoted rest).map fun r => (c :: r.1, r.2)

/-- The labels up to the closing brace, and what follows. -/
def readLabels : Nat → Str → Option (List (Str × Str) × Str)
  | 0, _ => none
  | fuel + 1, s =>
      let key := s.takeWhile isNameChar
      match s.dropWhile isNameChar with
      | '=' :: '"' :: rest =>
          match readQuoted rest with
          | some (value, ',' :: rest) =>
              (readLabels fuel rest).map fun r => ((key, value) :: r.1, r.2)
          | some (value, '}' :: rest) => some ([(key, value)], rest)
          | _ => none
      | _ => none

/-- The name, the labels and the value of a line. -/
def readSample (line : Str) : Option (Str × List (Str × Str) × Str) :=
  let name := line.takeWhile isNameChar
  match line.dropWhile isNameChar with
  | ' ' :: value => some (name, [], value)
  | '{' :: rest =>
      match readLabels rest.length rest with
      | some (labels, ' ' :: value) => some (name, labels, value)
      | _ => none
  | _ => none

/-- The samples of lines, each under a header that names it. -/
def readLines : Option (Str × Str) → List Str → Option (List Sample)
  | _, [] => some []
  | header, line :: lines =>
      match stripPrefix typePrefix line with
      | some text => (splitOnce ' ' text).bind fun header => readLines (some header) lines
      | none =>
          match readSample line with
          | none => none
          | some (name, labels, value) =>
              -- the header in force names the metric and says its kind
              (header.filter fun h => h.1 = name).bind fun h =>
                (readLines header lines).map fun samples => ⟨h.2, name, labels, value⟩ :: samples

def readExposition (text : Str) : Option (List Sample) := readLines none (text.splitOn '\n').dropLast

/-! ## What is plain, and what is sampled -/

/-- A name that the format can take as it stands. -/
def IsName (s : Str) : Prop := s ≠ [] ∧ ∀ c ∈ s, isNameChar c = true

instance (s : Str) : Decidable (IsName s) :=
  decidable_of_iff (s ≠ [] ∧ s.all isNameChar = true) (and_congr_right' List.all_eq_true)

/-- The name and the keys of the labels are names; the values of the labels are any text. -/
structure Series.Plain (s : Series) : Prop where
  name : IsName s.name
  keys : ∀ label ∈ s.labels, IsName (ofLex label).1

structure Metrics.Plain (m : Metrics) : Prop where
  counters : ∀ s ∈ m.counters.keys, s.Plain
  gauges : ∀ s ∈ m.gauges.keys, s.Plain

def sampleOf {ν : Type} (display : ν → Str) (kind : Str) (e : Series × ν) : Sample :=
  ⟨kind, e.1.name, e.1.labels.map ofLex, display e.2⟩

def Metrics.samples (m : Metrics) : List Sample :=
  m.counters.entries.map (sampleOf (fun v : UInt64 => decimal v.toNat) "counter") ++
    m.gauges.entries.map (sampleOf signed "gauge")

section

variable {s rest : Str} {c : Char} {series : Series} {kind : Str} {ν : Type} {display : ν → Str}

/-- The labels of a series are those it is made of, in another order. -/
theorem plain_new {name : Str} {labels : List (Str × Str)} (hname : IsName name)
    (hlabels : ∀ label ∈ labels, IsName label.1) :
    (Series.new name labels).Plain := by
  refine ⟨hname, ?_⟩
  intro label hlabel
  rw [Series.new, List.mem_insertionSort, List.mem_map] at hlabel
  obtain ⟨label, hlabel, rfl⟩ := hlabel
  exact hlabels label hlabel

/-! ## Labels -/

def escapeChar (c : Char) : Str :=
  if c = '\\' then ['\\', '\\'] else if c = '"' then ['\\', '"'] else if c = '\n' then ['\\', 'n']
  else [c]

/-- The three replacements, one after the other, do not meet. -/
theorem escape_eq (s : Str) : escape s = s.flatMap escapeChar := by
  rw [escape, replaceChar, replaceChar, replaceChar, List.flatMap_assoc, List.flatMap_assoc]
  apply List.flatMap_congr
  intro c _
  by_cases hslash : c = '\\'
  · subst hslash
    decide
  by_cases hquote : c = '"'
  · subst hquote
    decide
  by_cases hline : c = '\n'
  · subst hline
    decide
  simp [escapeChar, hslash, hquote, hline]

theorem readQuoted_escape (value rest : Str) :
    readQuoted (escape value ++ '"' :: rest) = some (value, rest) := by
  rw [escape_eq]
  induction value with
  | nil => rfl
  | cons c cs ih =>
      rw [List.flatMap_cons, List.append_assoc]
      by_cases hslash : c = '\\'
      · subst hslash
        show (readQuoted (cs.flatMap escapeChar ++ '"' :: rest)).map _ = _
        rw [ih]
        rfl
      by_cases hquote : c = '"'
      · subst hquote
        show (readQuoted (cs.flatMap escapeChar ++ '"' :: rest)).map _ = _
        rw [ih]
        rfl
      by_cases hline : c = '\n'
      · subst hline
        show (readQuoted (cs.flatMap escapeChar ++ '"' :: rest)).map _ = _
        rw [ih]
        rfl
      have hself : escapeChar c = [c] := by simp [escapeChar, hslash, hquote, hline]
      rw [hself, List.singleton_append, readQuoted, ih]
      · rfl
      all_goals simp_all

/-- A name is read up to the character that ends it. -/
theorem span_name (hs : IsName s) (hc : isNameChar c = false) (rest : Str) :
    (s ++ c :: rest).takeWhile isNameChar = s ∧ (s ++ c :: rest).dropWhile isNameChar = c :: rest := by
  apply span_append hs.2
  rintro d hd
  obtain rfl : c = d := by simpa using hd
  exact hc

theorem newline_not_mem_name (hs : IsName s) : '\n' ∉ s :=
  fun h => absurd (hs.2 _ h) (by decide)

theorem newline_not_mem_escape (value : Str) : '\n' ∉ escape value := by
  have hchar : ∀ c, '\n' ∉ escapeChar c := by
    intro c
    unfold escapeChar
    split_ifs with hslash hquote hline
    case pos => decide
    case pos => decide
    case pos => decide
    case neg => simpa using Ne.symm hline
  rw [escape_eq, List.mem_flatMap]
  rintro ⟨c, -, hc⟩
  exact hchar c hc

theorem readLabels_render {labels : List (Str ×ₗ Str)} (hne : labels ≠ [])
    (hkeys : ∀ label ∈ labels, IsName (ofLex label).1) {fuel : Nat} (hfuel : labels.length ≤ fuel)
    (rest : Str) :
    readLabels fuel ([','].intercalate (labels.map renderLabel) ++ '}' :: rest) =
      some (labels.map ofLex, rest) := by
  induction labels generalizing fuel with
  | nil => exact absurd rfl hne
  | cons label labels ih =>
      rw [List.forall_mem_cons] at hkeys
      obtain ⟨fuel, rfl⟩ : ∃ n, fuel = n + 1 := ⟨fuel - 1, by rw [List.length_cons] at hfuel; omega⟩
      rw [List.length_cons, Nat.add_le_add_iff_right] at hfuel
      -- one label, whatever follows it
      have hlabel : ∀ more : Str,
          (renderLabel label ++ more).takeWhile isNameChar = (ofLex label).1 ∧
          (renderLabel label ++ more).dropWhile isNameChar =
            '=' :: '"' :: (escape (ofLex label).2 ++ '"' :: more) := by
        intro more
        have hspan := span_name hkeys.1 (by decide : isNameChar '=' = false)
          ('"' :: (escape (ofLex label).2 ++ '"' :: more))
        simpa [renderLabel] using hspan
      cases labels with
      | nil =>
          rw [List.map_singleton, List.intercalate_singleton, readLabels, (hlabel _).1, (hlabel _).2]
          simp only [readQuoted_escape]
          rfl
      | cons label' labels =>
          have hrest := ih (List.cons_ne_nil _ _) hkeys.2 hfuel
          rw [List.map_cons, List.map_cons, List.intercalate_cons_cons, List.append_assoc,
            List.append_assoc, ← List.map_cons, readLabels, (hlabel _).1, (hlabel _).2]
          simp only [readQuoted_escape, List.singleton_append, hrest]
          rfl

theorem length_le_intercalate (labels : List (Str ×ₗ Str)) :
    labels.length ≤ ([','].intercalate (labels.map renderLabel)).length := by
  induction labels with
  | nil => exact Nat.zero_le _
  | cons label labels ih =>
      have hpos : 0 < (renderLabel label).length := by simp [renderLabel]
      cases labels with
      | nil =>
          rw [List.map_singleton, List.intercalate_singleton]
          exact hpos
      | cons label' labels =>
          rw [List.map_cons, List.map_cons, List.intercalate_cons_cons, ← List.map_cons,
            List.length_append, List.length_append, List.length_cons]
          omega

/-! ## Samples -/

theorem readSample_render (hs : series.Plain) (value : Str) :
    readSample (series.render ++ ' ' :: value) =
      some (series.name, series.labels.map ofLex, value) := by
  unfold readSample Series.render
  by_cases hlabels : series.labels = []
  · have hspan := span_name hs.name (by decide : isNameChar ' ' = false) value
    rw [if_pos hlabels, hspan.1, hspan.2, hlabels]
    rfl
  · have hspan := span_name hs.name (by decide : isNameChar '{' = false)
      ([','].intercalate (series.labels.map renderLabel) ++ '}' :: ' ' :: value)
    have htext : series.name ++ '{' :: ([','].intercalate (series.labels.map renderLabel) ++ ['}']) ++
        ' ' :: value = series.name ++ '{' ::
          ([','].intercalate (series.labels.map renderLabel) ++ '}' :: ' ' :: value) := by
      simp
    have hfuel : series.labels.length ≤
        ([','].intercalate (series.labels.map renderLabel) ++ '}' :: ' ' :: value).length := by
      have hle := length_le_intercalate series.labels
      rw [List.length_append]
      omega
    rw [if_neg hlabels, htext, hspan.1, hspan.2]
    simp only [readLabels_render hlabels hs.keys hfuel]

theorem newline_not_mem_render (hs : series.Plain) : '\n' ∉ series.render := by
  have hlabels : ∀ labels : List (Str ×ₗ Str), (∀ label ∈ labels, IsName (ofLex label).1) →
      '\n' ∉ [','].intercalate (labels.map renderLabel) := by
    intro labels hkeys
    induction labels with
    | nil => exact List.not_mem_nil
    | cons label labels ih =>
        rw [List.forall_mem_cons] at hkeys
        have hlabel : '\n' ∉ renderLabel label := by
          simp [renderLabel, newline_not_mem_name hkeys.1, newline_not_mem_escape]
        cases labels with
        | nil => simpa using hlabel
        | cons label' labels =>
            rw [List.map_cons, List.map_cons, List.intercalate_cons_cons, ← List.map_cons]
            have hrest := ih hkeys.2
            exact List.not_mem_append (List.not_mem_append hlabel (by decide)) hrest
  unfold Series.render
  split
  · exact newline_not_mem_name hs.name
  · simp [newline_not_mem_name hs.name, hlabels series.labels hs.keys]

/-! ## Lines -/

/-- The lines of a group. -/
def groupLines {ν : Type} (display : ν → Str) (kind : Str) :
    Option Str → List (Series × ν) → List Str
  | _, [] => []
  | current, (s, v) :: rest =>
      (if current = some s.name then [] else [typeLine s.name kind]) ++
        (s.render ++ ' ' :: display v) :: groupLines display kind (some s.name) rest

theorem renderGroup_eq (current : Option Str) (entries : List (Series × ν)) :
    renderGroup display kind current entries =
      (groupLines display kind current entries).flatMap fun line => line ++ ['\n'] := by
  induction entries generalizing current with
  | nil => rfl
  | cons e entries ih =>
      rw [renderGroup, groupLines, ih, List.flatMap_append, List.flatMap_cons, ← List.append_assoc]
      split <;> simp

theorem newline_not_mem_typeLine {name kind : Str} (hname : IsName name) (hkind : '\n' ∉ kind) :
    '\n' ∉ typeLine name kind := by
  have htype : '\n' ∉ typePrefix := by decide
  have hend : '\n' ∉ ' ' :: kind := List.not_mem_cons_of_ne_of_not_mem (by decide) hkind
  exact List.not_mem_append (List.not_mem_append htype (newline_not_mem_name hname)) hend

theorem newline_not_mem_groupLines {entries : List (Series × ν)}
    (hplain : ∀ e ∈ entries, e.1.Plain) (hkind : '\n' ∉ kind) (hdisplay : ∀ v, '\n' ∉ display v)
    (current : Option Str) : ∀ line ∈ groupLines display kind current entries, '\n' ∉ line := by
  induction entries generalizing current with
  | nil => exact fun _ h => absurd h List.not_mem_nil
  | cons e entries ih =>
      rw [List.forall_mem_cons] at hplain
      intro line hline
      rw [groupLines, List.mem_append, List.mem_cons] at hline
      rcases hline with hline | rfl | hline
      · split at hline
        · cases hline
        · rw [List.mem_singleton] at hline
          rw [hline]
          exact newline_not_mem_typeLine hplain.1.name hkind
      · have hvalue : '\n' ∉ ' ' :: display e.2 :=
          List.not_mem_cons_of_ne_of_not_mem (by decide) (hdisplay e.2)
        exact List.not_mem_append (newline_not_mem_render hplain.1) hvalue
      · exact ih hplain.2 _ line hline

/-! ## Reading the lines -/

theorem stripPrefix_typeLine {name : Str} (hname : IsName name) (kind : Str) :
    ∃ text, stripPrefix typePrefix (typeLine name kind) = some text ∧
      splitOnce ' ' text = some (name, kind) := by
  refine ⟨name ++ ' ' :: kind, ?_, ?_⟩
  · rw [typeLine, List.append_assoc]
    exact stripPrefix_append _ _
  · exact splitOnce_append (fun h => absurd (hname.2 _ h) (by decide)) kind

/-- A sample is no header: it begins with its name. -/
theorem stripPrefix_render (hs : series.Plain) (rest : Str) :
    stripPrefix typePrefix (series.render ++ rest) = none := by
  obtain ⟨c, cs, hname⟩ := List.exists_cons_of_ne_nil hs.name.1
  have hc : isNameChar c = true := hs.name.2 c (by rw [hname]; exact List.mem_cons_self)
  have hfirst : ∃ more, series.render ++ rest = c :: more := by
    unfold Series.render
    split <;> exact ⟨_, by rw [hname]; rfl⟩
  obtain ⟨more, hmore⟩ := hfirst
  have hne : '#' ≠ c := by
    rintro rfl
    exact absurd hc (by decide)
  rw [hmore]
  exact if_neg hne

theorem readLines_sample (hs : series.Plain) (value : Str) {header : Option (Str × Str)}
    (hheader : header = some (series.name, kind)) (lines : List Str) :
    readLines header ((series.render ++ ' ' :: value) :: lines) =
      (readLines header lines).map fun samples =>
        ⟨kind, series.name, series.labels.map ofLex, value⟩ :: samples := by
  rw [readLines]
  simp only [stripPrefix_render hs, readSample_render hs, hheader]
  rw [Option.filter_some, if_pos (decide_eq_true rfl), Option.bind_some]

theorem readLines_typeLine {name : Str} (hname : IsName name) (header : Option (Str × Str))
    (lines : List Str) :
    readLines header (typeLine name kind :: lines) = readLines (some (name, kind)) lines := by
  obtain ⟨text, hstrip, hsplit⟩ := stripPrefix_typeLine hname kind
  rw [readLines]
  simp only [hstrip, hsplit, Option.bind_some]

-- The group is read entry by entry; the header that holds is that of the last name.
theorem readLines_groupLines {entries : List (Series × ν)} (hplain : ∀ e ∈ entries, e.1.Plain)
    {current : Option Str} {header : Option (Str × Str)}
    (hcurrent : ∀ name, current = some name → header = some (name, kind)) {lines : List Str}
    {tail : List Sample} (hlines : ∀ header, readLines header lines = some tail) :
    readLines header (groupLines display kind current entries ++ lines) =
      some (entries.map (sampleOf display kind) ++ tail) := by
  induction entries generalizing current header with
  | nil => exact hlines header
  | cons e entries ih =>
      rw [List.forall_mem_cons] at hplain
      have hrest : readLines (some (e.1.name, kind))
          (groupLines display kind (some e.1.name) entries ++ lines) =
            some (entries.map (sampleOf display kind) ++ tail) := by
        apply ih hplain.2
        rintro name h
        rw [Option.some.inj h]
      rw [groupLines, List.append_assoc, List.cons_append]
      split
      · rename_i hsame
        rw [List.nil_append, readLines_sample hplain.1 _ (hcurrent _ hsame), hcurrent _ hsame, hrest]
        rfl
      · rw [List.singleton_append, readLines_typeLine hplain.1.name,
          readLines_sample hplain.1 _ rfl, hrest]
        rfl

theorem newline_not_mem_signed (n : Int) : '\n' ∉ signed n := by
  unfold signed
  split
  · exact List.not_mem_cons_of_ne_of_not_mem (by decide) (newline_not_mem_decimal _)
  · exact newline_not_mem_decimal _

variable {m m' : Metrics}

/-- The lines of the text. -/
def Metrics.lines (m : Metrics) : List Str :=
  groupLines (fun v : UInt64 => decimal v.toNat) "counter" none m.counters.entries ++
    groupLines signed "gauge" none m.gauges.entries

theorem Metrics.Plain.of_counter (hm : m.Plain) : ∀ e ∈ m.counters.entries, e.1.Plain :=
  fun e he => hm.counters e.1 (List.mem_map_of_mem he)

theorem Metrics.Plain.of_gauge (hm : m.Plain) : ∀ e ∈ m.gauges.entries, e.1.Plain :=
  fun e he => hm.gauges e.1 (List.mem_map_of_mem he)

theorem splitOn_renderPrometheus (hm : m.Plain) :
    m.renderPrometheus.splitOn '\n' = m.lines ++ [[]] := by
  have hlines : ∀ line ∈ m.lines, '\n' ∉ line := by
    rw [Metrics.lines, List.forall_mem_append]
    exact ⟨newline_not_mem_groupLines hm.of_counter (by decide)
        (fun v => newline_not_mem_decimal v.toNat) none,
      newline_not_mem_groupLines hm.of_gauge (by decide) newline_not_mem_signed none⟩
  rw [← splitOn_terminated hlines, Metrics.renderPrometheus, renderGroup_eq, renderGroup_eq,
    Metrics.lines, List.flatMap_append]

theorem readExposition_renderPrometheus (hm : m.Plain) :
    readExposition m.renderPrometheus = some m.samples := by
  have hgauges : ∀ header, readLines header (groupLines signed "gauge" none m.gauges.entries) =
      some (m.gauges.entries.map (sampleOf signed "gauge")) := by
    intro header
    have hread : readLines header (groupLines signed "gauge" none m.gauges.entries ++ []) =
        some (m.gauges.entries.map (sampleOf signed "gauge") ++ []) := by
      apply readLines_groupLines hm.of_gauge
      · simp
      · exact fun _ => rfl
    rwa [List.append_nil, List.append_nil] at hread
  rw [readExposition, splitOn_renderPrometheus hm, List.dropLast_concat, Metrics.lines]
  exact readLines_groupLines hm.of_counter (by simp) hgauges

/-! ## The registry from its samples -/

theorem decimal_injective : Function.Injective decimal := by
  intro a b h
  rw [← ofDigitChars_decimal a, h, ofDigitChars_decimal]

theorem signed_injective : Function.Injective signed := by
  have hsign : ∀ n : Int, '-' ∈ signed n ↔ n < 0 := by
    intro n
    unfold signed
    split
    · rename_i hn
      exact iff_of_true List.mem_cons_self hn
    · rename_i hn
      exact iff_of_false (fun h => absurd (isDigit_of_mem_decimal h) (by decide)) hn
  intro a b h
  have hneg : a < 0 ↔ b < 0 := by rw [← hsign a, ← hsign b, h]
  have habs : a.natAbs = b.natAbs := by
    apply decimal_injective
    by_cases ha : a < 0
    · rw [signed, signed, if_pos ha, if_pos (hneg.mp ha)] at h
      exact List.tail_eq_of_cons_eq h
    · rwa [signed, signed, if_neg ha, if_neg (fun hb => ha (hneg.mpr hb))] at h
  omega

theorem sampleOf_injective (hdisplay : Function.Injective display) (kind : Str) :
    Function.Injective (sampleOf display kind) := by
  rintro ⟨s, v⟩ ⟨t, w⟩ h
  simp only [sampleOf, Sample.mk.injEq, true_and] at h
  obtain ⟨hname, hlabels, hvalue⟩ := h
  have hlabels : s.labels = t.labels := List.map_injective_iff.mpr ofLex.injective hlabels
  cases s
  cases t
  rw [Prod.mk.injEq, Series.mk.injEq]
  exact ⟨⟨hname, hlabels⟩, hdisplay hvalue⟩

theorem eq_of_entries {α β : Type} [LinearOrder α] {a b : SortedMap α β}
    (h : a.entries = b.entries) : a = b := by
  cases a
  cases b
  congr

theorem samples_injective (h : m.samples = m'.samples) : m = m' := by
  -- the kind tells the counters from the gauges
  have hcounters : ∀ m : Metrics, m.samples.filter (fun s => s.kind = "counter".toList) =
      m.counters.entries.map (sampleOf (fun v : UInt64 => decimal v.toNat) "counter") := by
    intro m
    have hne : "gauge".toList ≠ "counter".toList := by decide
    simp [Metrics.samples, List.filter_map, Function.comp_def, sampleOf]
  have hgauges : ∀ m : Metrics, m.samples.filter (fun s => s.kind = "gauge".toList) =
      m.gauges.entries.map (sampleOf signed "gauge") := by
    intro m
    simp [Metrics.samples, List.filter_map, Function.comp_def, sampleOf]
  have hcounter := hcounters m
  have hgauge := hgauges m
  rw [h, hcounters m'] at hcounter
  rw [h, hgauges m'] at hgauge
  have hdecimal : Function.Injective fun v : UInt64 => decimal v.toNat :=
    fun v w h => UInt64.toNat_inj.mp (decimal_injective h)
  have hc := List.map_injective_iff.mpr (sampleOf_injective hdecimal "counter") hcounter
  have hg := List.map_injective_iff.mpr (sampleOf_injective signed_injective "gauge") hgauge
  cases m
  cases m'
  rw [Metrics.mk.injEq]
  exact ⟨eq_of_entries hc.symm, eq_of_entries hg.symm⟩

/-! ## Headers -/

/-- The name of a header. -/
def typedName (line : Str) : Option Str :=
  (stripPrefix typePrefix line).bind fun text => (splitOnce ' ' text).map Prod.fst

/-- The names that a text has headers for. -/
def typedNames (text : Str) : List Str := (text.splitOn '\n').filterMap typedName

def groupNames (current : Option Str) : List (Series × ν) → List Str
  | [] => []
  | (s, _) :: rest =>
      (if current = some s.name then [] else [s.name]) ++ groupNames (some s.name) rest

theorem typedName_typeLine {name : Str} (hname : IsName name) :
    typedName (typeLine name kind) = some name := by
  obtain ⟨text, hstrip, hsplit⟩ := stripPrefix_typeLine hname kind
  rw [typedName, hstrip, Option.bind_some, hsplit]
  rfl

theorem typedNames_groupLines {entries : List (Series × ν)} (hplain : ∀ e ∈ entries, e.1.Plain)
    (current : Option Str) :
    (groupLines display kind current entries).filterMap typedName = groupNames current entries := by
  induction entries generalizing current with
  | nil => rfl
  | cons e entries ih =>
      rw [List.forall_mem_cons] at hplain
      have hsample : typedName (e.1.render ++ ' ' :: display e.2) = none := by
        rw [typedName, stripPrefix_render hplain.1, Option.bind_none]
      rw [groupLines, groupNames, List.filterMap_append, List.filterMap_cons_none hsample,
        ih hplain.2]
      split
      · rfl
      · rw [List.filterMap_cons_some (typedName_typeLine hplain.1.name)]
        rfl

theorem name_le_of_lt {s t : Series} (h : s < t) : s.name ≤ t.name := by
  have hlex : toLex (s.name, s.labels) < toLex (t.name, t.labels) := h
  rcases Prod.Lex.lt_iff.mp hlex with hname | ⟨hname, -⟩
  · exact hname.le
  · exact hname.le

-- In key order a name does not come back once another has followed it.
theorem groupNames_sorted {entries : List (Series × ν)}
    (hsorted : entries.Pairwise fun a b => a.1 < b.1) (current : Option Str)
    (hcurrent : ∀ name, current = some name → ∀ e ∈ entries, name ≤ e.1.name) :
    (groupNames current entries).Pairwise (· < ·) ∧
      (∀ name ∈ groupNames current entries, ∃ e ∈ entries, e.1.name = name) ∧
      ∀ name, current = some name → ∀ name' ∈ groupNames current entries, name < name' := by
  induction entries generalizing current with
  | nil => exact ⟨List.Pairwise.nil, by simp [groupNames], by simp [groupNames]⟩
  | cons e entries ih =>
      obtain ⟨hfirst, hrest⟩ := List.pairwise_cons.mp hsorted
      have hle : ∀ name, some e.1.name = some name → ∀ e' ∈ entries, name ≤ e'.1.name := by
        rintro name h e' he'
        rw [← Option.some.inj h]
        exact name_le_of_lt (hfirst e' he')
      obtain ⟨hpairwise, hmem, habove⟩ := ih hrest (some e.1.name) hle
      have hmem : ∀ name ∈ groupNames (some e.1.name) entries, ∃ e' ∈ e :: entries, e'.1.name = name := by
        intro name hname
        obtain ⟨e', he', heq⟩ := hmem name hname
        exact ⟨e', List.mem_cons_of_mem _ he', heq⟩
      rw [groupNames]
      split
      · rename_i hsame
        refine ⟨hpairwise, hmem, ?_⟩
        rw [hsame]
        exact habove
      · rename_i hother
        refine ⟨List.pairwise_cons.mpr ⟨habove _ rfl, hpairwise⟩, ?_, ?_⟩
        · rw [List.singleton_append, List.forall_mem_cons]
          exact ⟨⟨e, List.mem_cons_self, rfl⟩, hmem⟩
        · intro name hname
          have hlt : name < e.1.name := by
            refine lt_of_le_of_ne (hcurrent name hname e List.mem_cons_self) ?_
            rintro rfl
            exact hother hname
          rw [List.singleton_append, List.forall_mem_cons]
          exact ⟨hlt, fun name' hname' => hlt.trans (habove _ rfl name' hname')⟩

/-- Where no counter is named as a gauge is, each metric has one header. -/
theorem typedNames_nodup (hm : m.Plain)
    (hdisjoint : ∀ s ∈ m.counters.keys, ∀ t ∈ m.gauges.keys, s.name ≠ t.name) :
    (typedNames m.renderPrometheus).Nodup := by
  obtain ⟨hc, hcmem, -⟩ := groupNames_sorted m.counters.sorted none (by simp)
  obtain ⟨hg, hgmem, -⟩ := groupNames_sorted m.gauges.sorted none (by simp)
  have hnames : typedNames m.renderPrometheus =
      groupNames none m.counters.entries ++ groupNames none m.gauges.entries := by
    rw [typedNames, splitOn_renderPrometheus hm, Metrics.lines, List.filterMap_append,
      List.filterMap_append, typedNames_groupLines hm.of_counter,
      typedNames_groupLines hm.of_gauge]
    exact List.append_nil _
  rw [hnames, List.nodup_append]
  refine ⟨hc.imp ne_of_lt, hg.imp ne_of_lt, ?_⟩
  rintro name hname name' hname' rfl
  obtain ⟨e, he, heq⟩ := hcmem name hname
  obtain ⟨e', he', heq'⟩ := hgmem name hname'
  exact hdisjoint e.1 (List.mem_map_of_mem he) e'.1 (List.mem_map_of_mem he') (heq.trans heq'.symm)

end

/-- Two series of one counter, the first with a quote in its label, and a gauge below zero. -/
def sampleMetrics : Metrics where
  counters := (SortedMap.empty.insert (Series.new "calls" [("op".toList, "c".toList)]) 1).insert
    (Series.new "calls" [("op".toList, "a\"b".toList)]) 3
  gauges := SortedMap.empty.insert (Series.new "pending" []) (-2)

theorem sampleMetrics_plain : sampleMetrics.Plain := by
  have hname : IsName "calls" ∧ IsName "pending" ∧ IsName "op" := by decide
  constructor
  · intro s hs
    rw [sampleMetrics, SortedMap.mem_keys_insert, SortedMap.mem_keys_insert] at hs
    rcases hs with rfl | rfl | hs
    · exact plain_new hname.1 (List.forall_mem_singleton.mpr hname.2.2)
    · exact plain_new hname.1 (List.forall_mem_singleton.mpr hname.2.2)
    · cases hs
  · intro s hs
    rw [sampleMetrics, SortedMap.mem_keys_insert] at hs
    rcases hs with rfl | hs
    · exact plain_new hname.2.1 (by simp)
    · cases hs

end GaussMatrix.Obs
