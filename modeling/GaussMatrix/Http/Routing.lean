import GaussMatrix.Http.Percent

/-!
# Routes of filled templates

A template with its parameters filled in, however they are encoded, is routed to the endpoint it is
the template of: two endpoints with one method and as many segments differ in a segment that both
have literally.
-/

namespace GaussMatrix.Http

open Library Util

/-- A template segment, filled in. -/
def fillSegment (enc : Str → Str) (tmpl : Str) : Str := (placeholder tmpl).elim tmpl enc

theorem fillSegment_of_none {enc : Str → Str} {tmpl : Str} (h : placeholder tmpl = none) :
    fillSegment enc tmpl = tmpl := by
  rw [fillSegment, h]
  rfl

theorem fillSegment_of_some {enc : Str → Str} {tmpl name : Str} (h : placeholder tmpl = some name) :
    fillSegment enc tmpl = enc name := by
  rw [fillSegment, h]
  rfl

namespace Endpoint

/-- The segments of a path with its parameters filled in. -/
def segments (e : Endpoint) (enc : Str → Str) : List Str := (splitPath e.path).map (fillSegment enc)

/-- A path with its parameters filled in. -/
def target (e : Endpoint) (enc : Str → Str) : Str := (e.segments enc).flatMap ('/' :: ·)

/-- The names of the parameters. -/
def params (e : Endpoint) : List Str := (splitPath e.path).filterMap placeholder

example : (ss .get "/_matrix/federation/v1/backfill/{roomId}".toList).target (fun _ => "a".toList) =
    "/_matrix/federation/v1/backfill/a".toList := by
  decide +kernel

end Endpoint

/-! ## Matching a filled template -/

theorem splitPath_flatMap {segments : List Str} (h : ∀ seg ∈ segments, seg ≠ [] ∧ '/' ∉ seg) :
    splitPath (segments.flatMap ('/' :: ·)) = segments := by
  -- what the split finds behind a slash
  have hsplit : ∀ first, '/' ∉ first →
      (first ++ segments.flatMap ('/' :: ·)).splitOn '/' = first :: segments := by
    induction segments with
    | nil =>
        intro first hfirst
        rw [List.flatMap_nil, List.append_nil, List.splitOn_eq_singleton hfirst]
    | cons seg segments ih =>
        intro first hfirst
        obtain ⟨⟨-, hseg⟩, hsegments⟩ := List.forall_mem_cons.mp h
        rw [List.flatMap_cons, List.cons_append, List.splitOn_append_cons_self_of_not_mem hfirst,
          ih hsegments seg hseg]
  have hnonempty : segments.filter (· ≠ []) = segments :=
    List.filter_eq_self.mpr fun seg hseg => decide_eq_true (h seg hseg).1
  have hfirst := hsplit [] List.not_mem_nil
  rw [List.nil_append] at hfirst
  rw [splitPath, hfirst, List.filter_cons_of_neg (by decide), hnonempty]

/-- A template matches its segments filled in, and captures what they decode to. -/
theorem matchSegments_fill {enc value : Str → Str} {tmpls : List Str}
    (h : ∀ name ∈ tmpls.filterMap placeholder, percentDecode (enc name) = value name)
    (params : SortedMap Str Str) :
    ∃ params', matchSegments params (tmpls.map fun t => (t, fillSegment enc t)) = some params' ∧
      ∀ name, params'.get name =
        if name ∈ tmpls.filterMap placeholder then some (value name) else params.get name := by
  induction tmpls generalizing params with
  | nil => exact ⟨params, rfl, fun name => rfl⟩
  | cons t tmpls ih =>
      cases hplace : placeholder t with
      | none =>
          rw [List.filterMap_cons_none hplace] at h ⊢
          obtain ⟨params', hmatch, hget⟩ := ih h params
          refine ⟨params', ?_, hget⟩
          rw [List.map_cons, matchSegments, hplace, fillSegment_of_none hplace]
          exact (if_pos rfl).trans hmatch
      | some name =>
          rw [List.filterMap_cons_some hplace] at h ⊢
          obtain ⟨hname, hnames⟩ := List.forall_mem_cons.mp h
          obtain ⟨params', hmatch, hget⟩ := ih hnames (params.insert name (value name))
          refine ⟨params', ?_, fun name' => ?_⟩
          · rw [List.map_cons, matchSegments, hplace, fillSegment_of_some hplace]
            show matchSegments (params.insert name (percentDecode (enc name))) _ = _
            rw [hname]
            exact hmatch
          · rw [hget, SortedMap.get_insert]
            by_cases hmem : name' ∈ tmpls.filterMap placeholder
            · rw [if_pos hmem, if_pos (List.mem_cons_of_mem _ hmem)]
            · by_cases hsame : name' = name
              · rw [if_neg hmem, if_pos hsame, hsame, if_pos List.mem_cons_self]
              · rw [if_neg hmem, if_neg hsame,
                  if_neg (List.not_mem_cons_of_ne_of_not_mem hsame hmem)]

/-! ## Telling templates apart -/

/-- Two templates differ in how many segments they have, or in one that both have literally. -/
def Separated (tmpls tmpls' : List Str) : Bool :=
  tmpls.length ≠ tmpls'.length ||
    (tmpls.zip tmpls').any fun t => placeholder t.1 = none ∧ placeholder t.2 = none ∧ t.1 ≠ t.2

theorem matchSegments_literal {params params' : SortedMap Str Str} {pairs : List (Str × Str)}
    (h : matchSegments params pairs = some params') {tmpl seg : Str} (hmem : (tmpl, seg) ∈ pairs)
    (hliteral : placeholder tmpl = none) : seg = tmpl := by
  induction pairs generalizing params with
  | nil => cases hmem
  | cons pair pairs ih =>
      obtain ⟨tmpl', seg'⟩ := pair
      rw [matchSegments] at h
      rcases List.mem_cons.mp hmem with heq | hmem
      · obtain ⟨rfl, rfl⟩ := Prod.mk.inj heq
        rw [hliteral] at h
        dsimp only at h
        split at h
        · rename_i hseg
          exact hseg.symm
        · cases h
      · split at h
        · exact ih h hmem
        · split at h
          · exact ih h hmem
          · cases h

/-- A template does not match another one filled in, if the two are separated. -/
theorem matchTemplate_separated {enc : Str → Str} {e e' : Endpoint}
    (h : Separated (splitPath e'.path) (splitPath e.path) = true) :
    matchTemplate e'.path (e.segments enc) = none := by
  rw [Option.eq_none_iff_forall_ne_some]
  intro params hmatch
  rw [matchTemplate] at hmatch
  split at hmatch
  · cases hmatch
  · rename_i hlen
    rw [not_not, Endpoint.segments, List.length_map] at hlen
    rw [Separated, Bool.or_eq_true] at h
    rcases h with h | h
    · exact of_decide_eq_true h hlen
    · obtain ⟨⟨tmpl', tmpl⟩, hmem, hdiffer⟩ := List.any_eq_true.mp h
      obtain ⟨hliteral', hliteral, hne⟩ := of_decide_eq_true hdiffer
      have hpair : (tmpl', fillSegment enc tmpl) ∈
          (splitPath e'.path).zip (e.segments enc) := by
        rw [Endpoint.segments, List.zip_map_right]
        exact List.mem_map.mpr ⟨_, hmem, rfl⟩
      have heq := matchSegments_literal hmatch hpair hliteral'
      rw [fillSegment_of_none hliteral] at heq
      exact hne heq.symm

theorem separated_symm {tmpls tmpls' : List Str} (h : Separated tmpls tmpls' = true) :
    Separated tmpls' tmpls = true := by
  rw [Separated, Bool.or_eq_true] at h ⊢
  rcases h with h | h
  · exact .inl (decide_eq_true (Ne.symm (of_decide_eq_true h)))
  · obtain ⟨⟨tmpl, tmpl'⟩, hmem, hdiffer⟩ := List.any_eq_true.mp h
    obtain ⟨hliteral, hliteral', hne⟩ := of_decide_eq_true hdiffer
    right
    rw [← List.zip_swap, List.any_map]
    exact List.any_eq_true.mpr ⟨_, hmem, decide_eq_true ⟨hliteral', hliteral, hne.symm⟩⟩

/-- The literal segments of the surface, and how its endpoints of one method are told apart. -/
theorem surface_segments :
    (∀ e ∈ Endpoint.surface, ∀ tmpl ∈ splitPath e.path, placeholder tmpl = none →
      tmpl ≠ [] ∧ '/' ∉ tmpl ∧ '?' ∉ tmpl ∧ '#' ∉ tmpl) ∧
    Endpoint.surface.Pairwise fun e e' => e.method = e'.method →
      Separated (splitPath e.path) (splitPath e'.path) = true := by
  decide +kernel

theorem surface_separated {e e' : Endpoint} (he : e ∈ Endpoint.surface) (he' : e' ∈ Endpoint.surface)
    (hmethod : e'.method = e.method) :
    e' = e ∨ Separated (splitPath e'.path) (splitPath e.path) = true := by
  have hsymm : Std.Symm fun e e' : Endpoint => e.method = e'.method →
      Separated (splitPath e.path) (splitPath e'.path) = true :=
    ⟨fun _ _ h hmethod => separated_symm (h hmethod.symm)⟩
  by_cases hsame : e' = e
  · exact .inl hsame
  · exact .inr (surface_segments.2.forall he' he hsame hmethod)

/-- The first endpoint of the method whose template matches is the one that is found. -/
theorem resolveAmong_unique {segments : List Str} {endpoints : List Endpoint}
    {allowed : List Method} {e : Endpoint} {params : SortedMap Str Str} (he : e ∈ endpoints)
    (hmatch : matchTemplate e.path segments = some params)
    (hothers : ∀ e' ∈ endpoints, e'.method = e.method →
      e' = e ∨ matchTemplate e'.path segments = none) :
    resolveAmong e.method segments endpoints allowed = .found ⟨e, params⟩ := by
  induction endpoints generalizing allowed with
  | nil => cases he
  | cons e' endpoints ih =>
      obtain ⟨hfirst, hrest⟩ := List.forall_mem_cons.mp hothers
      rw [resolveAmong]
      by_cases hsame : e' = e
      · rw [hsame, hmatch]
        exact if_pos rfl
      · have he : e ∈ endpoints := (List.mem_cons.mp he).resolve_left (Ne.symm hsame)
        cases hother : matchTemplate e'.path segments with
        | none => exact ih he hrest
        | some params' =>
            have hmethod : e'.method ≠ e.method := by
              intro hmethod
              rcases hfirst hmethod with h | h
              · exact hsame h
              · rw [hother] at h
                cases h
            exact (if_neg hmethod).trans (ih he hrest)

/-! ## Every target of the surface -/

/-- What must be escaped in a segment. -/
def segmentReserved : Str := "/?#%".toList

/-- A path with a query behind it, if there is one. -/
def withQuery (path : Str) (query : Option Str) : Str := path ++ query.elim [] ('?' :: ·)

/-- A parameter, encoded so that it can stand in a path. -/
def EncodesParam (value enc : Str) : Prop := value ≠ [] ∧ PercentEncodes segmentReserved value enc

theorem segment_of_encodes {value enc : Str} (h : EncodesParam value enc) :
    enc ≠ [] ∧ '/' ∉ enc ∧ '?' ∉ enc ∧ '#' ∉ enc := by
  obtain ⟨hvalue, henc⟩ := h
  exact ⟨encodes_ne_nil henc hvalue,
    not_mem_of_encodes (by decide) (by decide) (by decide) (by decide) henc,
    not_mem_of_encodes (by decide) (by decide) (by decide) (by decide) henc,
    not_mem_of_encodes (by decide) (by decide) (by decide) (by decide) henc⟩

theorem segments_of_encodes {e : Endpoint} (he : e ∈ Endpoint.surface) {value enc : Str → Str}
    (henc : ∀ name ∈ e.params, EncodesParam (value name) (enc name)) :
    ∀ seg ∈ e.segments enc, seg ≠ [] ∧ '/' ∉ seg ∧ '?' ∉ seg ∧ '#' ∉ seg := by
  intro seg hseg
  obtain ⟨tmpl, htmpl, rfl⟩ := List.mem_map.mp hseg
  cases hplace : placeholder tmpl with
  | none =>
      rw [fillSegment_of_none hplace]
      exact surface_segments.1 e he tmpl htmpl hplace
  | some name =>
      rw [fillSegment_of_some hplace]
      exact segment_of_encodes (henc name (List.mem_filterMap.mpr ⟨tmpl, htmpl, hplace⟩))

/-- The path goes up to the query. -/
theorem target_of_encodes {e : Endpoint} (he : e ∈ Endpoint.surface) {value enc : Str → Str}
    (henc : ∀ name ∈ e.params, EncodesParam (value name) (enc name)) :
    ∀ c ∈ e.target enc, c ≠ '?' ∧ c ≠ '#' := by
  intro c hc
  obtain ⟨seg, hseg, hc⟩ := List.mem_flatMap.mp hc
  obtain ⟨-, -, hquery, hfragment⟩ := segments_of_encodes he henc seg hseg
  rcases List.mem_cons.mp hc with rfl | hc
  · decide
  · exact ⟨fun h => hquery (h ▸ hc), fun h => hfragment (h ▸ hc)⟩

/-- The query does not count, and the path is split where the template is. -/
theorem splitPath_target {e : Endpoint} (he : e ∈ Endpoint.surface) {value enc : Str → Str}
    (henc : ∀ name ∈ e.params, EncodesParam (value name) (enc name)) (query : Option Str) :
    splitPath ((withQuery (e.target enc) query).takeWhile fun c => c ≠ '?' ∧ c ≠ '#') =
      e.segments enc := by
  have hsegments := segments_of_encodes he henc
  have hpath : ∀ c ∈ e.target enc, decide (c ≠ '?' ∧ c ≠ '#') = true := fun c hc =>
    decide_eq_true (target_of_encodes he henc c hc)
  have hbehind : ∀ c ∈ (query.elim [] ('?' :: ·)).head?, decide (c ≠ '?' ∧ c ≠ '#') = false := by
    intro c hc
    cases query with
    | none => cases hc
    | some query =>
        rw [← Option.some.inj hc]
        rfl
  rw [withQuery, (span_append hpath hbehind).1, Endpoint.target]
  exact splitPath_flatMap fun seg hseg => ⟨(hsegments seg hseg).1, (hsegments seg hseg).2.1⟩

/-- A filled template is routed to its endpoint with exactly its parameters, whatever they are and
however they are encoded. -/
theorem resolve_target {e : Endpoint} (he : e ∈ Endpoint.surface) {value enc : Str → Str}
    (henc : ∀ name ∈ e.params, EncodesParam (value name) (enc name)) (query : Option Str) :
    ∃ params, resolve e.method (withQuery (e.target enc) query) = .found ⟨e, params⟩ ∧
      ∀ name, params.get name = if name ∈ e.params then some (value name) else none := by
  have hdecode : ∀ name ∈ e.params, percentDecode (enc name) = value name := fun name hname =>
    percentDecode_of_encodes (by decide) (henc name hname).2
  obtain ⟨params, hmatch, hget⟩ := matchSegments_fill hdecode SortedMap.empty
  refine ⟨params, ?_, hget⟩
  rw [resolve, splitPath_target he henc query]
  refine resolveAmong_unique he ?_ fun e' he' hmethod => ?_
  · have hzip : (splitPath e.path).zip (e.segments enc) =
        (splitPath e.path).map fun t => (t, fillSegment enc t) := by
      conv_lhs => rw [Endpoint.segments, ← List.map_id (splitPath e.path), List.map_map]
      exact List.zip_map'
    rw [matchTemplate, hzip, Endpoint.segments, List.length_map, if_neg (not_not.mpr rfl)]
    exact hmatch
  · exact (surface_separated he he' hmethod).imp_right matchTemplate_separated

theorem encodesParam_members : EncodesParam "members".toList "members".toList := by
  refine ⟨List.cons_ne_nil _ _, ?_⟩
  iterate 7 refine .literal (by decide) ?_
  exact .nil

theorem encodesParam_slash : EncodesParam "?/".toList "%3F%2f".toList := by
  refine ⟨List.cons_ne_nil _ _, ?_⟩
  refine @EncodesBytes.escaped _ 0x33 0x46 3 15 _ _ rfl rfl ?_
  refine @EncodesBytes.escaped _ 0x32 0x66 2 15 _ _ rfl rfl ?_
  exact .nil

/-- A room named like a segment of another endpoint, and an event type of separators. -/
theorem resolve_target_state :
    ∃ params, resolve .get "/_matrix/client/v3/rooms/members/state/%3F%2f?limit=1".toList =
        .found ⟨Endpoint.cs .get "/_matrix/client/v3/rooms/{roomId}/state/{eventType}".toList,
          params⟩ ∧
      ∀ name, params.get name =
        if name ∈ ["roomId".toList, "eventType".toList] then
          some (if name = "roomId".toList then "members".toList else "?/".toList)
        else none := by
  let e := Endpoint.cs .get "/_matrix/client/v3/rooms/{roomId}/state/{eventType}".toList
  let value := fun name : Str => if name = "roomId".toList then "members".toList else "?/".toList
  let enc := fun name : Str => if name = "roomId".toList then "members".toList else "%3F%2f".toList
  have he : e ∈ Endpoint.surface := by decide +kernel
  have hparams : e.params = ["roomId".toList, "eventType".toList] := by decide +kernel
  have htarget : withQuery (e.target enc) (some "limit=1".toList) =
      "/_matrix/client/v3/rooms/members/state/%3F%2f?limit=1".toList := by decide +kernel
  have henc : ∀ name ∈ e.params, EncodesParam (value name) (enc name) := by
    intro name _
    by_cases hroom : name = "roomId".toList
    · simp only [value, enc, if_pos hroom]
      exact encodesParam_members
    · simp only [value, enc, if_neg hroom]
      exact encodesParam_slash
  have h := resolve_target he henc (some "limit=1".toList)
  rwa [htarget, hparams] at h

end GaussMatrix.Http
