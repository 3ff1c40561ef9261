import GaussMatrix.Api.JsonAccepts
import GaussMatrix.Api.JsonObject

/-!
# Reading back what was written

The reader on the text of the writer, at every nesting depth: it returns the value, up to what
writing loses, or reports that the value stands too deep.  What the reader returns has its keys in
order and is not too deep itself.
-/

namespace GaussMatrix.Api

open Library Json

namespace Parser

attribute [local simp] parseValue parseArray parseObject

/-! ## White space -/

theorem skipWs_cons {c : Char} (h : isWs c = false) (cs : Str) (pos : Nat) :
    skipWs ⟨c :: cs, pos⟩ = ⟨c :: cs, pos⟩ := by
  simp [skipWs, h]

theorem skipWs_write (v : Json) (rest : Str) (pos : Nat) :
    skipWs ⟨v.write ++ rest, pos⟩ = ⟨v.write ++ rest, pos⟩ := by
  obtain ⟨c, cs, hcs, hc⟩ := write_head v
  have hkind : kindOfHead c ≠ 0 := by
    rw [hc]
    cases v <;> exact Nat.succ_ne_zero _
  rw [hcs]
  exact skipWs_cons (isWs_of_kind hkind) _ pos

/-! ## Reading one value -/

/-- The reader on the text of a value returns it, or finds it too deep. -/
def Reads (v : Json) : Prop :=
  Ordered v → ∀ (fuel depth : Nat) (rest : Str) (pos : Nat), v.write.length < fuel → Stops rest →
    parseValue fuel depth ⟨v.write ++ rest, pos⟩ =
      if depth + v.nesting ≤ maxDepth then .ok (v.written, ⟨rest, pos + v.write.length⟩)
      else .error .depthExceeded

/-- Past the limit the reader does not look at the text. -/
theorem parseValue_deep {depth : Nat} (h : maxDepth < depth) (fuel : Nat) (p : Parser) :
    parseValue (fuel + 1) depth p = .error .depthExceeded := by
  rw [parseValue, if_pos h]

theorem reads_scalar {v : Json} (hnest : v.nesting = 0)
    (hread : ∀ (rest : Str) (pos : Nat), Stops rest → ∀ fuel depth, depth ≤ maxDepth →
      parseValue (fuel + 1) depth ⟨v.write ++ rest, pos⟩ =
        .ok (v.written, ⟨rest, pos + v.write.length⟩)) : Reads v := by
  intro _ fuel depth rest pos hfuel hrest
  obtain ⟨fuel, rfl⟩ : ∃ k, fuel = k + 1 := ⟨fuel - 1, by omega⟩
  by_cases hdepth : depth + v.nesting ≤ maxDepth
  · rw [if_pos hdepth]
    exact hread rest pos hrest fuel depth (Nat.le_trans (Nat.le_add_right _ _) hdepth)
  · rw [if_neg hdepth]
    exact parseValue_deep (by omega) fuel _

theorem reads_number (n : F64) : Reads (.number n) := by
  apply reads_scalar rfl
  intro rest pos hrest fuel depth hdepth
  obtain ⟨c, cs, hcs, hc⟩ := formatNumber_head n
  obtain ⟨htake, hdrop⟩ := takeWhile_formatNumber n hrest
  have hpeek : peek ⟨(Json.number n).write ++ rest, pos⟩ = some c := by
    rw [write, hcs]
    rfl
  rw [Grammar.parseValue_at_number hpeek hc fuel hdepth, write]
  simp only [parseNumber, htake, hdrop, parse_formatNumber]
  rfl

theorem reads_string (s : Str) : Reads (.string s) := by
  apply reads_scalar rfl
  intro rest pos _ fuel depth hdepth
  exact Grammar.parseValue_at_quote rfl (parseString_write s rest pos) fuel hdepth

theorem reads_bool (b : Bool) : Reads (.bool b) := by
  apply reads_scalar rfl
  intro rest pos _ fuel depth hdepth
  rw [parseValue, if_neg (Nat.not_lt.mpr hdepth)]
  cases b <;> rfl

theorem reads_null : Reads .null := by
  apply reads_scalar rfl
  intro rest pos _ fuel depth hdepth
  rw [parseValue, if_neg (Nat.not_lt.mpr hdepth)]
  rfl

/-! ## Reading arrays and objects -/

theorem length_write_pos (v : Json) : 0 < v.write.length := by
  obtain ⟨c, cs, hcs, -⟩ := write_head v
  rw [hcs]
  exact Nat.succ_pos _

theorem length_writeItems_cons (item : Json) (items : List Json) :
    (writeItems (item :: items)).length = item.write.length + (moreItems items).length := by
  have htext := writeItems_cons item items []
  rw [List.append_nil, List.append_nil] at htext
  rw [htext, List.length_append]

theorem length_writeFields_cons (k : Str) (v : Json) (fields : List (Str × Json)) :
    (writeFields ((k, v) :: fields)).length =
      (writeJsonString k).length + (v.write.length + (moreFields fields).length) + 1 := by
  have htext := writeFields_cons k v fields []
  rw [List.append_nil, List.append_nil] at htext
  rw [htext, List.length_append, List.length_cons, List.length_append]
  rfl

/-- The loop over the elements of an array, on their text. -/
theorem parseArray_write {items : List Json} (hreads : ∀ item ∈ items, Reads item)
    (hord : ∀ item ∈ items, Ordered item) (hne : items ≠ []) :
    ∀ (fuel depth : Nat) (acc : List Json) (rest : Str) (pos : Nat),
      (writeItems items).length + 1 < fuel →
      parseArray fuel depth acc ⟨writeItems items ++ ']' :: rest, pos⟩ =
        if depth + nestingItems items ≤ maxDepth then
          .ok (.array (acc.reverse ++ writtenItems items),
            ⟨rest, pos + (writeItems items).length + 1⟩)
        else .error .depthExceeded := by
  -- on the items that are left; `acc` holds those that were read, the last one first
  induction items with
  | nil => exact absurd rfl hne
  | cons x xs ih =>
      intro fuel depth acc rest pos hfuel
      obtain ⟨fuel, rfl⟩ : ∃ k, fuel = k + 1 := ⟨fuel - 1, by omega⟩
      obtain ⟨hx, hxs⟩ := List.forall_mem_cons.mp hreads
      obtain ⟨hox, hoxs⟩ := List.forall_mem_cons.mp hord
      have hlen := length_writeItems_cons x xs
      have hpos := length_write_pos x
      have hread := hx hox fuel (depth + 1) (moreItems xs ++ ']' :: rest) pos (by omega)
        (stops_moreItems xs rest)
      rw [parseArray, writeItems_cons, skipWs_write, hread, nestingItems]
      by_cases hdeep : depth + 1 + x.nesting ≤ maxDepth
      · rw [if_pos hdeep]
        cases xs with
        | nil =>
            have hfits : depth + max (x.nesting + 1) (nestingItems []) ≤ maxDepth := by
              rw [nestingItems, Nat.max_zero]
              omega
            rw [if_pos hfits, hlen]
            show Except.ok (Json.array (x.written :: acc).reverse, _) = _
            rw [List.reverse_cons, writtenItems, writtenItems]
            rfl
        | cons y ys =>
            have hlen' : (moreItems (y :: ys)).length = (writeItems (y :: ys)).length + 1 := rfl
            have hrest := ih hxs hoxs (List.cons_ne_nil _ _) fuel depth (x.written :: acc) rest
              (pos + x.write.length + 1) (by omega)
            show parseArray fuel depth (x.written :: acc)
              ⟨writeItems (y :: ys) ++ ']' :: rest, pos + x.write.length + 1⟩ = _
            rw [hrest, hlen, hlen', List.reverse_cons, List.append_assoc]
            by_cases hrestDeep : depth + nestingItems (y :: ys) ≤ maxDepth
            · have hfits : depth + max (x.nesting + 1) (nestingItems (y :: ys)) ≤ maxDepth := by
                omega
              have hend : pos + x.write.length + 1 + (writeItems (y :: ys)).length + 1 =
                  pos + (x.write.length + ((writeItems (y :: ys)).length + 1)) + 1 := by omega
              rw [if_pos hrestDeep, if_pos hfits, hend]
              rfl
            · have hnot : ¬ depth + max (x.nesting + 1) (nestingItems (y :: ys)) ≤ maxDepth := by
                omega
              rw [if_neg hrestDeep, if_neg hnot]
      · have hnot : ¬ depth + max (x.nesting + 1) (nestingItems xs) ≤ maxDepth := by omega
        rw [if_neg hdeep, if_neg hnot]

theorem insert_last {fields : List (Str × Json)} {k : Str} (v : Json)
    (h : (fields ++ [(k, v)]).Pairwise (fun f g => f.1 < g.1)) :
    SortedList.insert k v fields = fields ++ [(k, v)] := by
  obtain ⟨hsorted, -, hlast⟩ := List.pairwise_append.mp h
  exact SortedMap.entries_insert_of_gt ⟨fields, hsorted⟩
    (fun f hf => hlast f hf _ List.mem_cons_self) v

/-- The loop over the fields of an object, on their text. -/
theorem parseObject_write {fields : List (Str × Json)} (hreads : ∀ f ∈ fields, Reads f.2)
    (hord : ∀ f ∈ fields, Ordered f.2) (hne : fields ≠ []) :
    ∀ (fuel depth : Nat) (acc : List (Str × Json)) (rest : Str) (pos : Nat),
      (writeFields fields).length + 1 < fuel →
      (acc ++ writtenFields fields).Pairwise (fun f g => f.1 < g.1) →
      parseObject fuel depth acc ⟨writeFields fields ++ '}' :: rest, pos⟩ =
        if depth + nestingFields fields ≤ maxDepth then
          .ok (.object (acc ++ writtenFields fields), ⟨rest, pos + (writeFields fields).length + 1⟩)
        else .error .depthExceeded := by
  -- on the fields that are left; `acc` holds those that were read
  induction fields with
  | nil => exact absurd rfl hne
  | cons x xs ih =>
      intro fuel depth acc rest pos hfuel hasc
      obtain ⟨k, x⟩ := x
      obtain ⟨fuel, rfl⟩ : ∃ n, fuel = n + 1 := ⟨fuel - 1, by omega⟩
      obtain ⟨hx, hxs⟩ := List.forall_mem_cons.mp hreads
      obtain ⟨hox, hoxs⟩ := List.forall_mem_cons.mp hord
      change Reads x at hx
      change Ordered x at hox
      have hlen := length_writeFields_cons k x xs
      have hpos := length_write_pos x
      have hsplit : acc ++ writtenFields ((k, x) :: xs) =
          acc ++ [(k, x.written)] ++ writtenFields xs := by
        rw [writtenFields, List.append_assoc]
        rfl
      rw [hsplit] at hasc
      have hinsert : SortedList.insert k x.written acc = acc ++ [(k, x.written)] :=
        insert_last x.written (List.pairwise_append.mp hasc).1
      have hkey := parseString_write k (':' :: (x.write ++ (moreFields xs ++ '}' :: rest))) pos
      have hread := hx hox fuel (depth + 1) (moreFields xs ++ '}' :: rest)
        (pos + (writeJsonString k).length + 1) (by omega) (stops_moreFields xs rest)
      have hfield : parseObject (fuel + 1) depth acc
          ⟨writeFields ((k, x) :: xs) ++ '}' :: rest, pos⟩ =
        (parseValue fuel (depth + 1)
          ⟨x.write ++ (moreFields xs ++ '}' :: rest), pos + (writeJsonString k).length + 1⟩).bind
            fun r => Grammar.member fuel depth acc k r.1 r.2 := by
        have hquote : ∀ t pos,
            skipWs ⟨writeJsonString k ++ t, pos⟩ = ⟨writeJsonString k ++ t, pos⟩ :=
          fun t pos => skipWs_cons rfl _ pos
        have hcolon : ∀ t pos, skipWs ⟨':' :: t, pos⟩ = ⟨':' :: t, pos⟩ :=
          fun t pos => skipWs_cons rfl t pos
        have hpeek : ∀ t pos, peek ⟨writeJsonString k ++ t, pos⟩ = some '"' := fun _ _ => rfl
        have hpeekColon : ∀ t pos, peek ⟨':' :: t, pos⟩ = some ':' := fun _ _ => rfl
        have hadvance : ∀ t pos, advance ⟨':' :: t, pos⟩ = ⟨t, pos + 1⟩ := fun _ _ => rfl
        rw [parseObject, writeFields_cons]
        simp only [hquote, hpeek, hkey, hcolon, hadvance, skipWs_write]
        rw [if_neg (not_not.mpr rfl), if_neg (not_not.mpr (hpeekColon _ _))]
        cases parseValue fuel (depth + 1) _ <;> rfl
      rw [hfield, hread, nestingFields, hsplit]
      by_cases hdeep : depth + 1 + x.nesting ≤ maxDepth
      · rw [if_pos hdeep]
        cases xs with
        | nil =>
            have hfits : depth + max (x.nesting + 1) (nestingFields []) ≤ maxDepth := by
              rw [nestingFields, Nat.max_zero]
              omega
            have hend : pos + (writeJsonString k).length + 1 + x.write.length + 1 =
                pos + ((writeJsonString k).length + (x.write.length + 0) + 1) + 1 := by omega
            rw [if_pos hfits, hlen]
            show Except.ok (Json.object (SortedList.insert k x.written acc),
              (⟨rest, pos + (writeJsonString k).length + 1 + x.write.length + 1⟩ : Parser)) = _
            rw [hinsert, hend, writtenFields, List.append_nil]
            rfl
        | cons y ys =>
            have hlen' : (moreFields (y :: ys)).length = (writeFields (y :: ys)).length + 1 := rfl
            have hrest := ih hxs hoxs (List.cons_ne_nil _ _) fuel depth (acc ++ [(k, x.written)])
              rest (pos + (writeJsonString k).length + 1 + x.write.length + 1) (by omega) hasc
            show parseObject fuel depth (SortedList.insert k x.written acc)
              ⟨writeFields (y :: ys) ++ '}' :: rest,
                pos + (writeJsonString k).length + 1 + x.write.length + 1⟩ = _
            rw [hinsert, hrest, hlen, hlen']
            by_cases hrestDeep : depth + nestingFields (y :: ys) ≤ maxDepth
            · have hfits : depth + max (x.nesting + 1) (nestingFields (y :: ys)) ≤ maxDepth := by
                omega
              have hend : pos + (writeJsonString k).length + 1 + x.write.length + 1 +
                  (writeFields (y :: ys)).length + 1 =
                pos + ((writeJsonString k).length +
                  (x.write.length + ((writeFields (y :: ys)).length + 1)) + 1) + 1 := by omega
              rw [if_pos hrestDeep, if_pos hfits, hend]
            · have hnot : ¬ depth + max (x.nesting + 1) (nestingFields (y :: ys)) ≤ maxDepth := by
                omega
              rw [if_neg hrestDeep, if_neg hnot]
      · have hnot : ¬ depth + max (x.nesting + 1) (nestingFields xs) ≤ maxDepth := by omega
        rw [if_neg hdeep, if_neg hnot]
        rfl

example : (parseObject 9 0 [] ⟨['"', 'a', '"', ':', '1', '}'], 1⟩).toOption.map (fun r => r.2.pos) =
    some 7 := by
  decide +kernel

theorem reads_array {items : List Json} (h : ∀ item ∈ items, Reads item) :
    Reads (.array items) := by
  intro hord fuel depth rest pos hfuel _
  obtain ⟨fuel, rfl⟩ : ∃ n, fuel = n + 1 := ⟨fuel - 1, by omega⟩
  have hlen : (Json.array items).write.length = (writeItems items).length + 2 := by
    simp [write]
  have hitems := (everywhere_array.mp hord).2
  rw [write_array, nesting]
  by_cases hdepth : depth ≤ maxDepth
  · rw [parseValue, if_neg (Nat.not_lt.mpr hdepth)]
    cases items with
    | nil =>
        have hfits : depth + nestingItems [] ≤ maxDepth := hdepth
        rw [if_pos hfits, hlen]
        rfl
    | cons x xs =>
        have hloop := parseArray_write h hitems (List.cons_ne_nil x xs) fuel depth [] rest (pos + 1)
          (by omega)
        have hend : pos + 1 + (writeItems (x :: xs)).length + 1 =
            pos + ((writeItems (x :: xs)).length + 2) := by omega
        rw [hend, ← hlen] at hloop
        have hskip : (advance ⟨'[' :: (writeItems (x :: xs) ++ ']' :: rest), pos⟩).skipWs =
            ⟨writeItems (x :: xs) ++ ']' :: rest, pos + 1⟩ := by
          rw [writeItems_cons]
          exact skipWs_write x _ (pos + 1)
        have hpeek : peek ⟨writeItems (x :: xs) ++ ']' :: rest, pos + 1⟩ ≠ some ']' := by
          rw [writeItems_cons]
          intro hhead
          obtain ⟨t, ht⟩ := List.head?_eq_some_iff.mp hhead
          exact write_ne_closing x rfl _ t ht
        show (if peek (advance _).skipWs = some ']' then _ else _) = _
        rw [hskip, if_neg hpeek]
        exact hloop
  · have hnot : ¬ depth + nestingItems items ≤ maxDepth := by omega
    rw [if_neg hnot]
    exact parseValue_deep (Nat.lt_of_not_le hdepth) fuel _

theorem writtenFields_keys (fields : List (Str × Json)) :
    (writtenFields fields).map Prod.fst = fields.map Prod.fst := by
  induction fields with
  | nil => rfl
  | cons f fields ih => exact congrArg (List.cons f.1) ih

theorem writtenFields_ascend {fields : List (Str × Json)}
    (h : fields.Pairwise (fun f g => f.1 < g.1)) :
    (writtenFields fields).Pairwise (fun f g => f.1 < g.1) := by
  have hkeys : (fields.map Prod.fst).Pairwise (· < ·) := List.pairwise_map.mpr h
  rw [← writtenFields_keys] at hkeys
  exact List.pairwise_map.mp hkeys

theorem reads_object {fields : List (Str × Json)} (h : ∀ f ∈ fields, Reads f.2) :
    Reads (.object fields) := by
  intro hord fuel depth rest pos hfuel _
  obtain ⟨fuel, rfl⟩ : ∃ n, fuel = n + 1 := ⟨fuel - 1, by omega⟩
  have hlen : (Json.object fields).write.length = (writeFields fields).length + 2 := by
    simp [write]
  obtain ⟨hasc, hfields⟩ := everywhere_object.mp hord
  have hasc := writtenFields_ascend (of_decide_eq_true hasc)
  rw [write_object, nesting]
  by_cases hdepth : depth ≤ maxDepth
  · rw [parseValue, if_neg (Nat.not_lt.mpr hdepth)]
    cases fields with
    | nil =>
        have hfits : depth + nestingFields [] ≤ maxDepth := hdepth
        rw [if_pos hfits, hlen]
        rfl
    | cons x xs =>
        obtain ⟨k, x⟩ := x
        have hloop := parseObject_write h hfields (List.cons_ne_nil (k, x) xs) fuel depth [] rest
          (pos + 1) (by omega) hasc
        have hend : pos + 1 + (writeFields ((k, x) :: xs)).length + 1 =
            pos + ((writeFields ((k, x) :: xs)).length + 2) := by omega
        rw [hend, ← hlen] at hloop
        have hskip : (advance ⟨'{' :: (writeFields ((k, x) :: xs) ++ '}' :: rest), pos⟩).skipWs =
            ⟨writeFields ((k, x) :: xs) ++ '}' :: rest, pos + 1⟩ := by
          rw [writeFields_cons]
          exact skipWs_cons rfl _ (pos + 1)
        have hpeek : peek ⟨writeFields ((k, x) :: xs) ++ '}' :: rest, pos + 1⟩ = some '"' := by
          rw [writeFields_cons]
          rfl
        have hquote : peek ⟨writeFields ((k, x) :: xs) ++ '}' :: rest, pos + 1⟩ ≠ some '}' := by
          rw [hpeek]
          decide
        show (if peek (advance _).skipWs = some '}' then _ else _) = _
        rw [hskip, if_neg hquote]
        exact hloop
  · have hnot : ¬ depth + nestingFields fields ≤ maxDepth := by omega
    rw [if_neg hnot]
    exact parseValue_deep (Nat.lt_of_not_le hdepth) fuel _

/-- The reader on the text of any value. -/
theorem reads (v : Json) : Reads v := by
  induction v using treeInduction with
  | null => exact reads_null
  | bool b => exact reads_bool b
  | number n => exact reads_number n
  | string s => exact reads_string s
  | array items ih => exact reads_array ih
  | object fields ih => exact reads_object ih

/-! ## What the reader returns -/

/-- A value fits at a depth: it is not nested too deep there, and its keys are in order. -/
def Fits (depth : Nat) (v : Json) : Prop := depth + v.nesting ≤ maxDepth ∧ Ordered v

theorem fits_array {depth : Nat} {items : List Json} (hdepth : depth ≤ maxDepth)
    (h : ∀ item ∈ items, Fits (depth + 1) item) : Fits depth (.array items) := by
  have hnest : depth + nestingItems items ≤ maxDepth := by
    induction items with
    | nil => exact hdepth
    | cons x xs ih =>
        obtain ⟨⟨hx, -⟩, hxs⟩ := List.forall_mem_cons.mp h
        have hrest := ih hxs
        rw [nestingItems]
        omega
  exact ⟨hnest, everywhere_array.mpr ⟨rfl, fun item hitem => (h item hitem).2⟩⟩

theorem fits_object {depth : Nat} {fields : List (Str × Json)} (hdepth : depth ≤ maxDepth)
    (hasc : fields.Pairwise (fun f g => f.1 < g.1)) (h : ∀ f ∈ fields, Fits (depth + 1) f.2) :
    Fits depth (.object fields) := by
  have hnest : depth + nestingFields fields ≤ maxDepth := by
    clear hasc
    induction fields with
    | nil => exact hdepth
    | cons x xs ih =>
        obtain ⟨⟨hx, -⟩, hxs⟩ := List.forall_mem_cons.mp h
        have hrest := ih hxs
        rw [nestingFields]
        omega
  exact ⟨hnest, everywhere_object.mpr ⟨decide_eq_true hasc, fun f hf => (h f hf).2⟩⟩

theorem fits_scalar {depth : Nat} {v : Json} (hdepth : depth ≤ maxDepth) (hnest : v.nesting = 0)
    (hord : Ordered v) : Fits depth v := by
  refine ⟨?_, hord⟩
  rw [hnest]
  exact hdepth

section

open Grammar

mutual

/-- A value of the grammar fits at a depth that leaves its levels below it. -/
theorem fits_of_value {depth levels : Nat} {t : Str} {v : Json}
    (hlevels : depth + levels ≤ maxDepth) :
    Value LooseNumber levels t v → Fits depth v
  | .null => fits_scalar (by omega) rfl rfl
  | .true => fits_scalar (by omega) rfl rfl
  | .false => fits_scalar (by omega) rfl rfl
  | .number _ => fits_scalar (by omega) rfl rfl
  | .string _ => fits_scalar (by omega) rfl rfl
  | .emptyArray _ => fits_array (by omega) (fun _ hf => absurd hf List.not_mem_nil)
  | .array _ hitems _ => fits_array (by omega) (fits_of_items (by omega) hitems)
  | .emptyObject _ =>
      fits_object (by omega) List.Pairwise.nil (fun _ hf => absurd hf List.not_mem_nil)
  | .object _ hmembers _ => by
      refine fits_object (by omega) (sorted_insertFields List.Pairwise.nil) fun f hf => ?_
      rcases mem_insertFields hf with hf | hf
      · exact fits_of_members (by omega) hmembers f hf
      · cases hf

theorem fits_of_items {depth levels : Nat} {t : Str} {items : List Json}
    (hlevels : depth + levels ≤ maxDepth) :
    Items LooseNumber levels t items → ∀ item ∈ items, Fits depth item
  | .last hv => List.forall_mem_singleton.mpr (fits_of_value hlevels hv)
  | .more hv _ _ hitems =>
      List.forall_mem_cons.mpr ⟨fits_of_value hlevels hv, fits_of_items hlevels hitems⟩

theorem fits_of_members {depth levels : Nat} {t : Str} {members : List (Str × Json)}
    (hlevels : depth + levels ≤ maxDepth) :
    Members LooseNumber levels t members → ∀ f ∈ members, Fits depth f.2
  | .last _ _ _ hv => List.forall_mem_singleton.mpr (fits_of_value hlevels hv)
  | .more _ _ _ hv _ _ hmembers =>
      List.forall_mem_cons.mpr ⟨fits_of_value hlevels hv, fits_of_members hlevels hmembers⟩

end

end

end Parser

/-- A written value is read back, up to what writing loses, unless it is nested too deep. -/
theorem Json.parse_write {v : Json} (h : Ordered v) :
    Json.parse v.write = if v.nesting ≤ maxDepth then .ok v.written else .error .depthExceeded := by
  have hread := Parser.reads v h (2 * v.write.length + 2) 0 [] 0 (by omega) stops_nil
  rw [List.append_nil, Nat.zero_add] at hread
  have hskip := Parser.skipWs_write v [] 0
  rw [List.append_nil] at hskip
  rw [Json.parse, hskip, hread]
  by_cases hfits : v.nesting ≤ maxDepth
  · rw [if_pos hfits, if_pos hfits]
    rfl
  · rw [if_neg hfits, if_neg hfits]

namespace Json

/-- What was parsed is not nested too deep, and its keys are in order. -/
theorem fits_of_parse {s : Str} {v : Json} (h : Json.parse s = .ok v) :
    v.nesting ≤ maxDepth ∧ Ordered v := by
  obtain ⟨-, hv, -⟩ := Json.parse_eq_ok_iff.mp h
  obtain ⟨hnest, hord⟩ := Parser.fits_of_value (Nat.zero_add maxDepth).le hv
  rw [Nat.zero_add] at hnest
  exact ⟨hnest, hord⟩

theorem parse_write_of_parse {s : Str} {v : Json} (h : Json.parse s = .ok v) :
    Json.parse v.write = .ok v.written := by
  obtain ⟨hnest, hord⟩ := fits_of_parse h
  rw [parse_write hord, if_pos hnest]

example : (Json.parse "[1, {}]".toList).toOption.map write = some "[1,{}]".toList := by
  decide +kernel

/-- Reading the text of a value gives an equal value. -/
def RoundTrips (v : Json) : Prop := ∃ w, Json.parse v.write = .ok w ∧ w.eqv v = true

/-- A parsed value survives its own text exactly when none of its numbers overflowed; and of two
parsed values with one text, one of them free of overflow, the two are equal exactly when the other
is free of it too. -/
theorem round_trips_iff_finite {s : Str} {v : Json} (h : Json.parse s = .ok v) :
    (v.RoundTrips ↔ v.Finite) ∧
      ∀ (t : Str) (w : Json), Json.parse t = .ok w → v.write = w.write → v.Finite →
        (v.eqv w = true ↔ w.Finite) := by
  constructor
  · rw [RoundTrips, parse_write_of_parse h, Finite, ← eqv_written]
    constructor
    · rintro ⟨w, hw, heq⟩
      cases hw
      exact heq
    · intro heq
      exact ⟨v.written, rfl, heq⟩
  · intro t w _ htext hfinite
    rw [eqv_of_written v w hfinite (written_eq_of_write_eq htext)]

theorem null_round_trips :
    Json.null.RoundTrips ∧ Json.null.eqv .null = true ∧ Json.parse "null".toList = .ok .null := by
  have hparse : Json.parse "null".toList = .ok .null := rfl
  have hboth := round_trips_iff_finite hparse
  exact ⟨hboth.1.mpr rfl, (hboth.2 _ _ hparse rfl rfl).mpr rfl, hparse⟩

/-- A literal that overflows is read as an infinity. -/
theorem parse_overflow : Json.parse "1e400".toList = .ok (.number (.inf false)) := by
  have hnum : F64.parse "1e400".toList = some (.inf false) := by decide +kernel
  have hread : Parser.parseNumber ⟨"1e400".toList, 0⟩ = .ok (.number (.inf false), ⟨[], 5⟩) := by
    have htake : "1e400".toList.takeWhile Parser.isNumberChar = "1e400".toList := by decide
    have hdrop : "1e400".toList.dropWhile Parser.isNumberChar = [] := by decide
    simp only [Parser.parseNumber, htake, hdrop, hnum]
    rfl
  have hvalue : Parser.parseValue (2 * "1e400".toList.length + 2) 0
      (Parser.skipWs ⟨"1e400".toList, 0⟩) = Parser.parseNumber ⟨"1e400".toList, 0⟩ := by
    rw [Parser.parseValue]
    rfl
  rw [Json.parse, hvalue, hread]
  rfl

theorem overflow_not_round_trips :
    ¬ ∀ (s : Str) (v : Json), Json.parse s = .ok v → v.RoundTrips := by
  intro hall
  obtain ⟨w, hparse, heq⟩ := hall _ _ parse_overflow
  rw [parse_write_of_parse parse_overflow] at hparse
  cases hparse
  rw [eqv_written] at heq
  cases heq

end Json

end GaussMatrix.Api
