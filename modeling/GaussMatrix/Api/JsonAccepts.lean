import GaussMatrix.Api.JsonLexical

/-!
# What the reader accepts

The reader accepts exactly the texts of the grammar, with the value they denote, except that it is
looser about the spelling of numbers.
-/

namespace GaussMatrix.Api

open Library Json Grammar

namespace Grammar

/-! ## The texts of the grammar are read -/

theorem head_ws {c : Char} {rest : Str} (h : Parser.isWs c = false) :
    ∀ d ∈ (c :: rest).head?, Parser.isWs d = false :=
  fun _ hd => Option.some.inj hd ▸ h

/-- White space ahead of another character is skipped. -/
theorem skipWs_char {a : Str} (ha : Ws a) {c : Char} (hc : Parser.isWs c = false) (rest : Str)
    (pos : Nat) : Parser.skipWs ⟨a ++ c :: rest, pos⟩ = ⟨c :: rest, pos + a.length⟩ :=
  skipWs_append ha (head_ws hc) pos

/-- Ahead of a value no white space is left to skip, and its first character tells its kind. -/
theorem head_value {levels : Nat} {t : Str} {v : Json} (h : Value LooseNumber levels t v) :
    ∃ c cs, t = c :: cs ∧ kindOfHead c = v.kind := by
  cases h with
  | null => exact ⟨'n', _, rfl, rfl⟩
  | true => exact ⟨'t', _, rfl, rfl⟩
  | false => exact ⟨'f', _, rfl, rfl⟩
  | number hnum =>
      obtain ⟨-, c, cs, rfl, hc⟩ := looseNumber_iff.mp hnum
      exact ⟨c, cs, rfl, kindOfHead_number hc⟩
  | string hs =>
      cases hs
      exact ⟨'"', _, rfl, rfl⟩
  | emptyArray => exact ⟨'[', _, rfl, rfl⟩
  | array => exact ⟨'[', _, rfl, rfl⟩
  | emptyObject => exact ⟨'\x7b', _, rfl, rfl⟩
  | object => exact ⟨'\x7b', _, rfl, rfl⟩

theorem isWs_head_value {levels : Nat} {t : Str} {v : Json} (h : Value LooseNumber levels t v)
    (rest : Str) : ∀ c ∈ (t ++ rest).head?, Parser.isWs c = false := by
  obtain ⟨c, cs, rfl, hkind⟩ := head_value h
  apply head_ws
  apply isWs_of_kind
  rw [hkind]
  cases v <;> exact Nat.succ_ne_zero _

theorem value_length_pos {levels : Nat} {t : Str} {v : Json} (h : Value LooseNumber levels t v) :
    0 < t.length := by
  obtain ⟨c, cs, rfl, -⟩ := head_value h
  exact Nat.succ_pos _

/-- White space or a closing character ends a number. -/
theorem stops_ws_append {a rest : Str} (ha : Ws a) (hrest : Stops rest) : Stops (a ++ rest) := by
  cases a with
  | nil => exact hrest
  | cons c cs =>
      apply stops_cons
      rcases ha c List.mem_cons_self with rfl | rfl | rfl | rfl <;> rfl

/-- At a digit or a sign the reader reads a number. -/
theorem parseValue_at_number {p : Parser} {c : Char} (hpeek : p.peek = some c)
    (hc : c = '-' ∨ c.isDigit) (fuel : Nat) {depth : Nat} (hdepth : depth ≤ maxDepth) :
    Parser.parseValue (fuel + 1) depth p = p.parseNumber := by
  have hne : ∀ d : Char, d.isDigit = false → d ≠ '-' → c ≠ d := by
    rintro d hd hminus rfl
    rcases hc with hc | hc
    · exact hminus hc
    · rw [hd] at hc
      cases hc
  rw [Parser.parseValue, if_neg (Nat.not_lt.mpr hdepth), hpeek]
  simp only [hne '\x7b' rfl (by decide), hne '[' rfl (by decide), hne '"' rfl (by decide),
    hne 't' rfl (by decide), hne 'f' rfl (by decide), hne 'n' rfl (by decide), hc, if_false,
    or_false, if_true]

/-- At a quote it reads a string. -/
theorem parseValue_at_quote {p q : Parser} {s : Str} (hpeek : p.peek = some '"')
    (hread : p.parseString = .ok (s, q)) (fuel : Nat) {depth : Nat} (hdepth : depth ≤ maxDepth) :
    Parser.parseValue (fuel + 1) depth p = .ok (.string s, q) := by
  rw [Parser.parseValue, if_neg (Nat.not_lt.mpr hdepth), hpeek]
  simp only [hread]
  rfl

/-- A number is read at the depth where it stands. -/
theorem parseValue_number {t : Str} {x : F64} (h : LooseNumber t x) {rest : Str} (hrest : Stops rest)
    (fuel : Nat) {depth : Nat} (hdepth : depth ≤ maxDepth) (pos : Nat) :
    Parser.parseValue (fuel + 1) depth ⟨t ++ rest, pos⟩ =
      .ok (.number x, ⟨rest, pos + t.length⟩) := by
  obtain ⟨hread, c, cs, hcs, hc⟩ := looseNumber_iff.mp h
  obtain ⟨htake, hdrop⟩ := span_append (isNumberChar_of_loose h) hrest
  have hpeek : Parser.peek ⟨t ++ rest, pos⟩ = some c := by
    rw [hcs]
    rfl
  rw [parseValue_at_number hpeek hc fuel hdepth]
  simp only [Parser.parseNumber, htake, hdrop, hread]

theorem parseValue_string {q s : Str} (h : Quoted q s) (rest : Str) (fuel : Nat) {depth : Nat}
    (hdepth : depth ≤ maxDepth) (pos : Nat) : ∃ pos',
    Parser.parseValue (fuel + 1) depth ⟨q ++ rest, pos⟩ = .ok (.string s, ⟨rest, pos'⟩) := by
  obtain ⟨pos', hread⟩ := parseString_of_quoted h rest pos
  have hpeek : Parser.peek ⟨q ++ rest, pos⟩ = some '"' := by
    cases h
    rfl
  exact ⟨pos', parseValue_at_quote hpeek hread fuel hdepth⟩

/-! ### One turn of the loop of an array -/

section

variable {fuel depth : Nat} {items : List Json} {fields : List (Str × Json)} {p q : Parser} {v : Json}
  {b rest : Str}

variable (items) in
theorem parseArray_comma (hread : Parser.parseValue fuel (depth + 1) p.skipWs = .ok (v, q))
    (hq : q.rest = b ++ ',' :: rest) (hb : Ws b) : ∃ pos,
    Parser.parseArray (fuel + 1) depth items p =
      Parser.parseArray fuel depth (v :: items) ⟨rest, pos⟩ := by
  obtain ⟨qrest, qpos⟩ := q
  dsimp only at hq
  subst hq
  have hskip := skipWs_char hb (rfl : Parser.isWs ',' = false) rest qpos
  refine ⟨qpos + b.length + 1, ?_⟩
  rw [Parser.parseArray, hread]
  dsimp only
  rw [hskip]
  rfl

theorem parseArray_close (hread : Parser.parseValue fuel (depth + 1) p.skipWs = .ok (v, q))
    (hq : q.rest = b ++ ']' :: rest) (hb : Ws b) : ∃ pos,
    Parser.parseArray (fuel + 1) depth items p =
      .ok (.array (items.reverse ++ [v]), ⟨rest, pos⟩) := by
  obtain ⟨qrest, qpos⟩ := q
  dsimp only at hq
  subst hq
  have hskip := skipWs_char hb (rfl : Parser.isWs ']' = false) rest qpos
  refine ⟨qpos + b.length + 1, ?_⟩
  rw [Parser.parseArray, hread]
  dsimp only
  rw [hskip, ← List.reverse_cons]
  rfl

/-! ### One turn of the loop of an object -/

/-- What a turn does with the value of its member. -/
def member (fuel depth : Nat) (fields : List (Str × Json)) (k : Str) (v : Json) (p : Parser) :
    Except JsonError (Json × Parser) :=
  match p.skipWs.bump with
  | some (',', q) => Parser.parseObject fuel depth (SortedList.insert k v fields) q
  | some ('\x7d', q) => .ok (.object (SortedList.insert k v fields), q)
  | some (_, q) => .error (.unexpectedChar (q.pos - 1))
  | none => .error (.unexpectedChar (p.skipWs.pos - 1))

variable (fuel depth fields) in
theorem parseObject_member {s a k r : Str} (hs : Quoted s k) (ha : Ws a) (hb : Ws b)
    (hr : ∀ c ∈ r.head?, Parser.isWs c = false)
    (hp : p.skipWs.rest = s ++ (a ++ ':' :: (b ++ r))) : ∃ pos,
    Parser.parseObject (fuel + 1) depth fields p =
      match Parser.parseValue fuel (depth + 1) ⟨r, pos⟩ with
      | .error err => .error err
      | .ok (v, q) => member fuel depth fields k v q := by
  generalize hq : p.skipWs = q at hp
  obtain ⟨qrest, qpos⟩ := q
  dsimp only at hp
  subst hp
  obtain ⟨pos1, hkey⟩ := parseString_of_quoted hs (a ++ ':' :: (b ++ r)) qpos
  have hcolon := skipWs_char ha (rfl : Parser.isWs ':' = false) (b ++ r) pos1
  have hvalue := skipWs_append hb hr (pos1 + a.length + 1)
  have hpeek : Parser.peek ⟨s ++ (a ++ ':' :: (b ++ r)), qpos⟩ = some '"' := by
    cases hs
    rfl
  refine ⟨pos1 + a.length + 1 + b.length, ?_⟩
  rw [Parser.parseObject]
  dsimp only
  rw [hq, if_neg (not_not.mpr hpeek), hkey]
  dsimp only
  rw [hcolon, ← hvalue]
  rfl

theorem member_comma {k : Str} (hq : q.rest = b ++ ',' :: rest) (hb : Ws b) : ∃ pos,
    member fuel depth fields k v q =
      Parser.parseObject fuel depth (SortedList.insert k v fields) ⟨rest, pos⟩ := by
  obtain ⟨qrest, qpos⟩ := q
  dsimp only at hq
  subst hq
  refine ⟨qpos + b.length + 1, ?_⟩
  rw [member, skipWs_char hb (rfl : Parser.isWs ',' = false) rest qpos]
  rfl

theorem member_close {k : Str} (hq : q.rest = b ++ '\x7d' :: rest) (hb : Ws b) : ∃ pos,
    member fuel depth fields k v q = .ok (.object (SortedList.insert k v fields), ⟨rest, pos⟩) := by
  obtain ⟨qrest, qpos⟩ := q
  dsimp only at hq
  subst hq
  refine ⟨qpos + b.length + 1, ?_⟩
  rw [member, skipWs_char hb (rfl : Parser.isWs '\x7d' = false) rest qpos]
  rfl

end

/-- The members that a loop over an object has put into its fields. -/
def insertMembers (fields members : List (Str × Json)) : List (Str × Json) :=
  members.foldl (fun m f => SortedList.insert f.1 f.2 m) fields

/-- What the reader does at an opening bracket. -/
theorem parseValue_bracket (fuel : Nat) {depth : Nat} (hdepth : depth ≤ maxDepth) (s : Str)
    (pos : Nat) : Parser.parseValue (fuel + 1) depth ⟨'[' :: s, pos⟩ =
      if (Parser.skipWs ⟨s, pos + 1⟩).peek = some ']' then
        .ok (.array [], (Parser.skipWs ⟨s, pos + 1⟩).advance)
      else Parser.parseArray fuel depth [] (Parser.skipWs ⟨s, pos + 1⟩) := by
  rw [Parser.parseValue, if_neg (Nat.not_lt.mpr hdepth)]
  rfl

theorem parseValue_brace (fuel : Nat) {depth : Nat} (hdepth : depth ≤ maxDepth) (s : Str)
    (pos : Nat) : Parser.parseValue (fuel + 1) depth ⟨'\x7b' :: s, pos⟩ =
      if (Parser.skipWs ⟨s, pos + 1⟩).peek = some '\x7d' then
        .ok (.object [], (Parser.skipWs ⟨s, pos + 1⟩).advance)
      else Parser.parseObject fuel depth [] (Parser.skipWs ⟨s, pos + 1⟩) := by
  rw [Parser.parseValue, if_neg (Nat.not_lt.mpr hdepth)]
  rfl

theorem head_items {levels : Nat} {t : Str} {items : List Json}
    (h : Items LooseNumber levels t items) :
    ∃ v cs rest, t = cs ++ rest ∧ Value LooseNumber levels cs v := by
  cases h with
  | last hv => exact ⟨_, _, [], (List.append_nil _).symm, hv⟩
  | more hv => exact ⟨_, _, _, rfl, hv⟩

theorem head_members {levels : Nat} {t : Str} {members : List (Str × Json)}
    (h : Members LooseNumber levels t members) : ∃ cs, t = '"' :: cs := by
  cases h with
  | last hs =>
      cases hs
      exact ⟨_, rfl⟩
  | more hs =>
      cases hs
      exact ⟨_, rfl⟩

theorem parseValue_array {levels depth : Nat} (fuel : Nat) {a t : Str} {items : List Json}
    (ha : Ws a) (hitems : Items LooseNumber levels t items) (b rest : Str)
    (hdepth : depth ≤ maxDepth) (pos : Nat) : ∃ pos',
    Parser.parseValue (fuel + 1) depth ⟨'[' :: (a ++ (t ++ (b ++ [']']))) ++ rest, pos⟩ =
      Parser.parseArray fuel depth [] ⟨t ++ (b ++ ']' :: rest), pos'⟩ := by
  obtain ⟨v, first, more, hmore, hfirst⟩ := head_items hitems
  have htext : '[' :: (a ++ (t ++ (b ++ [']']))) ++ rest = '[' :: (a ++ (t ++ (b ++ ']' :: rest))) := by
    simp
  have hhead : ∀ c ∈ (t ++ (b ++ ']' :: rest)).head?, Parser.isWs c = false := by
    rw [hmore, List.append_assoc]
    exact isWs_head_value hfirst _
  have hpeek : Parser.peek ⟨t ++ (b ++ ']' :: rest), pos + 1 + a.length⟩ ≠ some ']' := by
    obtain ⟨c, cs, hcs, hkind⟩ := head_value hfirst
    rw [hmore, hcs]
    intro hc
    rw [Option.some.inj hc] at hkind
    cases v <;> cases hkind
  refine ⟨pos + 1 + a.length, ?_⟩
  rw [htext, parseValue_bracket fuel hdepth, skipWs_append ha hhead, if_neg hpeek]

theorem parseValue_object {levels depth : Nat} (fuel : Nat) {a t : Str}
    {members : List (Str × Json)} (ha : Ws a) (hmembers : Members LooseNumber levels t members)
    (b rest : Str) (hdepth : depth ≤ maxDepth) (pos : Nat) : ∃ pos',
    Parser.parseValue (fuel + 1) depth ⟨'\x7b' :: (a ++ (t ++ (b ++ ['\x7d']))) ++ rest, pos⟩ =
      Parser.parseObject fuel depth [] ⟨t ++ (b ++ '\x7d' :: rest), pos'⟩ := by
  obtain ⟨cs, hcs⟩ := head_members hmembers
  have htext : '\x7b' :: (a ++ (t ++ (b ++ ['\x7d']))) ++ rest =
      '\x7b' :: (a ++ (t ++ (b ++ '\x7d' :: rest))) := by
    simp
  have hhead : ∀ c ∈ (t ++ (b ++ '\x7d' :: rest)).head?, Parser.isWs c = false := by
    rw [hcs]
    exact head_ws rfl
  have hpeek : Parser.peek ⟨t ++ (b ++ '\x7d' :: rest), pos + 1 + a.length⟩ ≠ some '\x7d' := by
    rw [hcs]
    intro hc
    cases hc
  refine ⟨pos + 1 + a.length, ?_⟩
  rw [htext, parseValue_brace fuel hdepth, skipWs_append ha hhead, if_neg hpeek]

/-! ### From the grammar to the reader

The fuel counts the turns that are left: a text is read when there are more than it has characters,
and the loops over arrays and objects take one more for their closing character.
-/

/-- Values are read with this much fuel. -/
def ReadsValues (fuel : Nat) : Prop :=
  ∀ levels t v, Value LooseNumber levels t v → ∀ depth rest pos, t.length < fuel →
    depth + levels ≤ maxDepth → Stops rest →
      ∃ pos', Parser.parseValue fuel depth ⟨t ++ rest, pos⟩ = .ok (v, ⟨rest, pos'⟩)

/-- What is left of an array is read with this much fuel. -/
def ReadsItems (fuel : Nat) : Prop :=
  ∀ levels t items, Items LooseNumber levels t items → ∀ depth acc a b rest pos,
    t.length + 1 < fuel → depth + 1 + levels ≤ maxDepth → Ws a → Ws b →
      ∃ pos', Parser.parseArray fuel depth acc ⟨a ++ (t ++ (b ++ ']' :: rest)), pos⟩ =
        .ok (.array (acc.reverse ++ items), ⟨rest, pos'⟩)

/-- What is left of an object is read with this much fuel. -/
def ReadsMembers (fuel : Nat) : Prop :=
  ∀ levels t members, Members LooseNumber levels t members → ∀ depth fields a b rest pos,
    t.length + 1 < fuel → depth + 1 + levels ≤ maxDepth → Ws a → Ws b →
      ∃ pos', Parser.parseObject fuel depth fields ⟨a ++ (t ++ (b ++ '\x7d' :: rest)), pos⟩ =
        .ok (.object (insertMembers fields members), ⟨rest, pos'⟩)

theorem readsValues_succ {fuel : Nat} (ihItems : ReadsItems fuel) (ihMembers : ReadsMembers fuel) :
    ReadsValues (fuel + 1) := by
  intro levels t v h depth rest pos hfuel hfits hrest
  have hdepth : depth ≤ maxDepth := by omega
  cases h with
  | null =>
      refine ⟨pos + 4, ?_⟩
      rw [Parser.parseValue, if_neg (Nat.not_lt.mpr hdepth)]
      rfl
  | true =>
      refine ⟨pos + 4, ?_⟩
      rw [Parser.parseValue, if_neg (Nat.not_lt.mpr hdepth)]
      rfl
  | false =>
      refine ⟨pos + 5, ?_⟩
      rw [Parser.parseValue, if_neg (Nat.not_lt.mpr hdepth)]
      rfl
  | number hnum => exact ⟨_, parseValue_number hnum hrest fuel hdepth pos⟩
  | string hs => exact parseValue_string hs rest fuel hdepth pos
  | @emptyArray _ a ha =>
      have hskip := skipWs_char ha (rfl : Parser.isWs ']' = false) rest (pos + 1)
      refine ⟨pos + 1 + a.length + 1, ?_⟩
      have htext : '[' :: (a ++ [']']) ++ rest = '[' :: (a ++ ']' :: rest) := by simp
      rw [htext, parseValue_bracket fuel hdepth, hskip]
      rfl
  | @emptyObject _ a ha =>
      have hskip := skipWs_char ha (rfl : Parser.isWs '\x7d' = false) rest (pos + 1)
      refine ⟨pos + 1 + a.length + 1, ?_⟩
      have htext : '\x7b' :: (a ++ ['\x7d']) ++ rest = '\x7b' :: (a ++ '\x7d' :: rest) := by simp
      rw [htext, parseValue_brace fuel hdepth, hskip]
      rfl
  | @array levels a t b items ha hitems hb =>
      obtain ⟨pos1, hloop⟩ := parseValue_array fuel ha hitems b rest hdepth pos
      rw [hloop]
      simp only [List.length_cons, List.length_append] at hfuel
      exact ihItems _ _ _ hitems depth [] [] b rest pos1 (by omega) (by omega) ws_nil hb
  | @object levels a t b members ha hmembers hb =>
      obtain ⟨pos1, hloop⟩ := parseValue_object fuel ha hmembers b rest hdepth pos
      rw [hloop]
      simp only [List.length_cons, List.length_append] at hfuel
      exact ihMembers _ _ _ hmembers depth [] [] b rest pos1 (by omega) (by omega) ws_nil hb

theorem readsItems_succ {fuel : Nat} (ihValue : ReadsValues fuel) (ihItems : ReadsItems fuel) :
    ReadsItems (fuel + 1) := by
  intro levels t items h depth acc a b rest pos hfuel hfits ha hb
  cases h with
  | @last _ _ v hv =>
      have hstops : Stops (b ++ ']' :: rest) := stops_ws_append hb (stops_cons rfl _)
      obtain ⟨pos1, hread⟩ := ihValue _ _ _ hv (depth + 1) (b ++ ']' :: rest)
        (pos + a.length) (by omega) (by omega) hstops
      rw [← skipWs_append ha (isWs_head_value hv _)] at hread
      exact parseArray_close hread rfl hb
  | @more _ t c d ts v items hv hc hd hitems =>
      simp only [List.length_cons, List.length_append] at hfuel
      have hpos := value_length_pos hv
      have htext : t ++ (c ++ ',' :: (d ++ ts)) ++ (b ++ ']' :: rest) =
          t ++ (c ++ ',' :: (d ++ (ts ++ (b ++ ']' :: rest)))) := by simp
      have hstops : Stops (c ++ ',' :: (d ++ (ts ++ (b ++ ']' :: rest)))) :=
        stops_ws_append hc (stops_cons rfl _)
      obtain ⟨pos1, hread⟩ := ihValue _ _ _ hv (depth + 1) _ (pos + a.length) (by omega)
        (by omega) hstops
      rw [← skipWs_append ha (isWs_head_value hv _)] at hread
      obtain ⟨pos2, hturn⟩ := parseArray_comma acc hread rfl hc
      obtain ⟨pos3, hloop⟩ := ihItems _ _ _ hitems depth (v :: acc) d b rest pos2 (by omega)
        hfits hd hb
      refine ⟨pos3, ?_⟩
      rw [htext, hturn, hloop, List.reverse_cons, List.append_assoc]
      rfl

theorem readsMembers_succ {fuel : Nat} (ihValue : ReadsValues fuel)
    (ihMembers : ReadsMembers fuel) : ReadsMembers (fuel + 1) := by
  intro levels t members h depth fields a b rest pos hfuel hfits ha hb
  cases h with
  | @last _ s c d t k v hs hc hd hv =>
      simp only [List.length_cons, List.length_append] at hfuel
      have htext : s ++ (c ++ ':' :: (d ++ t)) ++ (b ++ '\x7d' :: rest) =
          s ++ (c ++ ':' :: (d ++ (t ++ (b ++ '\x7d' :: rest)))) := by simp
      have hhead : ∀ e ∈ (s ++ (c ++ ':' :: (d ++ (t ++ (b ++ '\x7d' :: rest))))).head?,
          Parser.isWs e = false := by
        cases hs
        exact head_ws rfl
      have hskip := skipWs_append ha hhead pos
      obtain ⟨pos1, hturn⟩ := parseObject_member fuel depth fields hs hc hd
        (isWs_head_value hv _) (congrArg Parser.rest hskip)
      have hstops : Stops (b ++ '\x7d' :: rest) := stops_ws_append hb (stops_cons rfl rest)
      obtain ⟨pos2, hread⟩ := ihValue _ _ _ hv (depth + 1) _ pos1 (by omega) (by omega) hstops
      rw [htext, hturn, hread]
      exact member_close rfl hb
  | @more _ s c d t e f ts k v members hs hc hd hv he hf hmembers =>
      simp only [List.length_cons, List.length_append] at hfuel
      have hpos := value_length_pos hv
      have htext : s ++ (c ++ ':' :: (d ++ (t ++ (e ++ ',' :: (f ++ ts))))) ++
          (b ++ '\x7d' :: rest) = s ++ (c ++ ':' :: (d ++ (t ++ (e ++ ',' ::
            (f ++ (ts ++ (b ++ '\x7d' :: rest))))))) := by simp
      have hhead : ∀ g ∈ (s ++ (c ++ ':' :: (d ++ (t ++ (e ++ ',' ::
          (f ++ (ts ++ (b ++ '\x7d' :: rest)))))))).head?, Parser.isWs g = false := by
        cases hs
        exact head_ws rfl
      have hskip := skipWs_append ha hhead pos
      obtain ⟨pos1, hturn⟩ := parseObject_member fuel depth fields hs hc hd
        (isWs_head_value hv _) (congrArg Parser.rest hskip)
      have hstops : Stops (e ++ ',' :: (f ++ (ts ++ (b ++ '\x7d' :: rest)))) :=
        stops_ws_append he (stops_cons rfl _)
      obtain ⟨pos2, hread⟩ := ihValue _ _ _ hv (depth + 1) _ pos1 (by omega) (by omega) hstops
      have hcomma : ∃ pos3, member fuel depth fields k v
          ⟨e ++ ',' :: (f ++ (ts ++ (b ++ '\x7d' :: rest))), pos2⟩ =
          Parser.parseObject fuel depth (SortedList.insert k v fields)
            ⟨f ++ (ts ++ (b ++ '\x7d' :: rest)), pos3⟩ := member_comma rfl he
      obtain ⟨pos3, hmember⟩ := hcomma
      obtain ⟨pos4, hloop⟩ := ihMembers _ _ _ hmembers depth (SortedList.insert k v fields) f b
        rest pos3 (by omega) hfits hf hb
      refine ⟨pos4, ?_⟩
      rw [htext, hturn, hread]
      dsimp only
      rw [hmember, hloop]
      rfl

/-- Every text of the grammar is read with the value it denotes, given enough turns; the loops over
arrays and objects share the induction. -/
theorem reads_of_grammar (fuel : Nat) :
    ReadsValues fuel ∧ ReadsItems fuel ∧ ReadsMembers fuel := by
  induction fuel with
  | zero =>
      refine ⟨?_, ?_, ?_⟩
      · intro levels t v h depth rest pos hfuel
        exact absurd hfuel (Nat.not_lt_zero _)
      · intro levels t items h depth acc a b rest pos hfuel
        exact absurd hfuel (Nat.not_lt_zero _)
      · intro levels t members h depth fields a b rest pos hfuel
        exact absurd hfuel (Nat.not_lt_zero _)
  | succ fuel ih =>
      obtain ⟨ihValue, ihItems, ihMembers⟩ := ih
      exact ⟨readsValues_succ ihItems ihMembers, readsItems_succ ihValue ihItems,
        readsMembers_succ ihValue ihMembers⟩

/-! ## What is read is a text of the grammar -/

theorem rest_of_peek {p : Parser} {c : Char} (h : p.peek = some c) : p.rest = c :: p.advance.rest := by
  obtain ⟨rest, hrest⟩ := List.head?_eq_some_iff.mp h
  rw [Parser.advance, hrest]
  rfl

theorem number_of_parseNumber {p p' : Parser} {v : Json} {c : Char} (hpeek : p.peek = some c)
    (hc : c = '-' ∨ c.isDigit = true) (h : p.parseNumber = .ok (v, p')) :
    ∃ t x, p.rest = t ++ p'.rest ∧ LooseNumber t x ∧ v = .number x := by
  obtain ⟨rest, hrest⟩ := List.head?_eq_some_iff.mp hpeek
  have hchar : Parser.isNumberChar c = true := by
    rcases hc with rfl | hc
    · rfl
    · simp [Parser.isNumberChar, hc]
  rw [Parser.parseNumber] at h
  split at h
  · rename_i x hread
    cases h
    refine ⟨_, x, List.takeWhile_append_dropWhile.symm, looseNumber_iff.mpr ⟨hread, ?_⟩, rfl⟩
    rw [hrest, List.takeWhile_cons_of_pos hchar]
    exact ⟨c, _, rfl, hc⟩
  · cases h

theorem rest_of_consumeLiteral {p p' : Parser} {literal : Str}
    (h : p.consumeLiteral literal = some p') : p.rest = literal ++ p'.rest := by
  obtain ⟨rest, hrest, rfl⟩ := Option.map_eq_some_iff.mp h
  exact stripPrefix_eq_some_iff.mp hrest

theorem value_of_parseBool {levels : Nat} {p p' : Parser} {v : Json} (h : p.parseBool = .ok (v, p')) :
    ∃ t, p.rest = t ++ p'.rest ∧ Value LooseNumber levels t v := by
  rw [Parser.parseBool] at h
  split at h
  · rename_i hlit
    cases h
    exact ⟨_, rest_of_consumeLiteral hlit, .true⟩
  · split at h
    · rename_i hlit
      cases h
      exact ⟨_, rest_of_consumeLiteral hlit, .false⟩
    · cases h

theorem value_of_parseNull {levels : Nat} {p p' : Parser} {v : Json} (h : p.parseNull = .ok (v, p')) :
    ∃ t, p.rest = t ++ p'.rest ∧ Value LooseNumber levels t v := by
  rw [Parser.parseNull] at h
  split at h
  · rename_i hlit
    cases h
    exact ⟨_, rest_of_consumeLiteral hlit, .null⟩
  · cases h

/-! ### From the reader to the grammar -/

/-- A value that is read with this much fuel stands in the grammar, as deep below the root as it was
read. -/
def DerivesValues (fuel : Nat) : Prop :=
  ∀ depth p v p', Parser.parseValue fuel depth p = .ok (v, p') →
    ∃ levels t, depth + levels = maxDepth ∧ p.rest = t ++ p'.rest ∧ Value LooseNumber levels t v

/-- So does what is left of an array. -/
def DerivesItems (fuel : Nat) : Prop :=
  ∀ depth acc p v p', Parser.parseArray fuel depth acc p = .ok (v, p') →
    ∃ levels a t b items, depth + 1 + levels = maxDepth ∧
      p.rest = a ++ (t ++ (b ++ ']' :: p'.rest)) ∧ Ws a ∧ Ws b ∧
        Items LooseNumber levels t items ∧ v = .array (acc.reverse ++ items)

/-- So does what is left of an object. -/
def DerivesMembers (fuel : Nat) : Prop :=
  ∀ depth fields p v p', Parser.parseObject fuel depth fields p = .ok (v, p') →
    ∃ levels a t b members, depth + 1 + levels = maxDepth ∧
      p.rest = a ++ (t ++ (b ++ '\x7d' :: p'.rest)) ∧ Ws a ∧ Ws b ∧
        Members LooseNumber levels t members ∧ v = .object (insertMembers fields members)

theorem derivesValues_succ {fuel : Nat} (ihArray : DerivesItems fuel)
    (ihObject : DerivesMembers fuel) : DerivesValues (fuel + 1) := by
  intro depth p v p' h
  rw [Parser.parseValue] at h
  split at h
  · cases h
  rename_i hdeep
  -- The levels below are those that the depth limit has left.
  obtain ⟨levels, hlevels⟩ := Nat.exists_eq_add_of_le (Nat.le_of_not_lt hdeep)
  refine ⟨levels, ?_⟩
  split at h
  · cases h
  rename_i c hpeek
  have hrest := rest_of_peek hpeek
  obtain ⟨a, ha, hws⟩ := rest_skipWs p.advance
  -- The branches come in the order in which the reader tries the first character.
  by_cases hbrace : c = '\x7b'
  · rw [if_pos hbrace] at h
    dsimp only at h
    split at h
    · rename_i hclose
      cases h
      refine ⟨_, hlevels.symm, ?_, .emptyObject hws⟩
      rw [hrest, hbrace, ha, rest_of_peek hclose]
      simp
    · obtain ⟨below, b, t, d, members, hbelow, ht, hb, hd, hmembers, rfl⟩ :=
        ihObject depth [] _ v p' h
      obtain rfl : levels = below + 1 := by omega
      -- The loop skips white space too: its run goes on from the one behind the brace.
      refine ⟨_, hlevels.symm, ?_, .object (a := a ++ b) ?_ hmembers hd⟩
      · rw [hrest, hbrace, ha, ht]
        simp
      · exact List.forall_mem_append.mpr ⟨hws, hb⟩
  rw [if_neg hbrace] at h
  by_cases hbracket : c = '['
  · rw [if_pos hbracket] at h
    dsimp only at h
    split at h
    · rename_i hclose
      cases h
      refine ⟨_, hlevels.symm, ?_, .emptyArray hws⟩
      rw [hrest, hbracket, ha, rest_of_peek hclose]
      simp
    · obtain ⟨below, b, t, d, items, hbelow, ht, hb, hd, hitems, rfl⟩ :=
        ihArray depth [] _ v p' h
      obtain rfl : levels = below + 1 := by omega
      refine ⟨_, hlevels.symm, ?_, .array (a := a ++ b) ?_ hitems hd⟩
      · rw [hrest, hbracket, ha, ht]
        simp
      · exact List.forall_mem_append.mpr ⟨hws, hb⟩
  rw [if_neg hbracket] at h
  by_cases hquote : c = '"'
  · rw [if_pos hquote] at h
    rw [hquote] at hpeek
    split at h
    · rename_i s q hread
      cases h
      obtain ⟨t, ht, hs⟩ := quoted_of_parseString hpeek hread
      exact ⟨t, hlevels.symm, ht, .string hs⟩
    · cases h
  rw [if_neg hquote] at h
  split at h
  · obtain ⟨t, ht, hv⟩ := value_of_parseBool h
    exact ⟨t, hlevels.symm, ht, hv⟩
  · split at h
    · obtain ⟨t, ht, hv⟩ := value_of_parseNull h
      exact ⟨t, hlevels.symm, ht, hv⟩
    · split at h
      · rename_i hc
        obtain ⟨t, x, ht, hx, rfl⟩ := number_of_parseNumber hpeek hc h
        exact ⟨t, hlevels.symm, ht, .number hx⟩
      · cases h

theorem derivesItems_succ {fuel : Nat} (ihValue : DerivesValues fuel)
    (ihArray : DerivesItems fuel) : DerivesItems (fuel + 1) := by
  intro depth acc p v p' h
  obtain ⟨a, ha, hws⟩ := rest_skipWs p
  rw [Parser.parseArray] at h
  split at h
  · cases h
  rename_i item q hitem
  obtain ⟨levels, t, hlevels, ht, hv⟩ := ihValue _ _ _ _ hitem
  obtain ⟨b, hb, hwsb⟩ := rest_skipWs q
  dsimp only at h
  split at h
  · rename_i q' hbump
    obtain ⟨below, c, ts, d, items, hbelow, hts, hc, hd, hitems, rfl⟩ := ihArray _ _ _ _ _ h
    obtain rfl : levels = below := by omega
    refine ⟨levels, a, _, d, item :: items, hlevels, ?_, hws, hd, .more hv hwsb hc hitems, ?_⟩
    · rw [ha, ht, hb, rest_of_bump hbump, hts]
      simp
    · rw [List.reverse_cons, List.append_assoc]
      rfl
  · rename_i q' hbump
    cases h
    refine ⟨levels, a, t, b, [item], hlevels, ?_, hws, hwsb, .last hv, ?_⟩
    · rw [ha, ht, hb, rest_of_bump hbump]
    · rw [List.reverse_cons]
  · cases h
  · cases h

theorem derivesMembers_succ {fuel : Nat} (ihValue : DerivesValues fuel)
    (ihObject : DerivesMembers fuel) : DerivesMembers (fuel + 1) := by
  intro depth fields p v p' h
  obtain ⟨a, ha, hws⟩ := rest_skipWs p
  rw [Parser.parseObject] at h
  dsimp only at h
  split at h
  · cases h
  rename_i hquote
  split at h
  · cases h
  rename_i key q hkey
  obtain ⟨s, hs, hquoted⟩ := quoted_of_parseString (not_not.mp hquote) hkey
  obtain ⟨c, hc, hwsc⟩ := rest_skipWs q
  split at h
  · cases h
  rename_i hcolon
  have hcolon := rest_of_peek (not_not.mp hcolon)
  split at h
  · cases h
  rename_i value q' hvalue
  obtain ⟨d, hd, hwsd⟩ := rest_skipWs q.skipWs.advance
  obtain ⟨levels, t, hlevels, ht, hv⟩ := ihValue _ _ _ _ hvalue
  obtain ⟨e, he, hwse⟩ := rest_skipWs q'
  split at h
  · rename_i q'' hbump
    obtain ⟨below, f, ts, g, members, hbelow, hts, hf, hg, hmembers, rfl⟩ :=
      ihObject _ _ _ _ _ h
    obtain rfl : levels = below := by omega
    refine ⟨levels, a, _, g, (key, value) :: members, hlevels, ?_, hws, hg,
      .more hquoted hwsc hwsd hv hwse hf hmembers, rfl⟩
    rw [ha, hs, hc, hcolon, hd, ht, he, rest_of_bump hbump, hts]
    simp
  · rename_i q'' hbump
    cases h
    refine ⟨levels, a, _, e, [(key, value)], hlevels, ?_, hws, hwse,
      .last hquoted hwsc hwsd hv, rfl⟩
    rw [ha, hs, hc, hcolon, hd, ht, he, rest_of_bump hbump]
    simp
  · cases h
  · cases h

/-- What is read stands in the grammar. -/
theorem grammar_of_reads (fuel : Nat) :
    DerivesValues fuel ∧ DerivesItems fuel ∧ DerivesMembers fuel := by
  induction fuel with
  | zero =>
      refine ⟨?_, ?_, ?_⟩
      · intro depth p v p' h
        rw [Parser.parseValue] at h
        cases h
      · intro depth acc p v p' h
        rw [Parser.parseArray] at h
        cases h
      · intro depth fields p v p' h
        rw [Parser.parseObject] at h
        cases h
  | succ fuel ih =>
      obtain ⟨ihValue, ihArray, ihObject⟩ := ih
      exact ⟨derivesValues_succ ihArray ihObject, derivesItems_succ ihValue ihArray,
        derivesMembers_succ ihValue ihObject⟩

end Grammar

/-- The reader accepts the texts of the grammar with loosely spelled numbers, and no others. -/
theorem Json.parse_eq_ok_iff {s : Str} {v : Json} :
    Json.parse s = .ok v ↔ Text LooseNumber s v := by
  constructor
  · intro h
    rw [Json.parse] at h
    split at h
    · cases h
    · rename_i w p hread
      dsimp only at h
      split at h
      · rename_i hend
        cases h
        obtain ⟨levels, t, hlevels, ht, hv⟩ := (grammar_of_reads _).1 _ _ _ _ hread
        obtain rfl : levels = maxDepth := by omega
        obtain ⟨a, ha, hwsa⟩ := rest_skipWs ⟨s, 0⟩
        obtain ⟨b, hb, hwsb⟩ := rest_skipWs p
        rw [hend, List.append_nil] at hb
        rw [hb] at ht
        rw [ht] at ha
        rw [show s = a ++ (t ++ b) from ha]
        exact .mk hwsa hv hwsb
      · cases h
  · rintro ⟨ha, hv, hb⟩
    rename_i a t b
    have hskip := skipWs_append ha (isWs_head_value hv b) 0
    have hstops : Stops b := by
      have h := stops_ws_append hb stops_nil
      rwa [List.append_nil] at h
    obtain ⟨pos, hread⟩ := (reads_of_grammar (2 * (a ++ (t ++ b)).length + 2)).1 _ _ _ hv 0 b
      (0 + a.length) (by simp only [List.length_append]; omega) (Nat.zero_add _).le hstops
    have hnone : ∀ c ∈ ([] : Str).head?, Parser.isWs c = false := nofun
    have hend := skipWs_append hb hnone pos
    rw [List.append_nil] at hend
    rw [Json.parse, hskip, hread]
    dsimp only
    rw [hend, if_pos rfl]

end GaussMatrix.Api
