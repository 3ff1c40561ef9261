import GaussMatrix.Api.Json
import GaussMatrix.Library.Rounding

/-!
# The text of a JSON value

What the serializer writes for each kind of value, and what the value becomes on the way: an
infinity is written as zero and a negative zero loses its sign.  The text then says all of it.
-/

namespace GaussMatrix.Api

open Library

/-- The character classes of a text do not depend on where it stands. -/
def Stops (rest : Str) : Prop := ∀ c ∈ rest.head?, Parser.isNumberChar c = false

theorem stops_nil : Stops [] := by
  intro c hc
  cases hc

theorem stops_cons {c : Char} (h : Parser.isNumberChar c = false) (rest : Str) :
    Stops (c :: rest) := by
  intro d hd
  cases hd
  exact h

namespace Json

/-! ## Numbers -/

/-- The number a written number reads as. -/
def writtenNumber : F64 → F64
  | .finite neg units fits => .finite (neg && units ≠ 0) units fits
  | .inf _ => F64.ofNat 0
  | .nan => F64.ofNat 0

theorem formatNumber_whole {neg : Bool} {units : Nat} {fits : F64.Representable units}
    (hwhole : units % F64.unitsPerOne = 0) (hsmall : units < 2 ^ 53 * F64.unitsPerOne) :
    formatNumber (.finite neg units fits) =
      (if (neg && units ≠ 0) = true then ['-'] else []) ++ decimal (units / F64.unitsPerOne) := by
  have hint : F64.toInt? (.finite neg units fits) =
      some (if neg then -((units / F64.unitsPerOne : Nat) : Int)
        else (units / F64.unitsPerOne : Nat)) := if_pos hwhole
  have hsplit := Nat.div_add_mod units F64.unitsPerOne
  have hpos := F64.unitsPerOne_pos
  simp only [formatNumber, hint, if_pos hsmall]
  generalize F64.unitsPerOne = one at *
  rw [hwhole, Nat.add_zero] at hsplit
  have hzero : units / one = 0 ↔ units = 0 := by
    constructor
    · intro h
      rw [← hsplit, h, Nat.mul_zero]
    · intro h
      rw [h, Nat.zero_div]
  generalize units / one = whole at *
  cases neg with
  | false =>
      have hneg : ¬ ((whole : Int) < 0) := by omega
      simp [hneg]
  | true =>
      by_cases hunits : units = 0
      · have hq : whole = 0 := hzero.mpr hunits
        simp [hunits, hq]
      · have hq : whole ≠ 0 := fun h => hunits (hzero.mp h)
        simp [hunits, hq]

theorem formatNumber_other {neg : Bool} {units : Nat} {fits : F64.Representable units}
    (h : ¬ (units % F64.unitsPerOne = 0 ∧ units < 2 ^ 53 * F64.unitsPerOne)) :
    formatNumber (.finite neg units fits) = F64.display (.finite neg units fits) := by
  by_cases hwhole : units % F64.unitsPerOne = 0
  · have hint : F64.toInt? (.finite neg units fits) =
        some (if neg then -((units / F64.unitsPerOne : Nat) : Int)
          else (units / F64.unitsPerOne : Nat)) := if_pos hwhole
    have hlarge : ¬ units < 2 ^ 53 * F64.unitsPerOne := fun hsmall => h ⟨hwhole, hsmall⟩
    simp only [formatNumber, hint, if_neg hlarge]
  · have hint : F64.toInt? (.finite neg units fits) = none := if_neg hwhole
    simp only [formatNumber, hint]

/-- A written number is read as itself, save that an infinity is zero and a zero has no sign. -/
theorem parse_formatNumber (n : F64) : F64.parse (formatNumber n) = some (writtenNumber n) := by
  have hzero : F64.parse ['0'] = some (F64.ofNat 0) := by
    rw [F64.ofNat_eq_ofDecimal]
    exact F64.parse_decimal 0
  cases n with
  | inf neg => exact hzero
  | nan => exact hzero
  | finite neg units fits =>
      by_cases h : units % F64.unitsPerOne = 0 ∧ units < 2 ^ 53 * F64.unitsPerOne
      · rw [formatNumber_whole h.1 h.2, writtenNumber]
        have hwhole : units / F64.unitsPerOne * F64.unitsPerOne = units :=
          Nat.div_mul_cancel (Nat.dvd_of_mod_eq_zero h.1)
        cases hneg : neg && units ≠ 0 with
        | false =>
            rw [← F64.ofDecimal_whole false fits hwhole]
            exact F64.parse_decimal _
        | true =>
            rw [← F64.ofDecimal_whole true fits hwhole]
            exact F64.parse_neg_decimal _
      · rw [formatNumber_other h, F64.parse_display, writtenNumber]
        have hne : units ≠ 0 := by
          intro h0
          rw [h0] at h
          exact h ⟨Nat.zero_mod _, Nat.mul_pos (by decide) F64.unitsPerOne_pos⟩
        simp [hne]

/-- A written number is a minus sign or nothing, then digits and a point, a digit first. -/
theorem formatNumber_shape (n : F64) :
    ∃ (neg : Bool) (c : Char) (cs : Str),
      formatNumber n = (if neg then ['-'] else []) ++ c :: cs ∧ c.isDigit = true ∧
        ∀ d ∈ cs, d.isDigit = true ∨ d = '.' := by
  have hzero : ∃ (neg : Bool) (c : Char) (cs : Str),
      ['0'] = (if neg then ['-'] else []) ++ c :: cs ∧ c.isDigit = true ∧
        ∀ d ∈ cs, d.isDigit = true ∨ d = '.' :=
    ⟨false, '0', [], rfl, rfl, fun _ h => absurd h List.not_mem_nil⟩
  cases n with
  | inf neg => exact hzero
  | nan => exact hzero
  | finite neg units fits =>
      by_cases h : units % F64.unitsPerOne = 0 ∧ units < 2 ^ 53 * F64.unitsPerOne
      · rw [formatNumber_whole h.1 h.2]
        have hdigits : ∀ c ∈ decimal (units / F64.unitsPerOne), c.isDigit = true :=
          fun c => isDigit_of_mem_decimal
        obtain ⟨c, cs, hcs⟩ :=
          List.exists_cons_of_ne_nil (decimal_ne_nil (units / F64.unitsPerOne))
        rw [hcs] at hdigits ⊢
        obtain ⟨hc, hrest⟩ := List.forall_mem_cons.mp hdigits
        exact ⟨neg && units ≠ 0, c, cs, rfl, hc, fun d hd => .inl (hrest d hd)⟩
      · rw [formatNumber_other h]
        exact ⟨neg, F64.display_shape neg units fits⟩

theorem isNumberChar_of_mem_formatNumber {n : F64} {c : Char} (h : c ∈ formatNumber n) :
    Parser.isNumberChar c = true := by
  obtain ⟨neg, d, ds, hshape, hd, hds⟩ := formatNumber_shape n
  rw [hshape] at h
  have hdigit {e : Char} (he : e.isDigit = true) : Parser.isNumberChar e = true := by
    simp [Parser.isNumberChar, he]
  rcases List.mem_append.mp h with h | h
  · cases neg with
    | false => cases h
    | true =>
        rw [List.mem_singleton.mp h]
        rfl
  · rcases List.mem_cons.mp h with rfl | h
    · exact hdigit hd
    · rcases hds c h with hc | rfl
      · exact hdigit hc
      · rfl

theorem formatNumber_head (n : F64) :
    ∃ c cs, formatNumber n = c :: cs ∧ (c = '-' ∨ c.isDigit = true) := by
  obtain ⟨neg, d, ds, hshape, hd, -⟩ := formatNumber_shape n
  rw [hshape]
  cases neg with
  | false => exact ⟨d, ds, rfl, .inr hd⟩
  | true => exact ⟨'-', d :: ds, rfl, .inl rfl⟩

/-- The scanner takes exactly the written number. -/
theorem takeWhile_formatNumber (n : F64) {rest : Str} (h : Stops rest) :
    (formatNumber n ++ rest).takeWhile Parser.isNumberChar = formatNumber n ∧
      (formatNumber n ++ rest).dropWhile Parser.isNumberChar = rest := by
  have hall : ∀ c ∈ formatNumber n, Parser.isNumberChar c = true :=
    fun _ => isNumberChar_of_mem_formatNumber
  exact span_append hall h

/-! ## Strings -/

theorem hexValue_hexDigit : ∀ n < 16, Parser.hexValue (hexDigit n) = some n := by
  decide

theorem charFromU32_toNat (c : Char) : Parser.charFromU32 c.toNat = some c := by
  have hvalid : c.toNat.isValidChar := c.valid
  rw [Parser.charFromU32, if_pos hvalid, Char.ofNat_toNat]

/-- A control character is read from its four hexadecimal digits. -/
theorem parseUnicodeEscape_control {c : Char} (h : c.toNat < 0x20) (escPos pos : Nat)
    (rest : Str) :
    Parser.parseUnicodeEscape escPos
        ⟨'0' :: '0' :: hexDigit (c.toNat / 16) :: hexDigit (c.toNat % 16) :: rest, pos⟩ =
      .ok (c, ⟨rest, pos + 4⟩) := by
  have hhigh := hexValue_hexDigit (c.toNat / 16) (by omega)
  have hlow := hexValue_hexDigit (c.toNat % 16) (by omega)
  have hsum : c.toNat / 16 * 16 + c.toNat % 16 = c.toNat := by omega
  have hzero : Parser.hexValue '0' = some 0 := rfl
  have hhex : Parser.parseHex4 escPos
      ⟨'0' :: '0' :: hexDigit (c.toNat / 16) :: hexDigit (c.toNat % 16) :: rest, pos⟩ =
      .ok (c.toNat, ⟨rest, pos + 4⟩) := by
    simp only [Parser.parseHex4, Parser.parseHex, Parser.bump, hzero, hhigh, hlow]
    simp only [Nat.zero_mul, Nat.zero_add, hsum]
  have hnotHigh : ¬ (0xD800 ≤ c.toNat ∧ c.toNat ≤ 0xDBFF) := by omega
  have hnotLow : ¬ (0xDC00 ≤ c.toNat ∧ c.toNat ≤ 0xDFFF) := by omega
  have hread := charFromU32_toNat c
  generalize c.toNat = n at *
  rw [Parser.parseUnicodeEscape, hhex]
  show (if 0xD800 ≤ n ∧ n ≤ 0xDBFF then _ else _) = _
  rw [if_neg hnotHigh, if_neg hnotLow, hread]

/-- One turn of the reader undoes one turn of the writer. -/
theorem parseStringLoop_escapeChar (fuel : Nat) (acc : Str) (c : Char) (rest : Str) (pos : Nat) :
    Parser.parseStringLoop (fuel + 1) acc ⟨escapeChar c ++ rest, pos⟩ =
      Parser.parseStringLoop fuel (c :: acc) ⟨rest, pos + (escapeChar c).length⟩ := by
  have hsimple : ∀ e, e ≠ 'u' → Parser.simpleEscape e = some c →
      escapeChar c = ['\\', e] →
      Parser.parseStringLoop (fuel + 1) acc ⟨escapeChar c ++ rest, pos⟩ =
        Parser.parseStringLoop fuel (c :: acc) ⟨rest, pos + (escapeChar c).length⟩ := by
    intro e hu hread hwrite
    rw [hwrite]
    simp [Parser.parseStringLoop, Parser.bump, hu, hread]
  have hcode : ∀ n, n.isValidChar → c.toNat = n → Char.ofNat n = c := by
    rintro n _ rfl
    exact Char.ofNat_toNat c
  by_cases hquote : c = '"'
  · exact hsimple '"' (by decide) (by rw [hquote]; rfl) (by rw [hquote]; rfl)
  by_cases hslash : c = '\\'
  · exact hsimple '\\' (by decide) (by rw [hslash]; rfl) (by rw [hslash]; rfl)
  by_cases hn : c = '\n'
  · exact hsimple 'n' (by decide) (by rw [hn]; rfl) (by rw [hn]; rfl)
  by_cases hr : c = '\r'
  · exact hsimple 'r' (by decide) (by rw [hr]; rfl) (by rw [hr]; rfl)
  by_cases ht : c = '\t'
  · exact hsimple 't' (by decide) (by rw [ht]; rfl) (by rw [ht]; rfl)
  by_cases hb : c.toNat = 0x08
  · have hc := hcode 0x08 (by decide) hb
    exact hsimple 'b' (by decide) (congrArg some hc) (by rw [← hc]; rfl)
  by_cases hf : c.toNat = 0x0c
  · have hc := hcode 0x0c (by decide) hf
    exact hsimple 'f' (by decide) (congrArg some hc) (by rw [← hc]; rfl)
  by_cases hcontrol : c.toNat < 0x20
  · have hwrite : escapeChar c =
        ['\\', 'u', '0', '0', hexDigit (c.toNat / 16), hexDigit (c.toNat % 16)] := by
      simp only [escapeChar, if_neg hquote, if_neg hslash, if_neg hn, if_neg hr, if_neg ht,
        if_neg hb, if_neg hf, if_pos hcontrol]
    rw [hwrite]
    simp [Parser.parseStringLoop, Parser.bump, parseUnicodeEscape_control hcontrol]
  · have hwrite : escapeChar c = [c] := by
      simp only [escapeChar, if_neg hquote, if_neg hslash, if_neg hn, if_neg hr, if_neg ht,
        if_neg hb, if_neg hf, if_neg hcontrol]
    rw [hwrite]
    simp [Parser.parseStringLoop, Parser.bump, hquote, hslash, hcontrol]

theorem length_escapeChar_pos (c : Char) : 0 < (escapeChar c).length := by
  rw [escapeChar]
  split_ifs <;> exact Nat.succ_pos _

theorem length_le_flatMap_escapeChar (s : Str) : s.length ≤ (s.flatMap escapeChar).length := by
  induction s with
  | nil => exact Nat.le_refl _
  | cons c cs ih =>
      have hpos := length_escapeChar_pos c
      rw [List.flatMap_cons, List.length_append, List.length_cons]
      omega

theorem parseStringLoop_write (s : Str) (rest : Str) :
    ∀ fuel acc pos, s.length < fuel →
      Parser.parseStringLoop fuel acc ⟨s.flatMap escapeChar ++ '"' :: rest, pos⟩ =
        .ok (acc.reverse ++ s, ⟨rest, pos + (s.flatMap escapeChar).length + 1⟩) := by
  induction s with
  | nil =>
      intro fuel acc pos hfuel
      obtain ⟨fuel, rfl⟩ : ∃ k, fuel = k + 1 := ⟨fuel - 1, by omega⟩
      simp [Parser.parseStringLoop, Parser.bump]
  | cons c cs ih =>
      intro fuel acc pos hfuel
      rw [List.length_cons] at hfuel
      obtain ⟨fuel, rfl⟩ : ∃ k, fuel = k + 1 := ⟨fuel - 1, by omega⟩
      rw [List.flatMap_cons, List.append_assoc, parseStringLoop_escapeChar,
        ih fuel (c :: acc) _ (by omega), List.length_append, List.reverse_cons,
        List.append_assoc, Nat.add_assoc pos]
      rfl

/-- A written string is read back as it was. -/
theorem parseString_write (s : Str) (rest : Str) (pos : Nat) :
    Parser.parseString ⟨writeJsonString s ++ rest, pos⟩ =
      .ok (s, ⟨rest, pos + (writeJsonString s).length⟩) := by
  have htext : writeJsonString s ++ rest = '"' :: (s.flatMap escapeChar ++ '"' :: rest) := by
    rw [writeJsonString, List.cons_append, List.append_assoc]
    rfl
  have hlen : (writeJsonString s).length = (s.flatMap escapeChar).length + 2 := by
    simp [writeJsonString]
  have hfuel : s.length < ('"' :: (s.flatMap escapeChar ++ '"' :: rest)).length := by
    have hle := length_le_flatMap_escapeChar s
    rw [List.length_cons, List.length_append]
    omega
  rw [htext, hlen]
  show Parser.parseStringLoop _ [] ⟨s.flatMap escapeChar ++ '"' :: rest, pos + 1⟩ = _
  rw [parseStringLoop_write s rest _ [] (pos + 1) hfuel, Nat.add_right_comm pos 1]
  rfl

/-- A written string ends where its text says. -/
theorem writeJsonString_inj {s t r r' : Str}
    (h : writeJsonString s ++ r = writeJsonString t ++ r') : s = t ∧ r = r' := by
  have hs := parseString_write s r 0
  have ht := parseString_write t r' 0
  rw [h, ht] at hs
  obtain ⟨hst, hp⟩ := Prod.mk.inj (Except.ok.inj hs)
  exact ⟨hst.symm, (Parser.mk.inj hp).1.symm⟩

example : writeJsonString ['a', '"'] = ['"', 'a', '\\', '"', '"'] := by decide +kernel

/-! ## Integers in numbers -/

/-- The number a `u64` is written as, read as a `u64`. -/
theorem asU64_ofNat (n : UInt64) : ∃ q ≤ 2 ^ 64, ∃ fits,
    F64.ofNat n.toNat = .finite false (q * F64.unitsPerOne) fits ∧
      asU64 (.number (F64.ofNat n.toNat)) = some (UInt64.ofNat (min q (2 ^ 64 - 1))) := by
  obtain ⟨q, hq, fits, hnum⟩ := F64.ofNat_whole n.toNat_lt
  refine ⟨q, hq, fits, hnum, ?_⟩
  have hrange : (0 : Int) ≤ (q : Int) ∧ (q : Int) ≤ 2 ^ 64 := by omega
  rw [hnum, asU64, F64.toInt?_whole fits]
  exact if_pos hrange

/-- A `u64` survives as a double exactly when the double holds it, or when it is the largest, to
which the cast back saturates. -/
theorem asU64_ofNat_eq_iff (n : UInt64) : asU64 (.number (F64.ofNat n.toNat)) = some n ↔
    F64.Representable (n.toNat * F64.unitsPerOne) ∨ n.toNat = 2 ^ 64 - 1 := by
  obtain ⟨q, hq, fits, hnum, hread⟩ := asU64_ofNat n
  have hmin : (UInt64.ofNat (min q (2 ^ 64 - 1))).toNat = min q (2 ^ 64 - 1) :=
    UInt64.toNat_ofNat_of_lt' (Nat.lt_of_le_of_lt (Nat.min_le_right _ _) (by decide))
  constructor
  · intro h
    rw [hread] at h
    rw [← Option.some.inj h, hmin]
    by_cases htop : q ≤ 2 ^ 64 - 1
    · rw [Nat.min_eq_left htop]
      exact .inl fits
    · exact .inr (by omega)
  · rintro (hfits | htop)
    · have hself : F64.ofNat n.toNat = .finite false (n.toNat * F64.unitsPerOne) hfits := by
        have hround := F64.roundUnits_self hfits Nat.one_pos
        rw [Nat.mul_one] at hround
        exact F64.ofUnits_eq_finite hfits hround
      rw [hnum, F64.finite.injEq] at hself
      have hqn : q = n.toNat := Nat.eq_of_mul_eq_mul_right F64.unitsPerOne_pos hself.2
      have hlt := n.toNat_lt
      rw [hread, Option.some.injEq, ← UInt64.toNat_inj, hmin]
      omega
    · have hmax : asU64 (.number (F64.ofNat (2 ^ 64 - 1))) = some (UInt64.ofNat (2 ^ 64 - 1)) := by
        decide +kernel
      have htoNat : (UInt64.ofNat (2 ^ 64 - 1)).toNat = 2 ^ 64 - 1 :=
        UInt64.toNat_ofNat_of_lt' (by decide)
      rw [htop, hmax, Option.some.injEq, ← UInt64.toNat_inj, htop, htoNat]

theorem formatNumber_inj {n m : F64} {r r' : Str} (hr : Stops r) (hr' : Stops r')
    (h : formatNumber n ++ r = formatNumber m ++ r') :
    writtenNumber n = writtenNumber m ∧ r = r' := by
  obtain ⟨htake, hdrop⟩ := takeWhile_formatNumber n hr
  obtain ⟨htake', hdrop'⟩ := takeWhile_formatNumber m hr'
  rw [h] at htake hdrop
  have hn := parse_formatNumber n
  rw [← htake, htake', parse_formatNumber m] at hn
  exact ⟨(Option.some.inj hn).symm, hdrop.symm.trans hdrop'⟩

/-! ## Values -/

/-- Induction over a value, its elements and its fields. -/
theorem treeInduction {P : Json → Prop} (null : P .null) (bool : ∀ b, P (.bool b))
    (number : ∀ n, P (.number n)) (string : ∀ s, P (.string s))
    (array : ∀ items : List Json, (∀ item ∈ items, P item) → P (.array items))
    (object : ∀ fields : List (Str × Json), (∀ f ∈ fields, P f.2) → P (.object fields))
    (v : Json) : P v :=
  @Json.rec P (fun items => ∀ item ∈ items, P item) (fun fields => ∀ f ∈ fields, P f.2)
    (fun f => P f.2) null bool number string array object
    (fun _ h => absurd h List.not_mem_nil)
    (fun _ _ hhead htail => List.forall_mem_cons.mpr ⟨hhead, htail⟩)
    (fun _ h => absurd h List.not_mem_nil)
    (fun _ _ hhead htail => List.forall_mem_cons.mpr ⟨hhead, htail⟩)
    (fun _ _ h => h) v

mutual

/-- The value a written value reads as. -/
def written : Json → Json
  | .null => .null
  | .bool b => .bool b
  | .number n => .number (writtenNumber n)
  | .string s => .string s
  | .array items => .array (writtenItems items)
  | .object fields => .object (writtenFields fields)

def writtenItems : List Json → List Json
  | [] => []
  | item :: items => written item :: writtenItems items

def writtenFields : List (Str × Json) → List (Str × Json)
  | [] => []
  | (k, v) :: fields => (k, written v) :: writtenFields fields

end

mutual

/-- How many levels of arrays and objects stand around the innermost value. -/
def nesting : Json → Nat
  | .array items => nestingItems items
  | .object fields => nestingFields fields
  | _ => 0

def nestingItems : List Json → Nat
  | [] => 0
  | item :: items => max (nesting item + 1) (nestingItems items)

def nestingFields : List (Str × Json) → Nat
  | [] => 0
  | (_, v) :: fields => max (nesting v + 1) (nestingFields fields)

end

mutual

/-- A test holds of a value and of all that stands in it. -/
def everywhere (p : Json → Bool) : Json → Bool
  | .array items => p (.array items) && everywhereItems p items
  | .object fields => p (.object fields) && everywhereFields p fields
  | v => p v

def everywhereItems (p : Json → Bool) : List Json → Bool
  | [] => true
  | item :: items => everywhere p item && everywhereItems p items

def everywhereFields (p : Json → Bool) : List (Str × Json) → Bool
  | [] => true
  | (_, v) :: fields => everywhere p v && everywhereFields p fields

end

mutual

/-- The derived `==` of the source's values: doubles compare as doubles. -/
def eqv : Json → Json → Bool
  | .null, .null => true
  | .bool a, .bool b => a = b
  | .number n, .number m => n.eq m
  | .string s, .string t => s = t
  | .array xs, .array ys => eqvItems xs ys
  | .object xs, .object ys => eqvFields xs ys
  | _, _ => false

def eqvItems : List Json → List Json → Bool
  | [], [] => true
  | x :: xs, y :: ys => eqv x y && eqvItems xs ys
  | _, _ => false

def eqvFields : List (Str × Json) → List (Str × Json) → Bool
  | [], [] => true
  | (k, x) :: xs, (l, y) :: ys => k = l && eqv x y && eqvFields xs ys
  | _, _ => false

end

/-- The number, if the value is one, is finite. -/
def numberFinite : Json → Bool
  | .number n => n.isFinite
  | _ => true

/-- The keys, if the value is an object, ascend. -/
def keysAscend : Json → Bool
  | .object fields => fields.Pairwise (fun f g => f.1 < g.1)
  | _ => true

/-- All numbers of a value are finite. -/
abbrev Finite (v : Json) : Prop := v.everywhere numberFinite = true

/-- All objects of a value have their keys in order, as an ordered map keeps them. -/
abbrev Ordered (v : Json) : Prop := v.everywhere keysAscend = true

theorem everywhereItems_iff {p : Json → Bool} {items : List Json} :
    everywhereItems p items = true ↔ ∀ item ∈ items, everywhere p item = true := by
  induction items with
  | nil => simp [everywhereItems]
  | cons item items ih => simp [everywhereItems, ih]

theorem everywhereFields_iff {p : Json → Bool} {fields : List (Str × Json)} :
    everywhereFields p fields = true ↔ ∀ f ∈ fields, everywhere p f.2 = true := by
  induction fields with
  | nil => simp [everywhereFields]
  | cons f fields ih => simp [everywhereFields, ih]

theorem everywhere_array {p : Json → Bool} {items : List Json} :
    everywhere p (.array items) = true ↔
      p (.array items) = true ∧ ∀ item ∈ items, everywhere p item = true := by
  rw [everywhere, Bool.and_eq_true, everywhereItems_iff]

theorem everywhere_object {p : Json → Bool} {fields : List (Str × Json)} :
    everywhere p (.object fields) = true ↔
      p (.object fields) = true ∧ ∀ f ∈ fields, everywhere p f.2 = true := by
  rw [everywhere, Bool.and_eq_true, everywhereFields_iff]

theorem writtenNumber_ofNat : writtenNumber (F64.ofNat 0) = F64.ofNat 0 := by
  rw [F64.ofNat_eq_finite (by decide)]
  rfl

theorem writtenNumber_idem (n : F64) : writtenNumber (writtenNumber n) = writtenNumber n := by
  cases n with
  | finite neg units fits => cases neg <;> simp [writtenNumber]
  | inf neg => exact writtenNumber_ofNat
  | nan => exact writtenNumber_ofNat

theorem isFinite_writtenNumber (n : F64) : (writtenNumber n).isFinite = true := by
  have hzero : (F64.ofNat 0).isFinite = true := by
    rw [F64.ofNat_eq_finite (by decide)]
    rfl
  cases n with
  | finite neg units fits => rfl
  | inf neg => exact hzero
  | nan => exact hzero

/-- Writing loses nothing twice. -/
theorem written_written (v : Json) : v.written.written = v.written := by
  induction v using treeInduction with
  | null => rfl
  | bool b => rfl
  | number n => exact congrArg Json.number (writtenNumber_idem n)
  | string s => rfl
  | array items ih =>
      simp only [written]
      congr 1
      induction items with
      | nil => rfl
      | cons x xs ihItems =>
          obtain ⟨hx, hxs⟩ := List.forall_mem_cons.mp ih
          rw [writtenItems, writtenItems, hx, ihItems hxs]
  | object fields ih =>
      simp only [written]
      congr 1
      induction fields with
      | nil => rfl
      | cons x xs ihFields =>
          obtain ⟨hx, hxs⟩ := List.forall_mem_cons.mp ih
          obtain ⟨k, x⟩ := x
          rw [writtenFields, writtenFields, hx, ihFields hxs]

theorem finite_written (v : Json) : v.written.Finite := by
  induction v using treeInduction with
  | null => rfl
  | bool b => rfl
  | number n => exact isFinite_writtenNumber n
  | string s => rfl
  | array items ih =>
      rw [written, Finite, everywhere_array]
      refine ⟨rfl, ?_⟩
      induction items with
      | nil => exact fun _ h => absurd h List.not_mem_nil
      | cons x xs ihItems =>
          obtain ⟨hx, hxs⟩ := List.forall_mem_cons.mp ih
          exact List.forall_mem_cons.mpr ⟨hx, ihItems hxs⟩
  | object fields ih =>
      rw [written, Finite, everywhere_object]
      refine ⟨rfl, ?_⟩
      induction fields with
      | nil => exact fun _ h => absurd h List.not_mem_nil
      | cons x xs ihFields =>
          obtain ⟨hx, hxs⟩ := List.forall_mem_cons.mp ih
          exact List.forall_mem_cons.mpr ⟨hx, ihFields hxs⟩

theorem eq_of_writtenNumber {n m : F64} (hn : n.isFinite = true)
    (h : writtenNumber n = writtenNumber m) : n.eq m = m.isFinite := by
  cases n with
  | inf neg => cases hn
  | nan => cases hn
  | finite neg units fits =>
      cases m with
      | inf neg' => rfl
      | nan => rfl
      | finite neg' units' fits' =>
          simp only [writtenNumber, F64.finite.injEq] at h
          obtain ⟨hneg, rfl⟩ := h
          by_cases hzero : units = 0
          · simp [F64.eq, F64.isFinite, hzero]
          · have hsign : neg = neg' := by simpa [hzero] using hneg
            simp [F64.eq, F64.isFinite, hsign]

/-- A finite value and one written as it is are equal exactly when the other is finite too. -/
theorem eqv_of_written (v : Json) : ∀ w : Json, v.Finite → v.written = w.written →
    v.eqv w = w.everywhere numberFinite := by
  induction v using treeInduction with
  | null =>
      intro w _ h
      cases w <;> cases h
      rfl
  | bool b =>
      intro w _ h
      cases w <;> cases h
      simp [eqv, everywhere, numberFinite]
  | number n =>
      -- two numbers that are written alike are equal, unless one is not finite
      intro w hfin h
      cases w <;> simp only [written, Json.number.injEq, reduceCtorEq] at h
      exact eq_of_writtenNumber hfin h
  | string s =>
      intro w _ h
      cases w <;> cases h
      simp [eqv, everywhere, numberFinite]
  | array items ih =>
      intro w hfin h
      cases w <;> simp only [written, Json.array.injEq, reduceCtorEq] at h
      rename_i items'
      replace hfin := (everywhere_array.mp hfin).2
      show eqvItems items items' = (true && everywhereItems numberFinite items')
      rw [Bool.true_and]
      induction items generalizing items' with
      | nil =>
          cases items' with
          | nil => rfl
          | cons y ys => cases h
      | cons x xs ihItems =>
          cases items' with
          | nil => cases h
          | cons y ys =>
              obtain ⟨hx, hxs⟩ := List.forall_mem_cons.mp ih
              obtain ⟨hfx, hfxs⟩ := List.forall_mem_cons.mp hfin
              obtain ⟨hhead, htail⟩ := List.cons.inj h
              rw [eqvItems, everywhereItems, hx y hfx hhead, ihItems hxs ys htail hfxs]
  | object fields ih =>
      intro w hfin h
      cases w <;> simp only [written, Json.object.injEq, reduceCtorEq] at h
      rename_i fields'
      replace hfin := (everywhere_object.mp hfin).2
      show eqvFields fields fields' = (true && everywhereFields numberFinite fields')
      rw [Bool.true_and]
      induction fields generalizing fields' with
      | nil =>
          cases fields' with
          | nil => rfl
          | cons y ys => cases h
      | cons x xs ihFields =>
          cases fields' with
          | nil => cases h
          | cons y ys =>
              obtain ⟨hx, hxs⟩ := List.forall_mem_cons.mp ih
              obtain ⟨hfx, hfxs⟩ := List.forall_mem_cons.mp hfin
              obtain ⟨hhead, htail⟩ := List.cons.inj h
              obtain ⟨hkey, hvalue⟩ := Prod.mk.inj hhead
              rw [eqvFields, everywhereFields, hx y.2 hfx hvalue, ihFields hxs ys htail hfxs]
              simp [hkey]

theorem formatNumber_writtenNumber (n : F64) : formatNumber (writtenNumber n) = formatNumber n := by
  have hzero : formatNumber (F64.ofNat 0) = "0".toList := by decide +kernel
  cases n with
  | inf neg => exact hzero
  | nan => exact hzero
  | finite neg units fits =>
      by_cases h0 : units = 0
      · subst h0
        have hwhole : 0 % F64.unitsPerOne = 0 := Nat.zero_mod _
        have hsmall : 0 < 2 ^ 53 * F64.unitsPerOne := Nat.mul_pos (by decide) F64.unitsPerOne_pos
        rw [writtenNumber, formatNumber_whole hwhole hsmall, formatNumber_whole hwhole hsmall]
        simp
      · have hsame : writtenNumber (.finite neg units fits) = .finite neg units fits := by
          simp [writtenNumber, h0]
        rw [hsame]

/-- What a written value reads as has the same text. -/
theorem write_written (v : Json) : v.written.write = v.write := by
  induction v using treeInduction with
  | null => rfl
  | bool b => rfl
  | number n => exact formatNumber_writtenNumber n
  | string s => rfl
  | array items ih =>
      have hitems : writeItems (writtenItems items) = writeItems items := by
        induction items with
        | nil => rfl
        | cons x xs ihItems =>
            obtain ⟨hx, hxs⟩ := List.forall_mem_cons.mp ih
            cases xs with
            | nil => exact hx
            | cons y ys =>
                show x.written.write ++ ',' :: writeItems (writtenItems (y :: ys)) =
                  x.write ++ ',' :: writeItems (y :: ys)
                rw [hx, ihItems hxs]
      rw [written, write, write, hitems]
  | object fields ih =>
      have hfields : writeFields (writtenFields fields) = writeFields fields := by
        induction fields with
        | nil => rfl
        | cons x xs ihFields =>
            obtain ⟨hx, hxs⟩ := List.forall_mem_cons.mp ih
            obtain ⟨k, x⟩ := x
            cases xs with
            | nil => rw [writtenFields, writtenFields, writeFields, writeFields, hx]
            | cons y ys =>
                show writeJsonString k ++
                    ':' :: (x.written.write ++ ',' :: writeFields (writtenFields (y :: ys))) =
                  writeJsonString k ++ ':' :: (x.write ++ ',' :: writeFields (y :: ys))
                rw [hx, ihFields hxs]
      rw [written, write, write, hfields]

/-- What is read from the text of a value equals the value exactly when its numbers are finite. -/
theorem eqv_written (v : Json) : v.written.eqv v = v.everywhere numberFinite :=
  eqv_of_written v.written v (finite_written v) (written_written v)

/-! ## The text determines the value -/

/-- What kind of value a text is, by its first character. -/
def kindOfHead (c : Char) : Nat :=
  if c = 'n' then 1
  else if c = 't' ∨ c = 'f' then 2
  else if c = '-' ∨ c.isDigit then 3
  else if c = '"' then 4
  else if c = '[' then 5
  else if c = '{' then 6
  else 0

def kind : Json → Nat
  | .null => 1
  | .bool _ => 2
  | .number _ => 3
  | .string _ => 4
  | .array _ => 5
  | .object _ => 6

theorem kindOfHead_number {c : Char} (h : c = '-' ∨ c.isDigit = true) : kindOfHead c = 3 := by
  have hne : ∀ d : Char, d.isDigit = false → d ≠ '-' → c ≠ d := by
    rintro d hd hminus rfl
    rcases h with h | h
    · exact hminus h
    · rw [hd] at h
      cases h
  rw [kindOfHead, if_neg (hne 'n' rfl (by decide)),
    if_neg (not_or.mpr ⟨hne 't' rfl (by decide), hne 'f' rfl (by decide)⟩), if_pos h]

theorem isWs_of_kind {c : Char} (h : kindOfHead c ≠ 0) : Parser.isWs c = false := by
  have hne : ∀ d : Char, kindOfHead d = 0 → c ≠ d := by
    rintro d hd rfl
    exact h hd
  simp [Parser.isWs, hne ' ' rfl, hne '\t' rfl, hne '\n' rfl, hne '\r' rfl]

theorem write_head (v : Json) : ∃ c cs, v.write = c :: cs ∧ kindOfHead c = v.kind := by
  cases v with
  | null => exact ⟨'n', _, rfl, rfl⟩
  | bool b => cases b <;> exact ⟨_, _, rfl, rfl⟩
  | number n =>
      obtain ⟨c, cs, hcs, hc⟩ := formatNumber_head n
      exact ⟨c, cs, hcs, kindOfHead_number hc⟩
  | string s => exact ⟨'"', _, rfl, rfl⟩
  | array items => exact ⟨'[', _, rfl, rfl⟩
  | object fields => exact ⟨'{', _, rfl, rfl⟩

theorem kind_eq_of_write {v w : Json} {r r' : Str} (h : v.write ++ r = w.write ++ r') :
    v.kind = w.kind := by
  obtain ⟨c, cs, hcs, hc⟩ := write_head v
  obtain ⟨d, ds, hds, hd⟩ := write_head w
  rw [hcs, hds] at h
  rw [← hc, ← hd, (List.cons.inj h).1]

/-- A closing bracket starts no value. -/
theorem write_ne_closing (v : Json) {c : Char} (h : kindOfHead c = 0) (r r' : Str) :
    v.write ++ r ≠ c :: r' := by
  obtain ⟨d, ds, hds, hd⟩ := write_head v
  rw [hds]
  intro heq
  rw [(List.cons.inj heq).1, h] at hd
  cases v <;> cases hd

/-- What follows the first element of an array. -/
def moreItems : List Json → Str
  | [] => []
  | items => ',' :: writeItems items

/-- What follows the first field of an object. -/
def moreFields : List (Str × Json) → Str
  | [] => []
  | fields => ',' :: writeFields fields

theorem writeItems_cons (item : Json) (items : List Json) (rest : Str) :
    writeItems (item :: items) ++ rest = item.write ++ (moreItems items ++ rest) := by
  cases items with
  | nil => rfl
  | cons item' items => exact List.append_assoc _ (',' :: writeItems (item' :: items)) rest

theorem writeFields_cons (k : Str) (v : Json) (fields : List (Str × Json)) (rest : Str) :
    writeFields ((k, v) :: fields) ++ rest =
      writeJsonString k ++ ':' :: (v.write ++ (moreFields fields ++ rest)) := by
  cases fields with
  | nil =>
      rw [writeFields, moreFields, List.append_assoc]
      rfl
  | cons f fields =>
      rw [writeFields, List.append_assoc, List.cons_append, List.append_assoc]
      · rfl
      · exact List.cons_ne_nil _ _

theorem write_array (items : List Json) (rest : Str) :
    (Json.array items).write ++ rest = '[' :: (writeItems items ++ ']' :: rest) := by
  rw [write, List.cons_append, List.append_assoc]
  rfl

theorem write_object (fields : List (Str × Json)) (rest : Str) :
    (Json.object fields).write ++ rest = '{' :: (writeFields fields ++ '}' :: rest) := by
  rw [write, List.cons_append, List.append_assoc]
  rfl

example : (Json.object [(['a'], .array []), (['b'], .null)]).write.length = 17 := by decide +kernel

theorem stops_moreItems (items : List Json) (rest : Str) :
    Stops (moreItems items ++ ']' :: rest) := by
  cases items with
  | nil => exact stops_cons rfl rest
  | cons item items => exact stops_cons rfl _

theorem stops_moreFields (fields : List (Str × Json)) (rest : Str) :
    Stops (moreFields fields ++ '}' :: rest) := by
  cases fields with
  | nil => exact stops_cons rfl rest
  | cons f fields => exact stops_cons rfl _

/-- The text of a value says which one was written, up to what writing loses, and where it ends. -/
def Unambiguous (v : Json) : Prop :=
  ∀ (w : Json) (r r' : Str), Stops r → Stops r' → v.write ++ r = w.write ++ r' →
    v.written = w.written ∧ r = r'

theorem writeItems_inj {xs : List Json} (h : ∀ x ∈ xs, Unambiguous x) :
    ∀ (ys : List Json) (r r' : Str), writeItems xs ++ ']' :: r = writeItems ys ++ ']' :: r' →
      writtenItems xs = writtenItems ys ∧ r = r' := by
  induction xs with
  | nil =>
      intro ys r r' heq
      cases ys with
      | nil => exact ⟨rfl, (List.cons.inj heq).2⟩
      | cons y ys =>
          rw [writeItems_cons] at heq
          exact absurd heq.symm (write_ne_closing y rfl _ r)
  | cons x xs ih =>
      intro ys r r' heq
      obtain ⟨hx, hxs⟩ := List.forall_mem_cons.mp h
      rw [writeItems_cons] at heq
      cases ys with
      | nil => exact absurd heq (write_ne_closing x rfl _ r')
      | cons y ys =>
          rw [writeItems_cons] at heq
          obtain ⟨hxy, hmore⟩ := hx y _ _ (stops_moreItems xs r) (stops_moreItems ys r') heq
          rw [writtenItems, writtenItems, hxy]
          cases xs with
          | nil =>
              cases ys with
              | nil => exact ⟨rfl, (List.cons.inj hmore).2⟩
              | cons y' ys => cases (List.cons.inj hmore).1
          | cons x' xs =>
              cases ys with
              | nil => cases (List.cons.inj hmore).1
              | cons y' ys =>
                  obtain ⟨htail, hrest⟩ := ih hxs (y' :: ys) r r' (List.cons.inj hmore).2
                  exact ⟨congrArg _ htail, hrest⟩

theorem writeFields_inj {xs : List (Str × Json)} (h : ∀ x ∈ xs, Unambiguous x.2) :
    ∀ (ys : List (Str × Json)) (r r' : Str),
      writeFields xs ++ '}' :: r = writeFields ys ++ '}' :: r' →
        writtenFields xs = writtenFields ys ∧ r = r' := by
  have hquote : ∀ (k : Str) (t r : Str), writeJsonString k ++ t ≠ '}' :: r := by
    intro k t r heq
    cases (List.cons.inj heq).1
  induction xs with
  | nil =>
      intro ys r r' heq
      cases ys with
      | nil => exact ⟨rfl, (List.cons.inj heq).2⟩
      | cons y ys =>
          obtain ⟨l, y⟩ := y
          rw [writeFields_cons] at heq
          exact absurd heq.symm (hquote l _ r)
  | cons x xs ih =>
      intro ys r r' heq
      obtain ⟨hx, hxs⟩ := List.forall_mem_cons.mp h
      obtain ⟨k, x⟩ := x
      rw [writeFields_cons] at heq
      cases ys with
      | nil => exact absurd heq (hquote k _ r')
      | cons y ys =>
          obtain ⟨l, y⟩ := y
          rw [writeFields_cons] at heq
          obtain ⟨hkey, hcolon⟩ := writeJsonString_inj heq
          obtain ⟨hxy, hmore⟩ := hx y _ _ (stops_moreFields xs r) (stops_moreFields ys r')
            (List.cons.inj hcolon).2
          rw [writtenFields, writtenFields, hxy, hkey]
          cases xs with
          | nil =>
              cases ys with
              | nil => exact ⟨rfl, (List.cons.inj hmore).2⟩
              | cons y' ys => cases (List.cons.inj hmore).1
          | cons x' xs =>
              cases ys with
              | nil => cases (List.cons.inj hmore).1
              | cons y' ys =>
                  obtain ⟨htail, hrest⟩ := ih hxs (y' :: ys) r r' (List.cons.inj hmore).2
                  exact ⟨congrArg _ htail, hrest⟩

theorem unambiguous (v : Json) : Unambiguous v := by
  induction v using treeInduction with
  | null =>
      intro w r r' _ _ h
      have hkind := kind_eq_of_write h
      cases w <;> cases hkind
      exact ⟨rfl, List.append_cancel_left h⟩
  | bool b =>
      intro w r r' _ _ h
      have hkind := kind_eq_of_write h
      cases w <;> cases hkind
      rename_i b'
      cases b <;> cases b'
      · exact ⟨rfl, List.append_cancel_left h⟩
      · cases (List.cons.inj h).1
      · cases (List.cons.inj h).1
      · exact ⟨rfl, List.append_cancel_left h⟩
  | number n =>
      intro w r r' hr hr' h
      have hkind := kind_eq_of_write h
      cases w <;> cases hkind
      obtain ⟨hnum, hrest⟩ := formatNumber_inj hr hr' h
      exact ⟨congrArg Json.number hnum, hrest⟩
  | string s =>
      intro w r r' _ _ h
      have hkind := kind_eq_of_write h
      cases w <;> cases hkind
      obtain ⟨hstr, hrest⟩ := writeJsonString_inj h
      exact ⟨congrArg Json.string hstr, hrest⟩
  | array items ih =>
      intro w r r' hr hr' h
      have hkind := kind_eq_of_write h
      cases w <;> cases hkind
      rename_i items'
      rw [write_array, write_array] at h
      obtain ⟨hitems, hrest⟩ := writeItems_inj ih items' r r' (List.cons.inj h).2
      exact ⟨congrArg Json.array hitems, hrest⟩
  | object fields ih =>
      intro w r r' hr hr' h
      have hkind := kind_eq_of_write h
      cases w <;> cases hkind
      rename_i fields'
      rw [write_object, write_object] at h
      obtain ⟨hfields, hrest⟩ := writeFields_inj ih fields' r r' (List.cons.inj h).2
      exact ⟨congrArg Json.object hfields, hrest⟩

/-- Two values with one text are the same, up to what writing loses. -/
theorem written_eq_of_write_eq {v w : Json} (h : v.write = w.write) : v.written = w.written :=
  (unambiguous v w [] [] stops_nil stops_nil (by rw [h])).1

end Json

end GaussMatrix.Api
