import GaussMatrix.Api.JsonGrammar
import GaussMatrix.Library.Fallible

/-!
# The tokens that the reader takes

White space, numbers and strings: the reader takes what their productions derive, with the value they
denote, and nothing else.
-/

namespace GaussMatrix.Api.Grammar

open Library Json

/-! ## White space -/

theorem ws_iff {s : Str} : Ws s ↔ ∀ c ∈ s, Parser.isWs c = true := by
  simp [Ws, Parser.isWs, or_assoc]

theorem ws_takeWhile (s : Str) : Ws (s.takeWhile Parser.isWs) :=
  ws_iff.mpr fun _ hc => List.mem_takeWhile_imp hc

theorem ws_nil : Ws [] := fun _ hc => absurd hc List.not_mem_nil

theorem skipWs_append {a rest : Str} (ha : Ws a) (hrest : ∀ c ∈ rest.head?, Parser.isWs c = false)
    (pos : Nat) : Parser.skipWs ⟨a ++ rest, pos⟩ = ⟨rest, pos + a.length⟩ := by
  obtain ⟨htake, hdrop⟩ := span_append (ws_iff.mp ha) hrest
  rw [Parser.skipWs, htake, hdrop]

/-- White space that is skipped stands before what is left. -/
theorem rest_skipWs (p : Parser) : ∃ a, p.rest = a ++ p.skipWs.rest ∧ Ws a :=
  ⟨_, List.takeWhile_append_dropWhile.symm, ws_takeWhile p.rest⟩

/-! ## Numbers -/

theorem parseDecimal_eq_some_iff {s : Str} {n : Nat} :
    parseDecimal s = some n ↔ Digits s ∧ s ≠ [] ∧ n = Nat.ofDigitChars 10 s 0 := by
  rw [parseDecimal]
  by_cases h : s ≠ [] ∧ s.all Char.isDigit
  · rw [if_pos h]
    have hd : Digits s := List.all_eq_true.mp h.2
    simp [hd, h.1, eq_comm]
  · rw [if_neg h]
    have hnot : ¬ (Digits s ∧ s ≠ []) := fun hs => h ⟨hs.2, List.all_eq_true.mpr hs.1⟩
    simp only [reduceCtorEq, false_iff]
    exact fun hs => hnot ⟨hs.1, hs.2.1⟩

/-- The digits of an exponent, under its sign. -/
theorem map_parseDecimal_eq_some_iff {f : Int → Int} {ds : Str} {k : Int} :
    (Option.map f do
      let n ← parseDecimal ds
      pure (n : Int)) = some k ↔ Digits ds ∧ ds ≠ [] ∧ k = f (Nat.ofDigitChars 10 ds 0 : Nat) := by
  simp only [Option.map_eq_some_iff, Option.bind_eq_bind, Option.bind_eq_some_iff, Option.pure_def,
    parseDecimal_eq_some_iff]
  constructor
  · rintro ⟨_, ⟨n, ⟨hds, hne, rfl⟩, hn⟩, rfl⟩
    exact ⟨hds, hne, by rw [Option.some.inj hn]⟩
  · rintro ⟨hds, hne, rfl⟩
    exact ⟨_, ⟨_, ⟨hds, hne, rfl⟩, rfl⟩, rfl⟩

/-- The exponent is read as the grammar spells it. -/
theorem parseExponent_eq_some_iff {t : Str} {k : Int} :
    F64.parseExponent t = some k ↔ Exponent t k := by
  constructor
  · intro h
    unfold F64.parseExponent at h
    split at h
    · rw [← Option.some.inj h]
      exact .absent
    · rename_i e cs
      split at h
      · rename_i he
        split at h
        all_goals obtain ⟨hds, hne, rfl⟩ := map_parseDecimal_eq_some_iff.mp h
        · exact .minus he hds hne
        · exact .plus he hds hne
        · exact .bare he hds hne
      · cases h
  · intro h
    cases h with
    | absent => rfl
    | @bare e ds he hds hne =>
        obtain ⟨d, ds, rfl⟩ := List.exists_cons_of_ne_nil hne
        have hd : d.isDigit = true := hds d List.mem_cons_self
        have hminus : d ≠ '-' := by
          rintro rfl
          cases hd
        have hplus : d ≠ '+' := by
          rintro rfl
          cases hd
        simp only [F64.parseExponent, if_pos he]
        split
        · rename_i heq
          exact absurd (List.cons.inj heq).1 hminus
        · rename_i heq
          exact absurd (List.cons.inj heq).1 hplus
        · exact map_parseDecimal_eq_some_iff.mpr ⟨hds, hne, rfl⟩
    | plus he hds hne =>
        simp only [F64.parseExponent, if_pos he]
        exact map_parseDecimal_eq_some_iff.mpr ⟨hds, hne, rfl⟩
    | minus he hds hne =>
        simp only [F64.parseExponent, if_pos he]
        exact map_parseDecimal_eq_some_iff.mpr ⟨hds, hne, rfl⟩

theorem isNumberChar_of_digits {s : Str} (h : Digits s) : ∀ c ∈ s, Parser.isNumberChar c = true := by
  intro c hc
  simp [Parser.isNumberChar, h c hc]

theorem isNumberChar_of_exponent {t : Str} {k : Int} (h : Exponent t k) :
    ∀ c ∈ t, Parser.isNumberChar c = true := by
  have hletter : ∀ {e : Char}, e = 'e' ∨ e = 'E' → Parser.isNumberChar e = true := by
    rintro e (rfl | rfl) <;> rfl
  cases h with
  | absent => exact fun _ hc => absurd hc List.not_mem_nil
  | bare he hds =>
      exact List.forall_mem_cons.mpr ⟨hletter he, isNumberChar_of_digits hds⟩
  | plus he hds =>
      exact List.forall_mem_cons.mpr
        ⟨hletter he, List.forall_mem_cons.mpr ⟨rfl, isNumberChar_of_digits hds⟩⟩
  | minus he hds =>
      exact List.forall_mem_cons.mpr
        ⟨hletter he, List.forall_mem_cons.mpr ⟨rfl, isNumberChar_of_digits hds⟩⟩

/-- An exponent starts with a letter, so it ends a run of digits. -/
theorem head_exponent {t : Str} {k : Int} (h : Exponent t k) :
    ∀ c ∈ t.head?, c.isDigit = false ∧ c ≠ '.' := by
  have hletter : ∀ {e : Char}, e = 'e' ∨ e = 'E' → e.isDigit = false ∧ e ≠ '.' := by
    rintro e (rfl | rfl) <;> decide
  cases h with
  | absent => exact fun _ hc => nomatch hc
  | bare he => exact fun c hc => Option.some.inj hc ▸ hletter he
  | plus he => exact fun c hc => Option.some.inj hc ▸ hletter he
  | minus he => exact fun c hc => Option.some.inj hc ▸ hletter he

theorem digits_takeWhile (s : Str) : Digits (s.takeWhile Char.isDigit) :=
  fun _ hc => List.mem_takeWhile_imp hc

/-- A number without its sign reads as it is spelled. -/
theorem parseUnsigned_spelling {n : Spelling} (hwhole : Digits n.whole)
    (hfraction : ∀ ds ∈ n.fraction, Digits ds) (hne : n.whole ++ n.fraction.getD [] ≠ []) {k : Int}
    (hk : Exponent n.exponent k) :
    F64.parseUnsigned n.neg (n.whole ++ (n.fractionText ++ n.exponent)) = some (n.value k) := by
  obtain ⟨neg, whole, fraction, exponent⟩ := n
  dsimp only at hwhole hfraction hne hk ⊢
  have hexp := head_exponent hk
  cases fraction with
  | none =>
      obtain ⟨htake, hdrop⟩ := span_append hwhole fun c hc => (hexp c hc).1
      have hpoint : ∀ cs, exponent ≠ '.' :: cs := by
        rintro cs rfl
        exact (hexp '.' rfl).2 rfl
      unfold F64.parseUnsigned
      rw [Spelling.fractionText, Option.elim_none, List.nil_append, htake, hdrop]
      dsimp only
      split
      · exact absurd rfl (hpoint _)
      · dsimp only
        rw [if_neg (by exact hne), parseExponent_eq_some_iff.mpr hk]
        rfl
  | some ds =>
      have hds : Digits ds := hfraction ds rfl
      have hpoint : ∀ c ∈ ('.' :: (ds ++ exponent)).head?, Char.isDigit c = false :=
        fun c hc => Option.some.inj hc ▸ rfl
      obtain ⟨htake, hdrop⟩ := span_append hwhole hpoint
      obtain ⟨htake', hdrop'⟩ := span_append hds fun c hc => (hexp c hc).1
      unfold F64.parseUnsigned
      rw [Spelling.fractionText, Option.elim_some, List.cons_append, htake, hdrop]
      dsimp only
      split
      · rename_i heq
        rw [← (List.cons.inj heq).2, htake', hdrop']
        dsimp only
        rw [if_neg (by exact hne), parseExponent_eq_some_iff.mpr hk]
        rfl
      · rename_i hpoint
        exact absurd rfl (hpoint _)

/-- What reads as a number without a sign is spelled as one. -/
theorem spelling_of_parseUnsigned {neg : Bool} {t : Str} {x : F64}
    (h : F64.parseUnsigned neg t = some x) : ∃ (n : Spelling) (k : Int), n.neg = neg ∧
      Digits n.whole ∧ (∀ ds ∈ n.fraction, Digits ds) ∧ n.whole ++ n.fraction.getD [] ≠ [] ∧
      Exponent n.exponent k ∧ t = n.whole ++ (n.fractionText ++ n.exponent) ∧ x = n.value k := by
  unfold F64.parseUnsigned at h
  have hsplit := List.takeWhile_append_dropWhile (p := Char.isDigit) (l := t)
  have hwhole := digits_takeWhile t
  generalize t.takeWhile Char.isDigit = whole at h hsplit hwhole
  generalize t.dropWhile Char.isDigit = rest at h hsplit
  dsimp only at h
  split at h
  · rename_i cs
    split at h
    · cases h
    · rename_i hne
      obtain ⟨k, hk, rfl⟩ := Option.map_eq_some_iff.mp h
      have hk := parseExponent_eq_some_iff.mp hk
      refine ⟨⟨neg, whole, some _, _⟩, k, rfl, hwhole, fun ds hds => ?_, hne, hk, ?_, rfl⟩
      · exact Option.some.inj hds ▸ digits_takeWhile cs
      · rw [Spelling.fractionText, Option.elim_some, List.cons_append,
          List.takeWhile_append_dropWhile, hsplit]
  · split at h
    · cases h
    · rename_i hne
      obtain ⟨k, hk, rfl⟩ := Option.map_eq_some_iff.mp h
      have hk := parseExponent_eq_some_iff.mp hk
      refine ⟨⟨neg, whole, none, _⟩, k, rfl, hwhole, fun ds hds => ?_, hne, hk, hsplit.symm, rfl⟩
      cases hds

/-- The numbers that the reader takes are the loosely spelled ones. -/
theorem looseNumber_iff {t : Str} {x : F64} : LooseNumber t x ↔
    F64.parse t = some x ∧ ∃ c cs, t = c :: cs ∧ (c = '-' ∨ c.isDigit = true) := by
  constructor
  · rintro ⟨n, k, hn, hk, rfl, rfl⟩
    have hread := parseUnsigned_spelling hn.whole hn.fraction hn.nonempty hk
    rw [Spelling.text]
    cases hneg : n.neg with
    | true =>
        rw [hneg] at hread
        exact ⟨hread, '-', _, rfl, .inl rfl⟩
    | false =>
        rw [hneg] at hread
        have hne : n.whole ≠ [] := hn.head.resolve_left (by simp [hneg])
        obtain ⟨d, ds, hds⟩ := List.exists_cons_of_ne_nil hne
        have hd : d.isDigit = true := hn.whole d (by simp [hds])
        refine ⟨?_, d, _, by rw [hds]; rfl, .inr hd⟩
        -- a digit is no sign, so the sign is not stripped
        have hminus : d ≠ '-' := by
          rintro rfl
          cases hd
        have hplus : d ≠ '+' := by
          rintro rfl
          cases hd
        rw [← hread, hds]
        unfold F64.parse
        split
        · rename_i heq
          exact absurd (List.cons.inj heq).1 hminus
        · rename_i heq
          exact absurd (List.cons.inj heq).1 hplus
        · rfl
  · rintro ⟨hread, c, cs, rfl, hc⟩
    unfold F64.parse at hread
    split at hread
    · rename_i heq
      obtain ⟨rfl, rfl⟩ := List.cons.inj heq
      obtain ⟨n, k, hneg, hwhole, hfraction, hne, hk, rfl, rfl⟩ := spelling_of_parseUnsigned hread
      refine ⟨n, k, ⟨hwhole, hfraction, hne, .inl hneg⟩, hk, ?_, rfl⟩
      rw [Spelling.text, hneg]
      rfl
    · rename_i heq
      obtain ⟨rfl, -⟩ := List.cons.inj heq
      rcases hc with hc | hc <;> cases hc
    · rename_i hminus hplus
      obtain ⟨n, k, hneg, hwhole, hfraction, hne, hk, htext, rfl⟩ := spelling_of_parseUnsigned hread
      have hdigit : c.isDigit = true := hc.resolve_left fun hc => hminus cs (by rw [hc])
      refine ⟨n, k, ⟨hwhole, hfraction, hne, .inr ?_⟩, hk, ?_, rfl⟩
      · intro hnil
        rw [hnil, List.nil_append] at htext
        -- without whole digits the text starts with the point or the exponent
        cases hfrac : n.fraction with
        | none =>
            rw [hnil, hfrac] at hne
            exact hne rfl
        | some ds =>
            rw [Spelling.fractionText, hfrac] at htext
            rw [(List.cons.inj htext).1] at hdigit
            cases hdigit
      · rw [Spelling.text, hneg, htext]
        rfl

theorem isNumberChar_of_loose {t : Str} {x : F64} (h : LooseNumber t x) :
    ∀ c ∈ t, Parser.isNumberChar c = true := by
  obtain ⟨n, k, hn, hk, rfl, -⟩ := h
  rw [Spelling.text]
  refine List.forall_mem_append.mpr ⟨?_, List.forall_mem_append.mpr
    ⟨isNumberChar_of_digits hn.whole, List.forall_mem_append.mpr ⟨?_, isNumberChar_of_exponent hk⟩⟩⟩
  · cases n.neg with
    | true => exact List.forall_mem_singleton.mpr rfl
    | false => exact fun _ hc => absurd hc List.not_mem_nil
  · have hfraction := hn.fraction
    rw [Spelling.fractionText]
    cases hfrac : n.fraction with
    | none => exact fun _ hc => absurd hc List.not_mem_nil
    | some ds => exact List.forall_mem_cons.mpr ⟨rfl, isNumberChar_of_digits (hfraction ds hfrac)⟩

/-- A loosely spelled number denotes one double. -/
theorem LooseNumber.unique {t : Str} {x y : F64} (hx : LooseNumber t x) (hy : LooseNumber t y) :
    x = y :=
  Option.some.inj ((looseNumber_iff.mp hx).1.symm.trans (looseNumber_iff.mp hy).1)

/-! ## Strings -/

theorem simpleEscape_eq_some_iff {e c : Char} :
    Parser.simpleEscape e = some c ↔ (e, c) ∈ escapes := by
  constructor
  · intro h
    unfold Parser.simpleEscape at h
    split_ifs at h with h1 h2 h3 h4 h5 h6 h7 h8
    all_goals
      cases h
      simp_all [escapes]
  · intro h
    simp only [escapes, List.mem_cons, List.not_mem_nil, or_false, Prod.mk.injEq] at h
    rcases h with ⟨rfl, rfl⟩ | ⟨rfl, rfl⟩ | ⟨rfl, rfl⟩ | ⟨rfl, rfl⟩ | ⟨rfl, rfl⟩ | ⟨rfl, rfl⟩ |
      ⟨rfl, rfl⟩ | ⟨rfl, rfl⟩
    all_goals rfl

/-- Four digits are read with their value. -/
theorem parseHex4_of_hex4 {h : Str} {n : Nat} (hex : Hex4 h n) (escPos : Nat) (rest : Str)
    (pos : Nat) : Parser.parseHex4 escPos ⟨h ++ rest, pos⟩ = .ok (n, ⟨rest, pos + 4⟩) := by
  cases hex with
  | mk ha hb hc hd => simp [Parser.parseHex4, Parser.parseHex, Parser.bump, ha, hb, hc, hd]

theorem rest_of_bump {p q : Parser} {c : Char} (h : p.bump = some (c, q)) : p.rest = c :: q.rest := by
  unfold Parser.bump at h
  split at h
  · cases h
  · cases h
    assumption

/-- One digit of an escape that is read. -/
theorem parseHex_succ {escPos n value m : Nat} {p p' : Parser}
    (h : Parser.parseHex escPos (n + 1) value p = .ok (m, p')) :
    ∃ c q d, p.rest = c :: q.rest ∧ Parser.hexValue c = some d ∧
      Parser.parseHex escPos n (value * 16 + d) q = .ok (m, p') := by
  rw [Parser.parseHex] at h
  split at h
  · cases h
  · rename_i c q hbump
    split at h
    · cases h
    · rename_i d hd
      exact ⟨c, q, d, rest_of_bump hbump, hd, h⟩

theorem hex4_of_parseHex4 {escPos n : Nat} {p p' : Parser}
    (h : Parser.parseHex4 escPos p = .ok (n, p')) : ∃ t, p.rest = t ++ p'.rest ∧ Hex4 t n := by
  obtain ⟨a, p1, w, h1, ha, h⟩ := parseHex_succ h
  obtain ⟨b, p2, x, h2, hb, h⟩ := parseHex_succ h
  obtain ⟨c, p3, y, h3, hc, h⟩ := parseHex_succ h
  obtain ⟨d, p4, z, h4, hd, h⟩ := parseHex_succ h
  cases h
  refine ⟨[a, b, c, d], ?_, ?_⟩
  · rw [h1, h2, h3, h4]
    rfl
  · rw [Nat.zero_mul, Nat.zero_add]
    exact .mk ha hb hc hd

theorem hexValue_lt {c : Char} {d : Nat} (h : Parser.hexValue c = some d) : d < 16 := by
  unfold Parser.hexValue at h
  split_ifs at h with h1 h2 h3
  · have hd := digit_bounds h1
    cases h
    have hzero : '0'.toNat = 48 := rfl
    omega
  · cases h
    have hlow : 'a'.toNat ≤ c.toNat := h2.1
    have hhigh : c.toNat ≤ 'f'.toNat := h2.2
    have ha : 'a'.toNat = 97 := rfl
    have hf : 'f'.toNat = 102 := rfl
    omega
  · cases h
    have hlow : 'A'.toNat ≤ c.toNat := h3.1
    have hhigh : c.toNat ≤ 'F'.toNat := h3.2
    have ha : 'A'.toNat = 65 := rfl
    have hf : 'F'.toNat = 70 := rfl
    omega

theorem hex4_lt {t : Str} {n : Nat} (h : Hex4 t n) : n < 0x10000 := by
  cases h with
  | mk ha hb hc hd =>
      have hw := hexValue_lt ha
      have hx := hexValue_lt hb
      have hy := hexValue_lt hc
      have hz := hexValue_lt hd
      omega

theorem charFromU32_of_valid {n : Nat} (h : n.isValidChar) :
    Parser.charFromU32 n = some (Char.ofNat n) := if_pos h

theorem parseUnicodeEscape_of_unicode {u : Str} {c : Char} (h : Unicode u c) (escPos : Nat)
    (rest : Str) (pos : Nat) :
    ∃ pos', Parser.parseUnicodeEscape escPos ⟨u ++ rest, pos⟩ = .ok (c, ⟨rest, pos'⟩) := by
  cases h with
  | @single _ n hex hnot =>
      have hlt := hex4_lt hex
      have hvalid : n.isValidChar := by
        unfold Nat.isValidChar
        omega
      refine ⟨pos + 4, ?_⟩
      rw [Parser.parseUnicodeEscape, parseHex4_of_hex4 hex, ok_bind]
      refine (if_neg (by omega)).trans ((if_neg (by omega)).trans ?_)
      rw [charFromU32_of_valid hvalid]
  | @pair h l high low hhex hlex hhigh hlow =>
      have hvalid : (0x10000 + (high - 0xD800) * 2 ^ 10 + (low - 0xDC00)).isValidChar := by
        unfold Nat.isValidChar
        omega
      have hchar := charFromU32_of_valid hvalid
      refine ⟨pos + 4 + 2 + 4, ?_⟩
      rw [List.append_assoc, Parser.parseUnicodeEscape, parseHex4_of_hex4 hhex, ok_bind]
      refine (if_pos hhigh).trans ?_
      split
      · rename_i rest' heq
        have hrest : l ++ rest = rest' := (List.cons.inj (List.cons.inj heq).2).2
        rw [← hrest, parseHex4_of_hex4 hlex, ok_bind]
        refine (if_pos hlow).trans ?_
        rw [hchar]
      · rename_i hne
        exact absurd rfl (hne _)

theorem unicode_of_parseUnicodeEscape {escPos : Nat} {p p' : Parser} {c : Char}
    (h : Parser.parseUnicodeEscape escPos p = .ok (c, p')) :
    ∃ u, p.rest = u ++ p'.rest ∧ Unicode u c := by
  unfold Parser.parseUnicodeEscape at h
  obtain ⟨⟨n, q⟩, hhex, h⟩ := bind_eq_ok_iff.mp h
  obtain ⟨t, ht, hex⟩ := hex4_of_parseHex4 hhex
  have hlt := hex4_lt hex
  by_cases hhigh : 0xD800 ≤ n ∧ n ≤ 0xDBFF
  · have h := (if_pos hhigh).symm.trans h
    split at h
    · rename_i rest hrest
      obtain ⟨⟨low, q'⟩, hhex', h⟩ := bind_eq_ok_iff.mp h
      obtain ⟨l, hl, hlex⟩ := hex4_of_parseHex4 hhex'
      by_cases hlow : 0xDC00 ≤ low ∧ low ≤ 0xDFFF
      · have h := (if_pos hlow).symm.trans h
        have hvalid : (0x10000 + (n - 0xD800) * 2 ^ 10 + (low - 0xDC00)).isValidChar := by
          unfold Nat.isValidChar
          omega
        rw [charFromU32_of_valid hvalid] at h
        obtain ⟨rfl, rfl⟩ := Prod.mk.inj (Except.ok.inj h)
        refine ⟨_, ?_, .pair hex hlex hhigh hlow⟩
        rw [ht, hrest, List.append_assoc, List.cons_append, List.cons_append, ← hl]
      · have h := (if_neg hlow).symm.trans h
        cases h
    · cases h
  · have h := (if_neg hhigh).symm.trans h
    by_cases hlow : 0xDC00 ≤ n ∧ n ≤ 0xDFFF
    · have h := (if_pos hlow).symm.trans h
      cases h
    · have h := (if_neg hlow).symm.trans h
      have hvalid : n.isValidChar := by
        unfold Nat.isValidChar
        omega
      rw [charFromU32_of_valid hvalid] at h
      cases h
      exact ⟨t, ht, .single hex (by omega)⟩

/-- The characters of a string are read up to its closing quote. -/
theorem parseStringLoop_of_chars {t s : Str} (h : Chars t s) : ∀ (fuel : Nat) (acc rest : Str)
    (pos : Nat), t.length < fuel → ∃ pos', Parser.parseStringLoop fuel acc ⟨t ++ '"' :: rest, pos⟩ =
      .ok (acc.reverse ++ s, ⟨rest, pos'⟩) := by
  induction h with
  | nil =>
      intro fuel acc rest pos hfuel
      obtain ⟨fuel, rfl⟩ : ∃ k, fuel = k + 1 := ⟨fuel - 1, by omega⟩
      refine ⟨pos + 1, ?_⟩
      simp [Parser.parseStringLoop, Parser.bump]
  | @unescaped c t s hc hquote hback _ ih =>
      intro fuel acc rest pos hfuel
      obtain ⟨fuel, rfl⟩ : ∃ k, fuel = k + 1 := ⟨fuel - 1, by omega⟩
      obtain ⟨pos', hread⟩ := ih fuel (c :: acc) rest (pos + 1) (Nat.lt_of_succ_lt_succ hfuel)
      refine ⟨pos', ?_⟩
      have hnot : ¬ c.toNat < 0x20 := Nat.not_lt.mpr hc
      simp only [Parser.parseStringLoop, Parser.bump, List.cons_append, hquote, hback, hnot,
        if_false, hread]
      simp
  | @escape e c t s he _ ih =>
      intro fuel acc rest pos hfuel
      obtain ⟨fuel, rfl⟩ : ∃ k, fuel = k + 1 := ⟨fuel - 1, by omega⟩
      rw [List.length_cons, List.length_cons] at hfuel
      obtain ⟨pos', hread⟩ := ih fuel (c :: acc) rest (pos + 2) (by omega)
      refine ⟨pos', ?_⟩
      have hu : e ≠ 'u' := by
        rintro rfl
        revert he
        simp [escapes]
      have hsimple := simpleEscape_eq_some_iff.mpr he
      simp only [Parser.parseStringLoop, Parser.bump, List.cons_append, hu, hsimple, if_false,
        if_true, show ('\\' : Char) ≠ '"' by decide, hread]
      simp
  | @unicode u t s c hu _ ih =>
      intro fuel acc rest pos hfuel
      obtain ⟨fuel, rfl⟩ : ∃ k, fuel = k + 1 := ⟨fuel - 1, by omega⟩
      rw [List.length_cons, List.length_cons, List.length_append] at hfuel
      obtain ⟨pos1, hescape⟩ := parseUnicodeEscape_of_unicode hu (pos + 1 - 1)
        (t ++ '"' :: rest) (pos + 2)
      obtain ⟨pos', hread⟩ := ih fuel (c :: acc) rest pos1 (by omega)
      refine ⟨pos', ?_⟩
      simp only [Parser.parseStringLoop, Parser.bump, List.cons_append, List.append_assoc, if_false,
        if_true, show ('\\' : Char) ≠ '"' by decide, hescape, hread]
      simp

/-- A string that is read stands in the grammar. -/
theorem chars_of_parseStringLoop (fuel : Nat) : ∀ (acc : Str) (p p' : Parser) (read : Str),
    Parser.parseStringLoop fuel acc p = .ok (read, p') →
      ∃ t s, p.rest = t ++ '"' :: p'.rest ∧ Chars t s ∧ read = acc.reverse ++ s := by
  induction fuel with
  | zero =>
      intro acc p p' read h
      rw [Parser.parseStringLoop] at h
      cases h
  | succ fuel ih =>
      intro acc p p' read h
      -- one more character in front of what the rest of the loop reads
      have hstep (front : Str) {q : Parser} {c : Char} (hrest : p.rest = front ++ q.rest)
          (hchars : ∀ t s, Chars t s → Chars (front ++ t) (c :: s))
          (h : Parser.parseStringLoop fuel (c :: acc) q = .ok (read, p')) :
          ∃ t s, p.rest = t ++ '"' :: p'.rest ∧ Chars t s ∧ read = acc.reverse ++ s := by
        obtain ⟨t, s, ht, hs, hread⟩ := ih _ _ _ _ h
        refine ⟨front ++ t, c :: s, ?_, hchars t s hs, ?_⟩
        · rw [hrest, ht, List.append_assoc]
        · rw [hread, List.reverse_cons, List.append_assoc]
          rfl
      rw [Parser.parseStringLoop] at h
      split at h
      · cases h
      rename_i c q hbump
      have hrest := rest_of_bump hbump
      by_cases hquote : c = '"'
      · rw [if_pos hquote] at h
        cases h
        refine ⟨[], [], ?_, .nil, (List.append_nil _).symm⟩
        rw [hrest, hquote]
        rfl
      rw [if_neg hquote] at h
      by_cases hback : c = '\\'
      · rw [if_pos hback] at h
        dsimp only at h
        split at h
        · cases h
        rename_i e q' hbump'
        have hrest' := rest_of_bump hbump'
        rw [hback, hrest'] at hrest
        by_cases hu : e = 'u'
        · rw [if_pos hu] at h
          split at h
          · rename_i u q'' hescape
            obtain ⟨text, htext, hunicode⟩ := unicode_of_parseUnicodeEscape hescape
            refine hstep ('\\' :: 'u' :: text) ?_ (fun t s hs => .unicode hunicode hs) h
            rw [hrest, hu, htext]
            rfl
          · cases h
        · rw [if_neg hu] at h
          split at h
          · rename_i s hs
            exact hstep ['\\', e] hrest
              (fun t _ ht => .escape (simpleEscape_eq_some_iff.mp hs) ht) h
          · cases h
      · rw [if_neg hback] at h
        split at h
        · cases h
        · rename_i hcontrol
          exact hstep [c] hrest
            (fun t _ ht => .unescaped (Nat.not_lt.mp hcontrol) hquote hback ht) h

theorem parseString_of_quoted {q s : Str} (h : Quoted q s) (rest : Str) (pos : Nat) :
    ∃ pos', Parser.parseString ⟨q ++ rest, pos⟩ = .ok (s, ⟨rest, pos'⟩) := by
  cases h with
  | @mk t s hchars =>
      obtain ⟨pos', hread⟩ := parseStringLoop_of_chars hchars
        ('"' :: (t ++ ['"']) ++ rest).length [] rest (pos + 1) (by simp)
      refine ⟨pos', ?_⟩
      rw [Parser.parseString]
      simpa [Parser.advance] using hread

theorem quoted_of_parseString {p p' : Parser} {s : Str} (hpeek : p.peek = some '"')
    (h : Parser.parseString p = .ok (s, p')) : ∃ q, p.rest = q ++ p'.rest ∧ Quoted q s := by
  obtain ⟨t, s', ht, hs, rfl⟩ := chars_of_parseStringLoop _ _ _ _ _ h
  refine ⟨_, ?_, .mk hs⟩
  obtain ⟨rest, hrest⟩ := List.head?_eq_some_iff.mp hpeek
  rw [Parser.advance, hrest] at ht
  rw [hrest, show rest = t ++ '"' :: p'.rest from ht]
  simp

end GaussMatrix.Api.Grammar
