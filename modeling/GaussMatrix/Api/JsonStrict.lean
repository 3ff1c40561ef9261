import GaussMatrix.Api.JsonAccepts

/-!
# Where the reader is looser than the grammar

A scan over a text finds its numbers.  The reader keeps to the grammar on exactly the texts whose
numbers are all spelled as the grammar has them.
-/

namespace GaussMatrix.Api

open Library Json Grammar

namespace Grammar

/-! ## The scan, piece by piece -/

/-- The scan finds these tokens in a piece of text and goes on behind it. -/
def Scans (t : Str) (tokens : List Str) : Prop :=
  ∀ rest, Stops rest → scanTokens (t ++ rest) .outside = tokens ++ scanTokens rest .outside

/-- A character that starts neither a string nor a number. -/
def Plain (c : Char) : Prop := c ≠ '"' ∧ ¬ (c = '-' ∨ c.isDigit = true)

theorem scan_plain {c : Char} (h : Plain c) (cs : Str) :
    scanTokens (c :: cs) .outside = scanTokens cs .outside := by
  rw [scanTokens, scanOutside, if_neg h.1, if_neg h.2]

theorem scan_ws {a : Str} (h : Ws a) (cs : Str) :
    scanTokens (a ++ cs) .outside = scanTokens cs .outside := by
  induction a with
  | nil => rfl
  | cons c a ih =>
      obtain ⟨hc, ha⟩ := List.forall_mem_cons.mp h
      have hplain : Plain c := by
        rcases hc with rfl | rfl | rfl | rfl <;> exact ⟨by decide, by decide⟩
      rw [List.cons_append, scan_plain hplain, ih ha]

theorem scan_number {cs rest : Str} (h : ∀ c ∈ cs, Parser.isNumberChar c = true)
    (hrest : Stops rest) (read : Str) : scanTokens (cs ++ rest) (.number read) =
      (read ++ cs) :: scanTokens rest .outside := by
  induction cs generalizing read with
  | nil =>
      rw [List.append_nil, List.nil_append]
      cases rest with
      | nil => rfl
      | cons c cs =>
          have hc : Parser.isNumberChar c = false := hrest c rfl
          simp [scanTokens, hc]
  | cons c cs ih =>
      obtain ⟨hc, hcs⟩ := List.forall_mem_cons.mp h
      rw [List.cons_append, scanTokens, if_pos hc, ih hcs, List.append_assoc]
      rfl

theorem scans_number {t : Str} {x : F64} (h : LooseNumber t x) : Scans t [t] := by
  intro rest hrest
  obtain ⟨-, c, cs, rfl, hc⟩ := looseNumber_iff.mp h
  obtain ⟨-, hcs⟩ := List.forall_mem_cons.mp (isNumberChar_of_loose h)
  have hquote : c ≠ '"' := by
    rintro rfl
    rcases hc with hc | hc <;> cases hc
  rw [List.cons_append, scanTokens, scanOutside, if_neg hquote, if_pos hc, scan_number hcs hrest]
  rfl

theorem scan_hex4 {h : Str} {n : Nat} (hex : Hex4 h n) (cs : Str) :
    scanTokens (h ++ cs) .inString = scanTokens cs .inString := by
  have hplain {c : Char} {d : Nat} (hc : Parser.hexValue c = some d) : c ≠ '"' ∧ c ≠ '\\' := by
    constructor <;>
    · rintro rfl
      cases hc
  have hstep {c : Char} (hc : c ≠ '"' ∧ c ≠ '\\') (cs : Str) :
      scanTokens (c :: cs) .inString = scanTokens cs .inString := by
    rw [scanTokens, if_neg hc.1, if_neg hc.2]
  cases hex with
  | mk ha hb hc hd =>
      show scanTokens (_ :: _ :: _ :: _ :: cs) .inString = _
      rw [hstep (hplain ha), hstep (hplain hb), hstep (hplain hc), hstep (hplain hd)]

theorem scan_unicode {u : Str} {c : Char} (h : Unicode u c) (cs : Str) :
    scanTokens (u ++ cs) .inString = scanTokens cs .inString := by
  cases h with
  | single hex => exact scan_hex4 hex cs
  | pair hhex hlex =>
      rw [List.append_assoc, scan_hex4 hhex]
      exact scan_hex4 hlex cs

theorem scan_chars {t s : Str} (h : Chars t s) (rest : Str) :
    scanTokens (t ++ '"' :: rest) .inString = scanTokens rest .outside := by
  induction h with
  | nil => rfl
  | unescaped _ hquote hback _ ih =>
      rw [List.cons_append, scanTokens, if_neg hquote, if_neg hback, ih]
  | escape _ _ ih => exact ih
  | @unicode u t _ _ hu _ ih =>
      rw [List.cons_append, List.cons_append, List.append_assoc]
      exact (scan_unicode hu _).trans ih

theorem scan_quoted {q s : Str} (h : Quoted q s) (rest : Str) :
    scanTokens (q ++ rest) .outside = scanTokens rest .outside := by
  cases h with
  | mk hchars =>
      rw [List.cons_append, List.append_assoc]
      exact scan_chars hchars rest

/-- A separator with white space around it, behind a piece. -/
theorem scan_separator {t a b : Str} {tokens : List Str} {c : Char} (h : Scans t tokens) (ha : Ws a)
    (hc : Plain c) (hstop : Parser.isNumberChar c = false) (hb : Ws b) (cs : Str) :
    scanTokens (t ++ (a ++ c :: (b ++ cs))) .outside = tokens ++ scanTokens cs .outside := by
  rw [h _ (stops_ws_append ha (stops_cons hstop _)), scan_ws ha, scan_plain hc, scan_ws hb]

theorem scan_key {q a b k : Str} (hq : Quoted q k) (ha : Ws a) (hb : Ws b) (cs : Str) :
    scanTokens (q ++ (a ++ ':' :: (b ++ cs))) .outside = scanTokens cs .outside := by
  rw [scan_quoted hq, scan_ws ha, scan_plain ⟨by decide, by decide⟩, scan_ws hb]

/-- A piece between brackets. -/
theorem scans_enclosed {t a b : Str} {tokens : List Str} {o c : Char} (h : Scans t tokens)
    (ha : Ws a) (hb : Ws b) (ho : Plain o) (hc : Plain c) (hstop : Parser.isNumberChar c = false) :
    Scans (o :: (a ++ (t ++ (b ++ [c])))) tokens := by
  intro rest hrest
  have htext : o :: (a ++ (t ++ (b ++ [c]))) ++ rest =
      o :: (a ++ (t ++ (b ++ c :: ([] ++ rest)))) := by simp
  rw [htext, scan_plain ho, scan_ws ha, scan_separator h hb hc hstop ws_nil]

theorem scans_empty {a : Str} {o c : Char} (ha : Ws a) (ho : Plain o) (hc : Plain c)
    (hstop : Parser.isNumberChar c = false) : Scans (o :: (a ++ [c])) [] :=
  scans_enclosed (t := []) (fun _ _ => rfl) ha ws_nil ho hc hstop

/-! ## The tokens of a derivation -/

/-- The scan finds tokens in a text that are numbers, and with them spelled otherwise in place the
derivation stands. -/
def Tokens (Num : Str → F64 → Prop) (t : Str) (derives : (Str → F64 → Prop) → Prop) : Prop :=
  ∃ tokens, Scans t tokens ∧ (∀ tok ∈ tokens, ∃ x, Num tok x) ∧
    ∀ Num', (∀ tok ∈ tokens, ∀ x, Num tok x → Num' tok x) → derives Num'

theorem Tokens.of_none {Num : Str → F64 → Prop} {t : Str} {derives : (Str → F64 → Prop) → Prop}
    (hscan : Scans t []) (h : ∀ Num', derives Num') : Tokens Num t derives :=
  ⟨[], hscan, fun _ hmem => absurd hmem List.not_mem_nil, fun Num' _ => h Num'⟩

/-- Two pieces, one behind the other. -/
theorem Tokens.append {Num : Str → F64 → Prop} {t u w : Str}
    {derives derives' derives'' : (Str → F64 → Prop) → Prop} (ht : Tokens Num t derives)
    (hu : Tokens Num u derives')
    (hscan : ∀ tokens tokens', Scans t tokens → Scans u tokens' → Scans w (tokens ++ tokens'))
    (h : ∀ Num', derives Num' → derives' Num' → derives'' Num') : Tokens Num w derives'' := by
  obtain ⟨tokens, hscan1, hnum1, hreplace1⟩ := ht
  obtain ⟨tokens', hscan2, hnum2, hreplace2⟩ := hu
  refine ⟨tokens ++ tokens', hscan tokens tokens' hscan1 hscan2,
    List.forall_mem_append.mpr ⟨hnum1, hnum2⟩, fun Num' hrep => ?_⟩
  obtain ⟨hleft, hright⟩ := List.forall_mem_append.mp hrep
  exact h Num' (hreplace1 Num' hleft) (hreplace2 Num' hright)

/-- One piece within others that have no tokens. -/
theorem Tokens.within {Num : Str → F64 → Prop} {t w : Str}
    {derives derives' : (Str → F64 → Prop) → Prop} (ht : Tokens Num t derives)
    (hscan : ∀ tokens, Scans t tokens → Scans w tokens)
    (h : ∀ Num', derives Num' → derives' Num') : Tokens Num w derives' := by
  obtain ⟨tokens, hscan1, hnum, hreplace⟩ := ht
  exact ⟨tokens, hscan tokens hscan1, hnum, fun Num' hrep => h Num' (hreplace Num' hrep)⟩

section

variable {Num : Str → F64 → Prop}

mutual

theorem tokens_of_value (hloose : ∀ t x, Num t x → LooseNumber t x) {levels : Nat} {t : Str}
    {v : Json} : Value Num levels t v → Tokens Num t fun Num => Value Num levels t v
  | .null => .of_none (fun _ _ => rfl) fun _ => .null
  | .true => .of_none (fun _ _ => rfl) fun _ => .true
  | .false => .of_none (fun _ _ => rfl) fun _ => .false
  | .number (x := x) hnum => by
      refine ⟨[t], scans_number (hloose _ _ hnum), fun tok htok => ?_, fun Num' h => ?_⟩
      · rw [List.mem_singleton.mp htok]
        exact ⟨x, hnum⟩
      · exact .number (h t List.mem_cons_self x hnum)
  | .string hs => .of_none (fun rest _ => scan_quoted hs rest) fun _ => .string hs
  | .emptyArray ha =>
      .of_none (scans_empty ha ⟨by decide, by decide⟩ ⟨by decide, by decide⟩ rfl) fun _ =>
        .emptyArray ha
  | .array ha hitems hb =>
      (tokens_of_items hloose hitems).within
        (fun _ h => scans_enclosed h ha hb ⟨by decide, by decide⟩ ⟨by decide, by decide⟩ rfl)
        fun _ h => .array ha h hb
  | .emptyObject ha =>
      .of_none (scans_empty ha ⟨by decide, by decide⟩ ⟨by decide, by decide⟩ rfl) fun _ =>
        .emptyObject ha
  | .object ha hmembers hb =>
      (tokens_of_members hloose hmembers).within
        (fun _ h => scans_enclosed h ha hb ⟨by decide, by decide⟩ ⟨by decide, by decide⟩ rfl)
        fun _ h => .object ha h hb

theorem tokens_of_items (hloose : ∀ t x, Num t x → LooseNumber t x) {levels : Nat} {t : Str}
    {items : List Json} :
    Items Num levels t items → Tokens Num t fun Num => Items Num levels t items
  | .last hv => (tokens_of_value hloose hv).within (fun _ h => h) fun _ h => .last h
  | .more hv ha hb hitems => by
      refine (tokens_of_value hloose hv).append (tokens_of_items hloose hitems)
        (fun tokens tokens' h h' => ?_)
        fun _ h h' => .more h ha hb h'
      intro rest hrest
      rw [List.append_assoc, List.append_assoc, List.cons_append, List.append_assoc,
        scan_separator h ha ⟨by decide, by decide⟩ rfl hb, h' rest hrest, List.append_assoc]

theorem tokens_of_members (hloose : ∀ t x, Num t x → LooseNumber t x) {levels : Nat} {t : Str}
    {members : List (Str × Json)} :
    Members Num levels t members → Tokens Num t fun Num => Members Num levels t members
  | .last hs ha hb hv => by
      refine (tokens_of_value hloose hv).within (fun tokens h => ?_) fun _ h => .last hs ha hb h
      intro rest hrest
      rw [List.append_assoc, List.append_assoc, List.cons_append, List.append_assoc,
        scan_key hs ha hb, h rest hrest]
  | .more hs ha hb hv hc hd hmembers => by
      refine (tokens_of_value hloose hv).append (tokens_of_members hloose hmembers)
        (fun tokens tokens' h h' => ?_)
        fun _ h h' => .more hs ha hb h hc hd h'
      intro rest hrest
      rw [List.append_assoc, List.append_assoc, List.cons_append, List.append_assoc,
        scan_key hs ha hb, List.append_assoc, List.append_assoc, List.cons_append,
        List.append_assoc, scan_separator h hc ⟨by decide, by decide⟩ rfl hd, h' rest hrest,
        List.append_assoc]

end

/-- The tokens that the scan finds in a text are its numbers. -/
theorem numbers_of_text (hloose : ∀ t x, Num t x → LooseNumber t x) {s : Str} {v : Json}
    (h : Text Num s v) :
    (∀ tok ∈ numberTokens s, ∃ x, Num tok x) ∧
      ∀ Num', (∀ tok ∈ numberTokens s, ∀ x, Num tok x → Num' tok x) → Text Num' s v := by
  obtain ⟨ha, hv, hb⟩ := h
  rename_i a t b
  obtain ⟨tokens, hscan, hnum, hreplace⟩ := tokens_of_value hloose hv
  have htokens : numberTokens (a ++ (t ++ b)) = tokens := by
    have hscanned := scan_ws hb []
    rw [List.append_nil] at hscanned
    have hstops : Stops b := by
      have h := stops_ws_append hb stops_nil
      rwa [List.append_nil] at h
    rw [numberTokens, scan_ws ha, hscan b hstops, hscanned]
    exact List.append_nil tokens
  rw [htokens]
  exact ⟨hnum, fun Num' hrep => .mk ha (hreplace Num' hrep) hb⟩

end

/-- A zero with more digits behind it. -/
theorem not_number_leading_zero {c : Char} {cs : Str} {x : F64} (hc : c.isDigit = true) :
    ¬ Number ('0' :: c :: cs) x := by
  rintro ⟨⟨neg, whole, fraction, exponent⟩, k, hn, hk, htext, -⟩
  cases neg with
  | true => cases htext
  | false =>
      obtain ⟨d, ds, rfl⟩ := List.exists_cons_of_ne_nil hn.nonempty
      obtain ⟨hd, hrest⟩ := List.cons.inj htext
      obtain ⟨-, hds⟩ := List.cons.inj (hn.leading (congrArg some hd.symm))
      obtain rfl : ds = [] := hds
      have hbehind :
          c :: cs = Spelling.fractionText ⟨false, [d], fraction, exponent⟩ ++ exponent := hrest
      -- What follows the zero begins a fraction or an exponent, never with a digit.
      cases fraction with
      | some fs =>
          rw [(List.cons.inj hbehind).1] at hc
          cases hc
      | none =>
          have hexp : exponent = c :: cs := hbehind.symm
          obtain ⟨hletter, -⟩ := head_exponent hk c (by rw [hexp]; rfl)
          rw [hletter] at hc
          cases hc

end Grammar

/-! ## The reader against the grammar -/

/-- The reader takes a text exactly when the grammar has it, with the value it denotes, unless the
text has a number that is spelled otherwise and nothing else is wrong with it. -/
theorem Json.parse_accepts_iff (s : Str) :
    (∀ v, Json.parse s = .ok v ↔ Text Number s v) ↔
      ((∃ v, Text LooseNumber s v) → ∀ tok ∈ numberTokens s, ∃ x, Number tok x) := by
  constructor
  · rintro h ⟨v, hv⟩
    have hstrict := (h v).mp (Json.parse_eq_ok_iff.mpr hv)
    exact (numbers_of_text (fun _ _ => Number.loose) hstrict).1
  · intro h v
    rw [Json.parse_eq_ok_iff]
    constructor
    · intro hv
      refine (numbers_of_text (fun _ _ h => h) hv).2 Number fun tok htok x hx => ?_
      obtain ⟨y, hy⟩ := h ⟨v, hv⟩ tok htok
      rwa [hx.unique hy.loose]
    · intro hv
      exact (numbers_of_text (fun _ _ => Number.loose) hv).2 LooseNumber fun _ _ _ => Number.loose

/-- A leading zero is let pass. -/
theorem Json.parse_accepts_leading_zero :
    ¬ ∀ v, Json.parse "01".toList = .ok v ↔ Text Number "01".toList v := by
  intro h
  let n : Spelling := ⟨false, ['0', '1'], none, []⟩
  have hloose : n.Loose :=
    { whole := fun c hc => by rcases List.mem_pair.mp hc with rfl | rfl <;> rfl
      fraction := fun _ hds => by cases hds
      nonempty := List.cons_ne_nil _ _
      head := .inr (List.cons_ne_nil _ _) }
  have hnumber : LooseNumber "01".toList (n.value 0) := ⟨n, 0, hloose, .absent, rfl, rfl⟩
  have hstrict := (h _).mp (Json.parse_eq_ok_iff.mpr (.mk ws_nil (.number hnumber) ws_nil))
  obtain ⟨x, hx⟩ :=
    (numbers_of_text (fun _ _ => Number.loose) hstrict).1 "01".toList (by decide)
  exact not_number_leading_zero (by decide) hx

end GaussMatrix.Api
