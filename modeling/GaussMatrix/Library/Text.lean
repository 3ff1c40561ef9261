import Mathlib

/-!
# Text as character lists

Strings are kept as their list of characters: concatenation, prefixes and the split at the first
separator are then list operations, and the order of `List Char` is the byte order of the UTF-8
encoding.
-/

namespace GaussMatrix.Library

/-- A string, as its characters. -/
abbrev Str := List Char

instance : Coe String Str := ⟨String.toList⟩

/-! ## Splitting at a separator -/

/-- Split at the first occurrence of `sep`, which is dropped. -/
def splitOnce (sep : Char) : Str → Option (Str × Str)
  | [] => none
  | c :: cs => if c = sep then some ([], cs) else (splitOnce sep cs).map (fun p => (c :: p.1, p.2))

theorem splitOnce_append {sep : Char} {a : Str} (h : sep ∉ a) (b : Str) :
    splitOnce sep (a ++ sep :: b) = some (a, b) := by
  induction a with
  | nil => simp [splitOnce]
  | cons c cs ih =>
      obtain ⟨hc, hcs⟩ := List.ne_and_not_mem_of_not_mem_cons h
      rw [List.cons_append, splitOnce, if_neg (Ne.symm hc), ih hcs]
      rfl

theorem splitOnce_eq_some {sep : Char} {s a b : Str} (h : splitOnce sep s = some (a, b)) :
    s = a ++ sep :: b ∧ sep ∉ a := by
  induction s generalizing a with
  | nil => simp [splitOnce] at h
  | cons c cs ih =>
      simp only [splitOnce] at h
      split at h
      · rename_i hc
        obtain ⟨rfl, rfl⟩ := Prod.mk.inj (Option.some.inj h)
        simp [hc]
      · rename_i hc
        obtain ⟨⟨a', b'⟩, hs, he⟩ := Option.map_eq_some_iff.mp h
        obtain ⟨rfl, rfl⟩ := Prod.mk.inj he
        obtain ⟨hcs, ha⟩ := ih hs
        exact ⟨by rw [hcs]; rfl, List.not_mem_cons_of_ne_of_not_mem (Ne.symm hc) ha⟩

/-- Two splits at a separator that neither head contains are the same split. -/
theorem append_sep_inj {sep : Char} {a a' b b' : Str} (ha : sep ∉ a) (ha' : sep ∉ a')
    (h : a ++ sep :: b = a' ++ sep :: b') : a = a' ∧ b = b' := by
  have hs := splitOnce_append ha b
  rw [h, splitOnce_append ha' b'] at hs
  exact ⟨(Prod.mk.inj (Option.some.inj hs)).1.symm, (Prod.mk.inj (Option.some.inj hs)).2.symm⟩

/-- The parts between separators have none. -/
theorem not_mem_of_mem_splitOn {sep : Char} {s part : Str} (h : part ∈ s.splitOn sep) :
    sep ∉ part := by
  induction s generalizing part with
  | nil =>
      rw [List.splitOn_nil, List.mem_singleton] at h
      rw [h]
      exact List.not_mem_nil
  | cons c cs ih =>
      rw [List.splitOn_cons_eq_if_modifyHead] at h
      split at h
      · rcases List.mem_cons.mp h with rfl | h
        · exact List.not_mem_nil
        · exact ih h
      · rename_i hc
        cases hparts : cs.splitOn sep with
        | nil => exact absurd hparts (List.splitOn_ne_nil sep cs)
        | cons first parts =>
            rw [hparts, List.modifyHead_cons] at h
            rcases List.mem_cons.mp h with rfl | h
            · have hne : sep ≠ c := fun heq => hc (by simp [heq])
              have hfirst : sep ∉ first := ih (hparts ▸ List.mem_cons_self)
              exact List.not_mem_cons_of_ne_of_not_mem hne hfirst
            · exact ih (hparts ▸ List.mem_cons_of_mem _ h)

/-! ## Prefixes -/

/-- What follows `pfx` at the front of a string. -/
def stripPrefix : Str → Str → Option Str
  | [], s => some s
  | _ :: _, [] => none
  | p :: ps, c :: cs => if p = c then stripPrefix ps cs else none

theorem stripPrefix_eq_some_iff {pfx s r : Str} : stripPrefix pfx s = some r ↔ s = pfx ++ r := by
  induction pfx generalizing s with
  | nil => simp [stripPrefix]
  | cons p ps ih =>
      cases s with
      | nil => simp [stripPrefix]
      | cons c cs =>
          simp only [stripPrefix, List.cons_append, List.cons.injEq]
          split
          · rename_i h
            rw [ih]
            simp [h]
          · rename_i h
            simp [Ne.symm h]

@[simp] theorem stripPrefix_append (pfx r : Str) : stripPrefix pfx (pfx ++ r) = some r :=
  stripPrefix_eq_some_iff.mpr rfl

/-- Whether `pfx` stands at the front of a string. -/
def startsWith (pfx s : Str) : Bool := (stripPrefix pfx s).isSome

theorem startsWith_iff {pfx s : Str} : startsWith pfx s = true ↔ ∃ r, s = pfx ++ r := by
  rw [startsWith, Option.isSome_iff_exists]
  simp only [stripPrefix_eq_some_iff]

theorem startsWith_iff_isPrefix {pfx s : Str} : startsWith pfx s = true ↔ pfx <+: s := by
  rw [startsWith_iff]
  constructor
  · rintro ⟨r, rfl⟩
    exact List.prefix_append pfx r
  · rintro ⟨r, rfl⟩
    exact ⟨r, rfl⟩

/-- A separator-terminated prefix of a string whose own head has no separator fixes that head. -/
theorem startsWith_sep_iff {sep : Char} {a a' b : Str} (ha : sep ∉ a) (ha' : sep ∉ a') :
    startsWith (a ++ [sep]) (a' ++ sep :: b) = true ↔ a = a' := by
  rw [startsWith_iff]
  constructor
  · rintro ⟨r, h⟩
    rw [List.append_assoc] at h
    exact (append_sep_inj ha' ha h).1.symm
  · rintro rfl
    exact ⟨b, by simp⟩

/-- A run of characters is taken up to the first character that is none of them. -/
theorem span_append {p : Char → Bool} {s rest : Str} (hs : ∀ c ∈ s, p c = true)
    (hrest : ∀ c ∈ rest.head?, p c = false) :
    (s ++ rest).takeWhile p = s ∧ (s ++ rest).dropWhile p = rest := by
  have hnone : rest.takeWhile p = [] ∧ rest.dropWhile p = rest := by
    cases rest with
    | nil => exact ⟨rfl, rfl⟩
    | cons c cs =>
        have hc : p c = false := hrest c rfl
        simp [hc]
  rw [List.takeWhile_append_of_pos hs, List.dropWhile_append_of_pos hs, hnone.1, hnone.2,
    List.append_nil]
  exact ⟨rfl, rfl⟩

/-! ## White space -/

/-- The characters with Unicode's `White_Space` property. -/
def isWhiteSpace (c : Char) : Bool :=
  let n := c.toNat
  (9 ≤ n && n ≤ 13) || n = 0x20 || n = 0x85 || n = 0xa0 || n = 0x1680 ||
    (0x2000 ≤ n && n ≤ 0x200a) || n = 0x2028 || n = 0x2029 || n = 0x202f || n = 0x205f || n = 0x3000

def trimStart (s : Str) : Str := s.dropWhile isWhiteSpace

def trimEnd (s : Str) : Str := s.rdropWhile isWhiteSpace

def trim (s : Str) : Str := trimEnd (trimStart s)

/-- Neither end of the text is white space. -/
def Trimmed (s : Str) : Prop :=
  (∀ c ∈ s.head?, isWhiteSpace c = false) ∧ ∀ c ∈ s.getLast?, isWhiteSpace c = false

theorem trimEnd_eq_self {s : Str} (h : ∀ c ∈ s.getLast?, isWhiteSpace c = false) :
    trimEnd s = s := by
  rcases List.eq_nil_or_concat s with rfl | ⟨init, last, rfl⟩
  · rfl
  · rw [List.concat_eq_append] at h ⊢
    have hlast : ¬ isWhiteSpace last = true := by
      rw [h last List.getLast?_concat]
      exact Bool.false_ne_true
    rw [trimEnd, List.rdropWhile_concat_neg _ _ _ hlast]

theorem Trimmed.trim {s : Str} (h : Trimmed s) : trim s = s := by
  have hstart : trimStart s = s := by
    cases s with
    | nil => rfl
    | cons c cs =>
        have hc : ¬ isWhiteSpace c = true := by
          rw [h.1 c rfl]
          exact Bool.false_ne_true
        exact List.dropWhile_cons_of_neg hc
  rw [Library.trim, hstart, trimEnd_eq_self h.2]

/-! ## Decimal numbers -/

/-- A number in decimal. -/
def decimal (n : Nat) : Str := Nat.toDigits 10 n

theorem isDigit_of_mem_decimal {n : Nat} {c : Char} (h : c ∈ decimal n) : c.isDigit = true :=
  Nat.isDigit_of_mem_toDigits (by decide) (by decide) h

theorem decimal_ne_nil (n : Nat) : decimal n ≠ [] := Nat.toDigits_ne_nil

theorem ofDigitChars_decimal (n : Nat) : Nat.ofDigitChars 10 (decimal n) 0 = n :=
  Nat.ofDigitChars_ten_toDigits

/-- A number in decimal, padded on the left with zeros to `width` characters. -/
def padDecimal (width n : Nat) : Str :=
  List.replicate (width - (decimal n).length) '0' ++ decimal n

/-- The number a non-empty string of decimal digits spells. -/
def parseDecimal (s : Str) : Option Nat :=
  if s ≠ [] ∧ s.all Char.isDigit then some (Nat.ofDigitChars 10 s 0) else none

theorem isDigit_of_mem_padDecimal {width n : Nat} {c : Char} (h : c ∈ padDecimal width n) :
    c.isDigit = true := by
  rcases List.mem_append.mp h with h | h
  · rw [List.eq_of_mem_replicate h]
    rfl
  · exact Nat.isDigit_of_mem_toDigits (by decide) (by decide) h

theorem ofDigitChars_padDecimal (width n : Nat) :
    Nat.ofDigitChars 10 (padDecimal width n) 0 = n := by
  rw [padDecimal, Nat.ofDigitChars_append, Nat.ofDigitChars_replicate_zero, Nat.mul_zero]
  exact Nat.ofDigitChars_ten_toDigits

theorem padDecimal_injective (width : Nat) : Function.Injective (padDecimal width) := by
  intro n m h
  rw [← ofDigitChars_padDecimal width n, h, ofDigitChars_padDecimal]

theorem parseDecimal_padDecimal (width n : Nat) :
    parseDecimal (padDecimal width n) = some n := by
  have hne : padDecimal width n ≠ [] := by
    rw [padDecimal]
    exact List.append_ne_nil_of_right_ne_nil _ Nat.toDigits_ne_nil
  have hall : (padDecimal width n).all Char.isDigit = true := by
    rw [List.all_eq_true]
    exact fun c hc => isDigit_of_mem_padDecimal hc
  rw [parseDecimal, if_pos ⟨hne, hall⟩, ofDigitChars_padDecimal]

example : parseDecimal (padDecimal 4 17) = some 17 := by decide +kernel

/-- A `u64` (and a `usize`) as `str::parse` reads it: digits after an optional plus sign. -/
def parseU64 (s : Str) : Option Nat :=
  let digits := match s with
    | '+' :: cs => cs
    | cs => cs
  (parseDecimal digits).filter (· < 2 ^ 64)

theorem parseU64_decimal {n : Nat} (h : n < 2 ^ 64) : parseU64 (decimal n) = some n := by
  have hpad : padDecimal 0 n = decimal n := by simp [padDecimal]
  have hparse : parseDecimal (decimal n) = some n := by
    rw [← hpad, parseDecimal_padDecimal]
  have hplus : ∀ cs, decimal n ≠ '+' :: cs := by
    intro cs hcs
    have hmem : '+' ∈ padDecimal 0 n := by
      rw [hpad, hcs]
      exact List.mem_cons_self
    exact absurd (isDigit_of_mem_padDecimal hmem) (by decide)
  rw [parseU64]
  · rw [hparse, Option.filter_some, if_pos (decide_eq_true h)]
  · exact hplus

/-! ## Hexadecimal numbers -/

def hexValue (c : Char) : Nat := if c.isDigit then c.toNat - 48 else c.toNat - 87

/-- The number that hexadecimal digits spell. -/
def ofHexChars (s : Str) : Nat := s.foldl (fun v c => 16 * v + hexValue c) 0

theorem hexValue_digitChar : ∀ n < 16, hexValue (Nat.digitChar n) = n := by
  decide

theorem ofHexChars_concat (s : Str) (c : Char) :
    ofHexChars (s ++ [c]) = 16 * ofHexChars s + hexValue c := by
  rw [ofHexChars, List.foldl_append]
  rfl

theorem ofHexChars_toDigits (n : Nat) : ofHexChars (Nat.toDigits 16 n) = n := by
  induction n using Nat.strong_induction_on with
  | h n ih =>
      rw [Nat.toDigits_eq_if (by decide)]
      split
      · rename_i hlt
        show 16 * 0 + hexValue (Nat.digitChar n) = n
        rw [hexValue_digitChar n hlt]
        omega
      · rename_i hge
        have hrest := ih (n / 16) (by omega)
        have hlast := hexValue_digitChar (n % 16) (by omega)
        rw [ofHexChars_concat, hrest, hlast]
        omega

theorem ofHexChars_replicate_zero (k : Nat) (s : Str) :
    ofHexChars (List.replicate k '0' ++ s) = ofHexChars s := by
  induction k with
  | zero => rfl
  | succ k ih =>
      rw [← ih, List.replicate_succ, List.cons_append, ofHexChars, List.foldl_cons, ofHexChars]
      rfl

/-! ## The order of padded numbers -/

theorem digit_bounds {c : Char} (h : c.isDigit = true) :
    '0'.toNat ≤ c.toNat ∧ c.toNat < '0'.toNat + 10 := by
  have hc : '0'.toNat ≤ c.toNat ∧ c.toNat ≤ '9'.toNat := by
    simpa [Char.isDigit, Char.le_def, UInt32.le_iff_toNat_le] using h
  have h9 : '9'.toNat = '0'.toNat + 9 := by decide
  omega

/-- The value of a digit. -/
def digitValue (c : Char) : Nat := c.toNat - '0'.toNat

theorem digit_lt_iff {c : Char} (hc : c.isDigit = true) (d : Char) :
    c < d ↔ digitValue c < digitValue d := by
  have hbounds := digit_bounds hc
  have hlt : c < d ↔ c.toNat < d.toNat := by
    rw [Char.lt_def, UInt32.lt_iff_toNat_lt]
    rfl
  rw [hlt, digitValue, digitValue]
  omega

theorem digitValue_inj {c d : Char} (hc : c.isDigit = true) (hd : d.isDigit = true) :
    digitValue c = digitValue d ↔ c = d := by
  constructor
  · intro h
    refine le_antisymm (not_lt.mp fun hlt => ?_) (not_lt.mp fun hlt => ?_)
    · rw [digit_lt_iff hd] at hlt
      omega
    · rw [digit_lt_iff hc] at hlt
      omega
  · rintro rfl
    rfl

theorem ofDigitChars_cons_zero (c : Char) (cs : Str) :
    Nat.ofDigitChars 10 (c :: cs) 0 =
      10 ^ cs.length * digitValue c + Nat.ofDigitChars 10 cs 0 := by
  rw [Nat.ofDigitChars_cons, Nat.ofDigitChars_eq_ofDigitChars_zero, Nat.mul_zero, Nat.zero_add]
  rfl

/-- Below a place value, the leading digit decides. -/
theorem leading_lt_iff {w a b x y : Nat} (hx : x < w) (hy : y < w) :
    w * a + x < w * b + y ↔ a < b ∨ a = b ∧ x < y := by
  rcases Nat.lt_trichotomy a b with h | rfl | h
  · have hle : w * (a + 1) ≤ w * b := Nat.mul_le_mul_left w h
    rw [Nat.mul_succ] at hle
    omega
  · omega
  · have hle : w * (b + 1) ≤ w * a := Nat.mul_le_mul_left w h
    rw [Nat.mul_succ] at hle
    omega

theorem ofDigitChars_lt_pow {s : Str} (h : ∀ c ∈ s, c.isDigit = true) :
    Nat.ofDigitChars 10 s 0 < 10 ^ s.length := by
  induction s with
  | nil => simp
  | cons c cs ih =>
      obtain ⟨hc, hcs⟩ := List.forall_mem_cons.mp h
      have hvalue : digitValue c < 10 := by
        have hbounds := digit_bounds hc
        rw [digitValue]
        omega
      have hrest := ih hcs
      have hstep : 10 ^ cs.length * (digitValue c + 1) ≤ 10 ^ cs.length * 10 :=
        Nat.mul_le_mul_left _ hvalue
      rw [Nat.mul_succ] at hstep
      rw [ofDigitChars_cons_zero, List.length_cons, Nat.pow_succ]
      omega

/-- Digit strings of one length are ordered as the numbers they spell. -/
theorem digits_lt_iff {s t : Str} (hs : ∀ c ∈ s, c.isDigit = true)
    (ht : ∀ c ∈ t, c.isDigit = true) (hlen : s.length = t.length) :
    s < t ↔ Nat.ofDigitChars 10 s 0 < Nat.ofDigitChars 10 t 0 := by
  induction s generalizing t with
  | nil =>
      obtain rfl := List.length_eq_zero_iff.mp hlen.symm
      simp
  | cons c cs ih =>
      cases t with
      | nil => simp at hlen
      | cons d ds =>
          obtain ⟨hc, hcs⟩ := List.forall_mem_cons.mp hs
          obtain ⟨hd, hds⟩ := List.forall_mem_cons.mp ht
          have hlen : cs.length = ds.length := by simpa using hlen
          have hcsLt := ofDigitChars_lt_pow hcs
          have hdsLt := ofDigitChars_lt_pow hds
          rw [hlen] at hcsLt
          rw [List.cons_lt_cons_iff, digit_lt_iff hc, ih hcs hds hlen, ofDigitChars_cons_zero,
            ofDigitChars_cons_zero, hlen, leading_lt_iff hcsLt hdsLt, digitValue_inj hc hd]

theorem length_padDecimal {width n : Nat} (hw : 0 < width) (h : n < 10 ^ width) :
    (padDecimal width n).length = width := by
  have hle : (decimal n).length ≤ width := (Nat.length_toDigits_le_iff (by omega) hw).mpr h
  rw [padDecimal, List.length_append, List.length_replicate]
  omega

/-- Padded numbers that fit are ordered as their numbers. -/
theorem padDecimal_lt_iff {width n m : Nat} (hw : 0 < width) (hn : n < 10 ^ width)
    (hm : m < 10 ^ width) : padDecimal width n < padDecimal width m ↔ n < m := by
  rw [digits_lt_iff (fun _ h => isDigit_of_mem_padDecimal h)
    (fun _ h => isDigit_of_mem_padDecimal h)
    ((length_padDecimal hw hn).trans (length_padDecimal hw hm).symm),
    ofDigitChars_padDecimal, ofDigitChars_padDecimal]

/-- Of two strings of one length the smaller stays the smaller whatever follows. -/
theorem append_lt_append_of_lt {α : Type} [LinearOrder α] {s t : List α}
    (hlen : s.length = t.length) (h : s < t) (u v : List α) : s ++ u < t ++ v := by
  induction s generalizing t with
  | nil =>
      obtain rfl := List.length_eq_zero_iff.mp hlen.symm
      exact absurd h (lt_irrefl _)
  | cons c cs ih =>
      cases t with
      | nil => simp at hlen
      | cons d ds =>
          have hrest : cs.length = ds.length := by simpa using hlen
          rw [List.cons_append, List.cons_append, List.cons_lt_cons_iff]
          rcases List.cons_lt_cons_iff.mp h with hhead | ⟨heq, htail⟩
          · exact .inl hhead
          · exact .inr ⟨heq, ih hrest htail⟩

end GaussMatrix.Library
