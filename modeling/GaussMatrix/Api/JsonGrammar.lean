import GaussMatrix.Api.JsonText
import GaussMatrix.Api.Redaction

/-!
# The grammar of JSON texts

The productions of RFC 8259 over strings of characters, with the value that each text denotes.  They
take the spelling of numbers as a parameter, as the reader is looser about it than the grammar is.
-/

namespace GaussMatrix.Api.Grammar

open Library Json

/-- `ws`: a run of space, tab, line feed and carriage return. -/
def Ws (s : Str) : Prop := ∀ c ∈ s, c = ' ' ∨ c = '\t' ∨ c = '\n' ∨ c = '\r'

/-- A run of decimal digits, which may be empty. -/
def Digits (s : Str) : Prop := ∀ c ∈ s, c.isDigit = true

/-! ## Numbers -/

/-- `exp`: nothing, or a letter, a sign or none, and digits; and its value. -/
inductive Exponent : Str → Int → Prop
  | absent : Exponent [] 0
  | bare {e : Char} {ds : Str} : e = 'e' ∨ e = 'E' → Digits ds → ds ≠ [] →
      Exponent (e :: ds) (Nat.ofDigitChars 10 ds 0)
  | plus {e : Char} {ds : Str} : e = 'e' ∨ e = 'E' → Digits ds → ds ≠ [] →
      Exponent (e :: '+' :: ds) (Nat.ofDigitChars 10 ds 0)
  | minus {e : Char} {ds : Str} : e = 'e' ∨ e = 'E' → Digits ds → ds ≠ [] →
      Exponent (e :: '-' :: ds) (-(Nat.ofDigitChars 10 ds 0 : Nat))

/-- The parts that a number is spelled in; the fraction is what follows the decimal point. -/
structure Spelling where
  neg : Bool
  whole : Str
  fraction : Option Str
  exponent : Str

namespace Spelling

def fractionText (n : Spelling) : Str := n.fraction.elim [] ('.' :: ·)

def text (n : Spelling) : Str :=
  (if n.neg then ['-'] else []) ++ (n.whole ++ (n.fractionText ++ n.exponent))

/-- The double nearest to the decimal; past the largest double, the infinity. -/
def value (n : Spelling) (exponent : Int) : F64 :=
  let fraction := n.fraction.getD []
  F64.ofDecimal n.neg (Nat.ofDigitChars 10 (n.whole ++ fraction) 0) (exponent - fraction.length)

/-- `int` has no leading zero, and a decimal point has digits on both of its sides. -/
structure Strict (n : Spelling) : Prop where
  whole : Digits n.whole
  nonempty : n.whole ≠ []
  leading : n.whole.head? = some '0' → n.whole = ['0']
  fraction : ∀ ds ∈ n.fraction, Digits ds ∧ ds ≠ []

/-- Digits before the decimal point or after it, however many zeros come first. -/
structure Loose (n : Spelling) : Prop where
  whole : Digits n.whole
  fraction : ∀ ds ∈ n.fraction, Digits ds
  nonempty : n.whole ++ n.fraction.getD [] ≠ []
  head : n.neg = true ∨ n.whole ≠ []

theorem Strict.loose {n : Spelling} (h : n.Strict) : n.Loose where
  whole := h.whole
  fraction ds hds := (h.fraction ds hds).1
  nonempty := List.append_ne_nil_of_left_ne_nil h.nonempty _
  head := .inr h.nonempty

end Spelling

/-- `number`, and the double that it denotes. -/
def Number (t : Str) (x : F64) : Prop :=
  ∃ (n : Spelling) (k : Int), n.Strict ∧ Exponent n.exponent k ∧ t = n.text ∧ x = n.value k

/-- A number as the reader takes it: leading zeros and a bare decimal point are let pass. -/
def LooseNumber (t : Str) (x : F64) : Prop :=
  ∃ (n : Spelling) (k : Int), n.Loose ∧ Exponent n.exponent k ∧ t = n.text ∧ x = n.value k

theorem Number.loose {t : Str} {x : F64} (h : Number t x) : LooseNumber t x := by
  obtain ⟨n, k, hn, hk, ht, hx⟩ := h
  exact ⟨n, k, hn.loose, hk, ht, hx⟩

/-! ## Strings -/

/-- The escapes of one letter, and what they stand for. -/
def escapes : List (Char × Char) :=
  [('"', '"'), ('\\', '\\'), ('/', '/'), ('b', Char.ofNat 0x08), ('f', Char.ofNat 0x0c),
    ('n', '\n'), ('r', '\r'), ('t', '\t')]

/-- `4HEXDIG`, and its value. -/
inductive Hex4 : Str → Nat → Prop
  | mk {a b c d : Char} {w x y z : Nat} : Parser.hexValue a = some w → Parser.hexValue b = some x →
      Parser.hexValue c = some y → Parser.hexValue d = some z →
      Hex4 [a, b, c, d] (((w * 16 + x) * 16 + y) * 16 + z)

/-- What follows `\u`, and the character it denotes: a surrogate comes with its other half. -/
inductive Unicode : Str → Char → Prop
  | single {h : Str} {n : Nat} : Hex4 h n → ¬ (0xD800 ≤ n ∧ n ≤ 0xDFFF) → Unicode h (Char.ofNat n)
  | pair {h l : Str} {high low : Nat} : Hex4 h high → Hex4 l low →
      0xD800 ≤ high ∧ high ≤ 0xDBFF → 0xDC00 ≤ low ∧ low ≤ 0xDFFF →
      Unicode (h ++ '\\' :: 'u' :: l)
        (Char.ofNat (0x10000 + (high - 0xD800) * 2 ^ 10 + (low - 0xDC00)))

/-- `*char`, and the characters that it denotes. -/
inductive Chars : Str → Str → Prop
  | nil : Chars [] []
  | unescaped {c : Char} {t s : Str} : 0x20 ≤ c.toNat → c ≠ '"' → c ≠ '\\' → Chars t s →
      Chars (c :: t) (c :: s)
  | escape {e c : Char} {t s : Str} : (e, c) ∈ escapes → Chars t s →
      Chars ('\\' :: e :: t) (c :: s)
  | unicode {u t s : Str} {c : Char} : Unicode u c → Chars t s →
      Chars ('\\' :: 'u' :: (u ++ t)) (c :: s)

/-- `string`. -/
inductive Quoted : Str → Str → Prop
  | mk {t s : Str} : Chars t s → Quoted ('"' :: (t ++ ['"'])) s

/-! ## Values -/

mutual

/-- `value`, with at most so many levels of values below it.  Of the members of an object with one
key the last counts. -/
inductive Value (Num : Str → F64 → Prop) : Nat → Str → Json → Prop
  | null {levels : Nat} : Value Num levels "null".toList .null
  | true {levels : Nat} : Value Num levels "true".toList (.bool true)
  | false {levels : Nat} : Value Num levels "false".toList (.bool false)
  | number {levels : Nat} {t : Str} {x : F64} : Num t x → Value Num levels t (.number x)
  | string {levels : Nat} {t s : Str} : Quoted t s → Value Num levels t (.string s)
  | emptyArray {levels : Nat} {a : Str} : Ws a → Value Num levels ('[' :: (a ++ [']'])) (.array [])
  | array {levels : Nat} {a t b : Str} {items : List Json} : Ws a → Items Num levels t items → Ws b →
      Value Num (levels + 1) ('[' :: (a ++ (t ++ (b ++ [']'])))) (.array items)
  | emptyObject {levels : Nat} {a : Str} : Ws a →
      Value Num levels ('\x7b' :: (a ++ ['\x7d'])) (.object [])
  | object {levels : Nat} {a t b : Str} {members : List (Str × Json)} : Ws a →
      Members Num levels t members → Ws b →
      Value Num (levels + 1) ('\x7b' :: (a ++ (t ++ (b ++ ['\x7d'])))) (.ofFields members)

/-- `value *( value-separator value )`. -/
inductive Items (Num : Str → F64 → Prop) : Nat → Str → List Json → Prop
  | last {levels : Nat} {t : Str} {v : Json} : Value Num levels t v → Items Num levels t [v]
  | more {levels : Nat} {t a b ts : Str} {v : Json} {items : List Json} : Value Num levels t v →
      Ws a → Ws b → Items Num levels ts items →
      Items Num levels (t ++ (a ++ ',' :: (b ++ ts))) (v :: items)

/-- `member *( value-separator member )`, where `member = string name-separator value`. -/
inductive Members (Num : Str → F64 → Prop) : Nat → Str → List (Str × Json) → Prop
  | last {levels : Nat} {q a b t k : Str} {v : Json} : Quoted q k → Ws a → Ws b →
      Value Num levels t v → Members Num levels (q ++ (a ++ ':' :: (b ++ t))) [(k, v)]
  | more {levels : Nat} {q a b t c d ts k : Str} {v : Json} {members : List (Str × Json)} :
      Quoted q k → Ws a → Ws b → Value Num levels t v → Ws c → Ws d →
      Members Num levels ts members →
      Members Num levels (q ++ (a ++ ':' :: (b ++ (t ++ (c ++ ',' :: (d ++ ts)))))) ((k, v) :: members)

end

/-- `JSON-text = ws value ws`, with nothing nested deeper below the root than the limit. -/
inductive Text (Num : Str → F64 → Prop) : Str → Json → Prop
  | mk {a t b : Str} {v : Json} : Ws a → Value Num maxDepth t v → Ws b → Text Num (a ++ (t ++ b)) v

/-! ## The number tokens of a text -/

/-- Where a scan for numbers stands. -/
inductive Scan
  | outside
  | inString
  | escaped
  | number (read : Str)

/-- The number tokens from a character that is in no number. -/
def scanOutside (scan : Scan → List Str) (c : Char) : List Str :=
  if c = '"' then scan .inString
  else if c = '-' ∨ c.isDigit then scan (.number [c])
  else scan .outside

/-- The number tokens of what is left to scan. -/
def scanTokens : Str → Scan → List Str
  | [], .number read => [read]
  | [], _ => []
  | c :: cs, .outside => scanOutside (scanTokens cs) c
  | c :: cs, .inString =>
      scanTokens cs (if c = '"' then .outside else if c = '\\' then .escaped else .inString)
  | _ :: cs, .escaped => scanTokens cs .inString
  | c :: cs, .number read =>
      if Parser.isNumberChar c then scanTokens cs (.number (read ++ [c]))
      else read :: scanOutside (scanTokens cs) c

/-- The maximal runs of number characters outside the strings of a text. -/
def numberTokens (s : Str) : List Str := scanTokens s .outside

example : numberTokens "[01, \"2\\\"3\", true, -.5e+1]".toList = ["01".toList, "-.5e+1".toList] := by
  decide

end GaussMatrix.Api.Grammar
