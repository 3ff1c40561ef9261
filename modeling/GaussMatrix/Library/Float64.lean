import GaussMatrix.Library.Text

/-!
# Double-precision numbers, exactly

A finite double is a sign and a whole number of units of `2 ^ -1074`, the least positive double.
Every finite double is such a multiple, so reading a decimal, rounding and printing are exact
arithmetic on natural numbers.
-/

namespace GaussMatrix.Library

namespace F64

/-- How many units make one. -/
def unitsPerOne : Nat := 2 ^ 1074

/-- A magnitude a double can hold: below `2 ^ 1024`, and at most 53 significant bits. -/
def Representable (units : Nat) : Prop :=
  units < 2 ^ 2098 ∧ 2 ^ (units.log2 - 52) ∣ units

instance (units : Nat) : Decidable (Representable units) :=
  inferInstanceAs (Decidable (_ ∧ _))

end F64

/-- A double: a sign and a magnitude in units of `2 ^ -1074`, an infinity, or not a number. -/
inductive F64
  | finite (neg : Bool) (units : Nat) (fits : F64.Representable units)
  | inf (neg : Bool)
  | nan
  deriving DecidableEq

namespace F64

/-- The nearest 53-bit magnitude to `num / den` units, ties to the even significand. -/
def roundUnits (num den : Nat) : Nat :=
  let drop := (num / den).log2 - 52
  let grain := den * 2 ^ drop
  let m := num / grain
  let r := num % grain
  let m' := if 2 * r < grain then m else if grain < 2 * r then m + 1 else m + m % 2
  m' * 2 ^ drop

/-- The double nearest to `num / den` units; past the largest double, the infinity. -/
def ofUnits (neg : Bool) (num den : Nat) : F64 :=
  if h : Representable (roundUnits num den) then .finite neg (roundUnits num den) h else .inf neg

/-- The double nearest to a natural number. -/
def ofNat (n : Nat) : F64 := ofUnits false (n * unitsPerOne) 1

/-- The double nearest to `mantissa * 10 ^ exponent`. -/
def ofDecimal (neg : Bool) (mantissa : Nat) : Int → F64
  | .ofNat e => ofUnits neg (mantissa * 10 ^ e * unitsPerOne) 1
  | .negSucc e => ofUnits neg (mantissa * unitsPerOne) (10 ^ (e + 1))

/-- The integer a double is, if it is one. -/
def toInt? : F64 → Option Int
  | .finite neg units _ =>
      if units % unitsPerOne = 0 then
        some (if neg then -((units / unitsPerOne : Nat) : Int) else (units / unitsPerOne : Nat))
      else none
  | .inf _ => none
  | .nan => none

/-! ## Reading a decimal literal -/

/-- The exponent part of a literal: nothing, or `e`, an optional sign and digits. -/
def parseExponent : Str → Option Int
  | [] => some 0
  | c :: cs =>
      if c = 'e' ∨ c = 'E' then
        match cs with
        | '-' :: ds => (parseDecimal ds).map (fun n => -(n : Int))
        | '+' :: ds => (parseDecimal ds).map (fun n => (n : Int))
        | ds => (parseDecimal ds).map (fun n => (n : Int))
      else none

/-- A literal without its sign: digits with at most one point among them, then an exponent. -/
def parseUnsigned (neg : Bool) (s : Str) : Option F64 :=
  let whole := s.takeWhile Char.isDigit
  let rest := s.dropWhile Char.isDigit
  let (fraction, rest) :=
    match rest with
    | '.' :: cs => (cs.takeWhile Char.isDigit, cs.dropWhile Char.isDigit)
    | cs => ([], cs)
  if whole ++ fraction = [] then none
  else (parseExponent rest).map fun e =>
    ofDecimal neg (Nat.ofDigitChars 10 (whole ++ fraction) 0) (e - fraction.length)

/-- Read a decimal literal: `str::parse::<f64>` without its words for infinity and not-a-number. -/
def parse : Str → Option F64
  | '-' :: cs => parseUnsigned true cs
  | '+' :: cs => parseUnsigned false cs
  | cs => parseUnsigned false cs

/-! ## Printing the shortest decimal that reads back -/

/-- The exponent of the leading decimal digit of a magnitude below one: `fuel` bounds the search. -/
def leadingBelowOne (units : Nat) : Nat → Nat → Int
  | 0, j => -(j : Int)
  | fuel + 1, j =>
      if unitsPerOne ≤ units * 10 ^ j then -(j : Int) else leadingBelowOne units fuel (j + 1)

/-- The exponent of the leading decimal digit of a positive magnitude. -/
def leadingExponent (units : Nat) : Int :=
  if unitsPerOne ≤ units then ((decimal (units / unitsPerOne)).length : Int) - 1
  else leadingBelowOne units 330 1

/-- The whole part and the remainder of a magnitude divided by `10 ^ k`, over a denominator. -/
def scaled (units : Nat) : Int → Nat × Nat × Nat
  | .ofNat k =>
      let den := unitsPerOne * 10 ^ k
      (units / den, units % den, den)
  | .negSucc k =>
      let num := units * 10 ^ (k + 1)
      (num / unitsPerOne, num % unitsPerOne, unitsPerOne)

/-- The nearer of the two `digits`-digit decimals around a magnitude that reads back to it. -/
def shortestAt (units digits : Nat) : Option (Nat × Int) :=
  let k := leadingExponent units - (digits - 1 : Nat)
  let (low, rem, den) := scaled units k
  let readsBack (d : Nat) : Bool :=
    match ofDecimal false d k with
    | .finite _ u _ => u = units
    | _ => false
  let pick :=
    if readsBack low ∧ (2 * rem < den ∨ ¬ readsBack (low + 1)) then some low
    else if readsBack (low + 1) then some (low + 1) else none
  pick.map fun d => if d = 10 ^ digits then (1, k + digits) else (d, k)

/-- The shortest decimal, tried with one digit and then more. -/
def shortest (units : Nat) : Nat → Nat → Nat × Int
  | 0, _ => (0, 0)
  | fuel + 1, digits => (shortestAt units digits).getD (shortest units fuel (digits + 1))

/-- A decimal written without an exponent. -/
def positional (mantissa : Nat) (exponent : Int) : Str :=
  let ds := decimal mantissa
  let point := exponent + ds.length
  if point ≤ 0 then "0.".toList ++ List.replicate (-point).toNat '0' ++ ds
  else if point < ds.length then ds.take point.toNat ++ '.' :: ds.drop point.toNat
  else ds ++ List.replicate (point - ds.length).toNat '0'

/-- The `Display` text of a double: its shortest decimal, written without an exponent. -/
def display : F64 → Str
  | .finite neg units _ =>
      let body := if units = 0 then "0".toList
        else
          let (d, k) := shortest units 17 1
          positional d k
      if neg then '-' :: body else body
  | .inf neg => if neg then "-inf" else "inf"
  | .nan => "NaN"

end F64

end GaussMatrix.Library
