import GaussMatrix.Library.SortedMap
import GaussMatrix.Library.Float64

/-!
# JSON values, parser and serializer

The recursive-descent reader and the compact writer the whole API goes through.  An object keeps
its fields in key order, as the ordered map of the source does, so that its text is deterministic.
-/

namespace GaussMatrix.Api

open Library

/-- Maximum nesting depth the parser accepts. -/
def maxDepth : Nat := 128

/-- A parsed JSON value. -/
inductive Json
  | null
  | bool (b : Bool)
  | number (n : F64)
  | string (s : Str)
  | array (items : List Json)
  | object (fields : List (Str × Json))

/-- A JSON parse error, with the character offset where it was detected. -/
inductive JsonError
  | unexpectedEof
  | unexpectedChar (pos : Nat)
  | invalidNumber (pos : Nat)
  | invalidEscape (pos : Nat)
  | trailingData (pos : Nat)
  | depthExceeded
  deriving DecidableEq

namespace Json

/-! ## Accessors -/

def asBool : Json → Option Bool
  | .bool b => some b
  | _ => none

/-- The number as `u64` if it is a non-negative integer within range.  The upper bound is
`u64::MAX as f64`, which is `2 ^ 64`; the cast back saturates. -/
def asU64 : Json → Option UInt64
  | .number n =>
      match n.toInt? with
      | some i => if 0 ≤ i ∧ i ≤ 2 ^ 64 then some (UInt64.ofNat (min i.toNat (2 ^ 64 - 1))) else none
      | none => none
  | _ => none

/-- The number as `i64` if it is an integer within range, with the same saturation at `2 ^ 63`. -/
def asI64 : Json → Option Int
  | .number n =>
      match n.toInt? with
      | some i => if -2 ^ 63 ≤ i ∧ i ≤ 2 ^ 63 then some (min i (2 ^ 63 - 1)) else none
      | none => none
  | _ => none

def asStr : Json → Option Str
  | .string s => some s
  | _ => none

def asArray : Json → Option (List Json)
  | .array items => some items
  | _ => none

def asObject : Json → Option (List (Str × Json))
  | .object fields => some fields
  | _ => none

/-- A field of an object by key. -/
def get (j : Json) (key : Str) : Option Json := j.asObject.bind (fun fields => fields.lookup key)

/-! ## Serializer -/

/-- Integral values below `2 ^ 53` without a decimal point, others by their shortest text. -/
def formatNumber (n : F64) : Str :=
  match n with
  | .inf _ => "0".toList
  | .nan => "0".toList
  | .finite _ units _ =>
      match n.toInt? with
      | some i =>
          if units < 2 ^ 53 * F64.unitsPerOne then
            if i < 0 then '-' :: decimal i.natAbs else decimal i.natAbs
          else n.display
      | none => n.display

/-- One lower-case hexadecimal digit. -/
def hexDigit (n : Nat) : Char := Nat.digitChar n

/-- How one character of a string is written. -/
def escapeChar (c : Char) : Str :=
  if c = '"' then ['\\', '"']
  else if c = '\\' then ['\\', '\\']
  else if c = '\n' then ['\\', 'n']
  else if c = '\r' then ['\\', 'r']
  else if c = '\t' then ['\\', 't']
  else if c.toNat = 0x08 then ['\\', 'b']
  else if c.toNat = 0x0c then ['\\', 'f']
  else if c.toNat < 0x20 then
    ['\\', 'u', '0', '0', hexDigit (c.toNat / 16), hexDigit (c.toNat % 16)]
  else [c]

/-- A quoted, escaped JSON string. -/
def writeJsonString (s : Str) : Str := '"' :: (s.flatMap escapeChar ++ ['"'])

mutual

/-- The compact text of a value. -/
def write : Json → Str
  | .null => "null".toList
  | .bool true => "true".toList
  | .bool false => "false".toList
  | .number n => formatNumber n
  | .string s => writeJsonString s
  | .array items => '[' :: (writeItems items ++ [']'])
  | .object fields => '{' :: (writeFields fields ++ ['}'])

/-- Array elements, separated by commas. -/
def writeItems : List Json → Str
  | [] => []
  | [item] => write item
  | item :: items => write item ++ ',' :: writeItems items

/-- Object fields, separated by commas. -/
def writeFields : List (Str × Json) → Str
  | [] => []
  | [(k, v)] => writeJsonString k ++ ':' :: write v
  | (k, v) :: fields => writeJsonString k ++ ':' :: (write v ++ ',' :: writeFields fields)

end

end Json

/-! ## Parser -/

/-- The input that is left, and how many characters were consumed. -/
structure Parser where
  rest : List Char
  pos : Nat

namespace Parser

def peek (p : Parser) : Option Char := p.rest.head?

/-- Step over one character. -/
def advance (p : Parser) : Parser := ⟨p.rest.tail, p.pos + 1⟩

def bump (p : Parser) : Option (Char × Parser) :=
  match p.rest with
  | [] => none
  | c :: cs => some (c, ⟨cs, p.pos + 1⟩)

def isWs (c : Char) : Bool := c = ' ' || c = '\t' || c = '\n' || c = '\r'

def skipWs (p : Parser) : Parser :=
  ⟨p.rest.dropWhile isWs, p.pos + (p.rest.takeWhile isWs).length⟩

/-- The value of a hexadecimal digit. -/
def hexValue (c : Char) : Option Nat :=
  if c.isDigit then some (c.toNat - '0'.toNat)
  else if 'a' ≤ c ∧ c ≤ 'f' then some (c.toNat - 'a'.toNat + 10)
  else if 'A' ≤ c ∧ c ≤ 'F' then some (c.toNat - 'A'.toNat + 10)
  else none

/-- `n` more digits of a `\u` escape. -/
def parseHex (escPos : Nat) : Nat → Nat → Parser → Except JsonError (Nat × Parser)
  | 0, value, p => .ok (value, p)
  | n + 1, value, p =>
      match p.bump with
      | none => .error .unexpectedEof
      | some (c, p) =>
          match hexValue c with
          | none => .error (.invalidEscape escPos)
          | some d => parseHex escPos n (value * 16 + d) p

def parseHex4 (escPos : Nat) (p : Parser) : Except JsonError (Nat × Parser) :=
  parseHex escPos 4 0 p

/-- The character with a code point, if there is one. -/
def charFromU32 (n : Nat) : Option Char :=
  if n.isValidChar then some (Char.ofNat n) else none

/-- The four digits of a `\u` escape, combining a surrogate pair into one character. -/
def parseUnicodeEscape (escPos : Nat) (p : Parser) : Except JsonError (Char × Parser) := do
  let (cp, p) ← parseHex4 escPos p
  if 0xD800 ≤ cp ∧ cp ≤ 0xDBFF then
    match p.rest with
    | '\\' :: 'u' :: rest =>
        let (low, p) ← parseHex4 escPos ⟨rest, p.pos + 2⟩
        if 0xDC00 ≤ low ∧ low ≤ 0xDFFF then
          match charFromU32 (0x10000 + (cp - 0xD800) * 2 ^ 10 + (low - 0xDC00)) with
          | some c => .ok (c, p)
          | none => .error (.invalidEscape escPos)
        else .error (.invalidEscape escPos)
    | _ => .error (.invalidEscape escPos)
  else if 0xDC00 ≤ cp ∧ cp ≤ 0xDFFF then .error (.invalidEscape escPos)
  else
    match charFromU32 cp with
    | some c => .ok (c, p)
    | none => .error (.invalidEscape escPos)

/-- The character a one-letter escape stands for. -/
def simpleEscape (c : Char) : Option Char :=
  if c = '"' then some '"'
  else if c = '\\' then some '\\'
  else if c = '/' then some '/'
  else if c = 'b' then some (Char.ofNat 0x08)
  else if c = 'f' then some (Char.ofNat 0x0c)
  else if c = 'n' then some '\n'
  else if c = 'r' then some '\r'
  else if c = 't' then some '\t'
  else none

/-- The rest of a string after its opening quote; `acc` holds the characters read, last first.
Every turn consumes a character, so the length of the input is enough `fuel`. -/
def parseStringLoop : Nat → Str → Parser → Except JsonError (Str × Parser)
  | 0, _, _ => .error .unexpectedEof
  | fuel + 1, acc, p =>
      match p.bump with
      | none => .error .unexpectedEof
      | some (c, p) =>
          if c = '"' then .ok (acc.reverse, p)
          else if c = '\\' then
            let escPos := p.pos - 1
            match p.bump with
            | none => .error .unexpectedEof
            | some (e, p) =>
                if e = 'u' then
                  match parseUnicodeEscape escPos p with
                  | .ok (u, p) => parseStringLoop fuel (u :: acc) p
                  | .error err => .error err
                else
                  match simpleEscape e with
                  | some s => parseStringLoop fuel (s :: acc) p
                  | none => .error (.invalidEscape escPos)
          else if c.toNat < 0x20 then .error (.unexpectedChar (p.pos - 1))
          else parseStringLoop fuel (c :: acc) p

def parseString (p : Parser) : Except JsonError (Str × Parser) :=
  parseStringLoop p.rest.length [] p.advance

/-- The characters a number token may hold. -/
def isNumberChar (c : Char) : Bool :=
  c.isDigit || c = '-' || c = '+' || c = '.' || c = 'e' || c = 'E'

def parseNumber (p : Parser) : Except JsonError (Json × Parser) :=
  let text := p.rest.takeWhile isNumberChar
  match F64.parse text with
  | some n => .ok (.number n, ⟨p.rest.dropWhile isNumberChar, p.pos + text.length⟩)
  | none => .error (.invalidNumber p.pos)

def consumeLiteral (p : Parser) (literal : Str) : Option Parser :=
  (stripPrefix literal p.rest).map (fun rest => ⟨rest, p.pos + literal.length⟩)

def parseBool (p : Parser) : Except JsonError (Json × Parser) :=
  match p.consumeLiteral "true" with
  | some p => .ok (.bool true, p)
  | none =>
      match p.consumeLiteral "false" with
      | some p => .ok (.bool false, p)
      | none => .error (.unexpectedChar p.pos)

def parseNull (p : Parser) : Except JsonError (Json × Parser) :=
  match p.consumeLiteral "null" with
  | some p => .ok (.null, p)
  | none => .error (.unexpectedChar p.pos)

mutual

/-- One value.  Between two nested calls at least one character is consumed, so twice the length
of the input is enough `fuel`; the depth guard is the source's own bound on the recursion. -/
def parseValue : Nat → Nat → Parser → Except JsonError (Json × Parser)
  | 0, _, _ => .error .unexpectedEof
  | fuel + 1, depth, p =>
      if depth > maxDepth then .error .depthExceeded
      else
        match p.peek with
        | none => .error .unexpectedEof
        | some c =>
            if c = '{' then
              let p := p.advance.skipWs
              if p.peek = some '}' then .ok (.object [], p.advance)
              else parseObject fuel depth [] p
            else if c = '[' then
              let p := p.advance.skipWs
              if p.peek = some ']' then .ok (.array [], p.advance)
              else parseArray fuel depth [] p
            else if c = '"' then
              match p.parseString with
              | .ok (s, p) => .ok (.string s, p)
              | .error err => .error err
            else if c = 't' ∨ c = 'f' then p.parseBool
            else if c = 'n' then p.parseNull
            else if c = '-' ∨ c.isDigit then p.parseNumber
            else .error (.unexpectedChar p.pos)

/-- The loop over the fields of an object, collected in `fields`. -/
def parseObject : Nat → Nat → List (Str × Json) → Parser → Except JsonError (Json × Parser)
  | 0, _, _, _ => .error .unexpectedEof
  | fuel + 1, depth, fields, p =>
      let p := p.skipWs
      if p.peek ≠ some '"' then .error (.unexpectedChar p.pos)
      else
        match p.parseString with
        | .error err => .error err
        | .ok (key, p) =>
            let p := p.skipWs
            if p.peek ≠ some ':' then
              .error (.unexpectedChar (p.bump.elim (p.pos - 1) (fun _ => p.pos)))
            else
              match parseValue fuel (depth + 1) p.advance.skipWs with
              | .error err => .error err
              | .ok (value, p) =>
                  let fields := SortedList.insert key value fields
                  let p := p.skipWs
                  match p.bump with
                  | some (',', p) => parseObject fuel depth fields p
                  | some ('}', p) => .ok (.object fields, p)
                  | some (_, p) => .error (.unexpectedChar (p.pos - 1))
                  | none => .error (.unexpectedChar (p.pos - 1))

/-- The loop over the elements of an array; `items` holds those read, last first. -/
def parseArray : Nat → Nat → List Json → Parser → Except JsonError (Json × Parser)
  | 0, _, _, _ => .error .unexpectedEof
  | fuel + 1, depth, items, p =>
      match parseValue fuel (depth + 1) p.skipWs with
      | .error err => .error err
      | .ok (item, p) =>
          let p := p.skipWs
          match p.bump with
          | some (',', p) => parseArray fuel depth (item :: items) p
          | some (']', p) => .ok (.array (item :: items).reverse, p)
          | some (_, p) => .error (.unexpectedChar (p.pos - 1))
          | none => .error (.unexpectedChar (p.pos - 1))

end

end Parser

/-- Parse a JSON document, requiring it to consume the whole input. -/
def Json.parse (input : Str) : Except JsonError Json :=
  match Parser.parseValue (2 * input.length + 2) 0 (Parser.skipWs ⟨input, 0⟩) with
  | .error err => .error err
  | .ok (value, p) =>
      let p := p.skipWs
      if p.rest = [] then .ok value else .error (.trailingData p.pos)

end GaussMatrix.Api
