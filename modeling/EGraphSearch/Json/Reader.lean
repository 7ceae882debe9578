import EGraphSearch.Datum
import EGraphSearch.Number.Reading

/-!
# Reading JSON

A JSON text becomes data.  A number with a point or an exponent is a double and any other number is
a whole number of any size; doubles that are not finite are written as words.  The entries of a map
keep their order, and repeated keys are kept as well.  The reader goes down one level of fuel with
each step; every second step uses up a character, so that twice the length of the text is always
enough.
-/

set_option autoImplicit false

namespace EGraphSearch.Json

def isBlank (c : Char) : Bool := c = ' ' || c = '\n' || c = '\r' || c = '\t'

def skipBlanks (chars : List Char) : List Char := chars.dropWhile isBlank

/-! ## Text -/

def hexDigit? (c : Char) : Option Nat :=
  if c.isDigit then some (c.toNat - '0'.toNat)
  else if 'a' ≤ c ∧ c ≤ 'f' then some (c.toNat - 'a'.toNat + 10)
  else if 'A' ≤ c ∧ c ≤ 'F' then some (c.toNat - 'A'.toNat + 10)
  else none

def hexValue? (digits : List Char) : Option Nat :=
  digits.foldlM (fun value c => (hexDigit? c).map (16 * value + ·)) 0

/-- The character behind a short escape; any other character stands for itself. -/
def unescaped (c : Char) : Char :=
  match c with
  | 'n' => '\n'
  | 'r' => '\r'
  | 't' => '\t'
  | 'b' => Char.ofNat 8
  | 'f' => Char.ofNat 12
  | c => c

/-- The code units of a text up to its closing quote, and what follows the quote. -/
def readUnits : List Char → Option (List Nat × List Char)
  | [] => none
  | '"' :: rest => some ([], rest)
  | '\\' :: 'u' :: a :: b :: c :: d :: rest => do
    let unit ← hexValue? [a, b, c, d]
    let (units, rest) ← readUnits rest
    return (unit :: units, rest)
  | '\\' :: c :: rest => do
    let (units, rest) ← readUnits rest
    return ((unescaped c).toNat :: units, rest)
  | c :: rest => do
    let (units, rest) ← readUnits rest
    return (c.toNat :: units, rest)

def isHighSurrogate (unit : Nat) : Bool := 0xd800 ≤ unit && unit < 0xdc00

def isLowSurrogate (unit : Nat) : Bool := 0xdc00 ≤ unit && unit < 0xe000

/-- Joins each pair of surrogates into one code point. -/
def joinSurrogates : List Nat → List Nat
  | high :: low :: rest =>
    if isHighSurrogate high && isLowSurrogate low then
      (0x10000 + (high - 0xd800) * 0x400 + (low - 0xdc00)) :: joinSurrogates rest
    else high :: joinSurrogates (low :: rest)
  | units => units

def readText (chars : List Char) : Option (String × List Char) :=
  (readUnits chars).map fun (units, rest) =>
    (String.ofList ((joinSurrogates units).map Char.ofNat), rest)

/-! ## Numbers -/

def isNumberChar (c : Char) : Bool :=
  c.isDigit || c = '-' || c = '+' || c = '.' || c = 'e' || c = 'E'

def readNumber (chars : List Char) : Option Number :=
  if chars.any fun c => c = '.' || c = 'e' || c = 'E' then
    (Text.readFloat? (String.ofList chars)).map .float
  else (Text.readInt? (String.ofList chars)).map .int

/-! ## Values -/

mutual

def readValue : Nat → List Char → Option (Datum × List Char)
  | 0, _ => none
  | fuel + 1, chars =>
    match skipBlanks chars with
    | '"' :: rest => (readText rest).map fun (s, rest) => (.text s, rest)
    | '[' :: rest => (readItems fuel rest).map fun (items, rest) => (.list items, rest)
    | '\x7b' :: rest => (readEntries fuel rest).map fun (entries, rest) => (.map entries, rest)
    | 't' :: 'r' :: 'u' :: 'e' :: rest => some (.number (.truth true), rest)
    | 'f' :: 'a' :: 'l' :: 's' :: 'e' :: rest => some (.number (.truth false), rest)
    | 'n' :: 'u' :: 'l' :: 'l' :: rest => some (.null, rest)
    | 'N' :: 'a' :: 'N' :: rest => some (.number (.float (0 / 0)), rest)
    | 'I' :: 'n' :: 'f' :: 'i' :: 'n' :: 'i' :: 't' :: 'y' :: rest =>
      some (.number (.float (1 / 0)), rest)
    | '-' :: 'I' :: 'n' :: 'f' :: 'i' :: 'n' :: 'i' :: 't' :: 'y' :: rest =>
      some (.number (.float (-1 / 0)), rest)
    | chars =>
      (readNumber (chars.takeWhile isNumberChar)).map fun n =>
        (.number n, chars.dropWhile isNumberChar)

/-- Items up to the closing bracket; commas only separate them. -/
def readItems : Nat → List Char → Option (List Datum × List Char)
  | 0, _ => none
  | fuel + 1, chars =>
    match skipBlanks chars with
    | ']' :: rest => some ([], rest)
    | ',' :: rest => readItems fuel rest
    | chars => do
      let (value, rest) ← readValue fuel chars
      let (items, rest) ← readItems fuel rest
      return (value :: items, rest)

/-- Entries up to the closing brace; commas only separate them. -/
def readEntries : Nat → List Char → Option (List (Datum × Datum) × List Char)
  | 0, _ => none
  | fuel + 1, chars =>
    match skipBlanks chars with
    | '\x7d' :: rest => some ([], rest)
    | ',' :: rest => readEntries fuel rest
    | '"' :: rest => do
      let (key, rest) ← readText rest
      let (value, rest) ← readValue fuel ((skipBlanks rest).drop 1)
      let (entries, rest) ← readEntries fuel rest
      return ((.text key, value) :: entries, rest)
    | _ => none

end

def read? (text : String) : Option Datum :=
  (readValue (2 * text.length + 2) text.toList).map Prod.fst

end EGraphSearch.Json
