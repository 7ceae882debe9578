import EGraphSearch.Datum
import EGraphSearch.Number.Reading

/-!
# Plain scalars

A scalar without quotes is nothing, a truth value, a whole number, a double or a text, whichever
its spelling says.  A double needs a point, and its exponent needs a sign; otherwise it is a text.
Underscores may stand between the digits of a number, a leading zero means octal, and colons
separate digits to the base sixty.
-/

set_option autoImplicit false

namespace EGraphSearch.Yaml

def nullWords : List String := ["", "~", "null", "Null", "NULL"]

def trueWords : List String :=
  ["yes", "Yes", "YES", "true", "True", "TRUE", "on", "On", "ON"]

def falseWords : List String :=
  ["no", "No", "NO", "false", "False", "FALSE", "off", "Off", "OFF"]

def digitIn? (base : Nat) (c : Char) : Option Nat :=
  let value? :=
    if c.isDigit then some (c.toNat - '0'.toNat)
    else if 'a' ≤ c ∧ c ≤ 'f' then some (c.toNat - 'a'.toNat + 10)
    else if 'A' ≤ c ∧ c ≤ 'F' then some (c.toNat - 'A'.toNat + 10)
    else none
  value?.filter (· < base)

def readDigits? (base : Nat) (chars : List Char) : Option Nat :=
  (chars.filter (· != '_')).foldlM (fun value c => (digitIn? base c).map (base * value + ·)) 0

def isDigitRun : List Char → Bool
  | [] => false
  | first :: rest => first.isDigit && rest.all fun c => c.isDigit || c == '_'

def colonParts (chars : List Char) : List (List Char) := chars.splitOn ':'

/-- A part to the base sixty: one digit, or two of which the first is at most five. -/
def isSixtieth : List Char → Bool
  | [d] => d.isDigit
  | [tens, ones] => '0' ≤ tens && tens ≤ '5' && ones.isDigit
  | _ => false

/-- Digits to the base sixty: at least two parts, the first without a leading zero. -/
def readSixties? (chars : List Char) : Option Nat :=
  match colonParts chars with
  | first :: second :: rest =>
    if isDigitRun first && first.head? != some '0' && (second :: rest).all isSixtieth then
      (first :: second :: rest).foldlM
        (fun value part => (readDigits? 10 part).map (60 * value + ·)) 0
    else none
  | _ => none

def readMagnitude? (chars : List Char) : Option Nat :=
  match chars with
  | ['0'] => some 0
  | '0' :: 'b' :: digits => if digits.isEmpty then none else readDigits? 2 digits
  | '0' :: 'x' :: digits => if digits.isEmpty then none else readDigits? 16 digits
  | '0' :: digits => readDigits? 8 digits
  | chars => if isDigitRun chars then readDigits? 10 chars else readSixties? chars

def readInt? (chars : List Char) : Option Int :=
  let (minus, digits) := Text.takeSign chars
  (readMagnitude? digits).map fun n => if minus then -(n : Int) else n

def isExponent : List Char → Bool
  | [] => true
  | mark :: sign :: digits =>
    (mark == 'e' || mark == 'E') && (sign == '-' || sign == '+') && !digits.isEmpty &&
      digits.all Char.isDigit
  | _ => false

def splitExponent (chars : List Char) : List Char × List Char :=
  chars.span fun c => c != 'e' && c != 'E'

def isDigitOrUnderscore (c : Char) : Bool := c.isDigit || c == '_'

/-- Whether a text without its sign is a decimal double; one without digits before the point may
not have had a sign. -/
def isDecimal (signed : Bool) (chars : List Char) : Bool :=
  let (digits, exponent) := splitExponent chars
  isExponent exponent &&
    match digits.span (· != '.') with
    | ([], '.' :: fraction) => !signed && isDigitRun fraction
    | (whole, '.' :: fraction) => isDigitRun whole && fraction.all isDigitOrUnderscore
    | _ => false

/-- A double to the base sixty, whose last part has a point. -/
def readSixtyFloat? (chars : List Char) : Option Float :=
  match (colonParts chars).reverse with
  | last :: middle =>
    match last.span (· != '.'), middle.reverse with
    | (ones, '.' :: fraction), first :: rest =>
      if isDigitRun first && rest.all isSixtieth && isSixtieth ones &&
          fraction.all isDigitOrUnderscore then
        let parts := (first :: rest ++ [last]).map fun part =>
          (Text.readFloat? (String.ofList (part.filter (· != '_')))).getD 0
        some ((parts.reverse.foldl (fun (sum, base) x => (sum + x * base, base * 60))
          ((0 : Float), (1 : Float))).1)
      else none
    | _, _ => none
  | [] => none

def readFloat? (chars : List Char) : Option Float :=
  let signed := chars.head? == some '-' || chars.head? == some '+'
  let (minus, unsigned) := Text.takeSign chars
  let magnitude :=
    if [".inf", ".Inf", ".INF"].contains (String.ofList unsigned) then some (1 / 0)
    else if !signed && [".nan", ".NaN", ".NAN"].contains (String.ofList unsigned) then
      some (0 / 0)
    else if isDecimal signed unsigned then
      Text.readFloat? (String.ofList (unsigned.filter (· != '_')))
    else readSixtyFloat? unsigned
  magnitude.map fun x => if minus then -1 * x else x

/-! ## Dates -/

def dropDigits? (least most : Nat) (chars : List Char) : Option (List Char) :=
  let count := ((chars.take most).takeWhile Char.isDigit).length
  if count < least then none else some (chars.drop count)

def dropChar? (c : Char) : List Char → Option (List Char)
  | first :: rest => if first = c then some rest else none
  | [] => none

/-- What follows a date whose month and day have at least so many digits. -/
def afterDate? (least : Nat) (chars : List Char) : Option (List Char) := do
  let chars ← dropChar? '-' (← dropDigits? 4 4 chars)
  let chars ← dropChar? '-' (← dropDigits? least 2 chars)
  dropDigits? least 2 chars

/-- What follows a time of day, with its fraction of a second. -/
def afterTime? (chars : List Char) : Option (List Char) := do
  let chars ← dropChar? ':' (← dropDigits? 1 2 chars)
  let chars ← dropChar? ':' (← dropDigits? 2 2 chars)
  let chars ← dropDigits? 2 2 chars
  return ((dropChar? '.' chars).map fun fraction => fraction.dropWhile Char.isDigit).getD chars

def isZone (chars : List Char) : Bool :=
  match chars.dropWhile fun c => c == ' ' || c == '\t' with
  | [] => chars.isEmpty
  | ['Z'] => true
  | sign :: rest =>
    (sign == '-' || sign == '+') &&
      match dropDigits? 1 2 rest with
      | some [] => true
      | some minutes => ((dropChar? ':' minutes).bind (dropDigits? 2 2)).any List.isEmpty
      | none => false

/-- A date, alone or with a time behind `T` or blanks.  It is read as a text like any other, but
written in quotes, since other readers take it for a date. -/
def isTimestamp (chars : List Char) : Bool :=
  (afterDate? 2 chars).any List.isEmpty ||
    match afterDate? 1 chars with
    | some (c :: rest) =>
      if c == 'T' || c == 't' then (afterTime? rest).any isZone
      else if c == ' ' || c == '\t' then
        (afterTime? (rest.dropWhile fun c => c == ' ' || c == '\t')).any isZone
      else false
    | _ => false

/-! ## The choice -/

def ofPlain (s : String) : Datum :=
  if nullWords.contains s then .null
  else if trueWords.contains s then .number (.truth true)
  else if falseWords.contains s then .number (.truth false)
  else
    match readInt? s.toList with
    | some i => .number (.int i)
    | none =>
      match readFloat? s.toList with
      | some x => .number (.float x)
      | none => .text s

end EGraphSearch.Yaml
