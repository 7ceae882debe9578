import EGraphSearch.Number.Binary64
import EGraphSearch.Text.Character

/-!
# Reading a number from text

A whole number is a sign and decimal digits.  A double is a sign, then `inf`, `infinity` or `nan` in
any case, or decimal digits with an optional point and an optional exponent.  Digits of any script
count, single underscores may stand between digits, and blanks around the number are ignored.
-/

set_option autoImplicit false

namespace EGraphSearch.Text

def plainDigits (s : String) : List Char :=
  s.toList.map fun c =>
    match digitValue? c with
    | some d => Nat.digitChar d
    | none => c

def trimBlanks (chars : List Char) : List Char :=
  ((chars.dropWhile isBlank).reverse.dropWhile isBlank).reverse

/-- Removes the underscores; `none` if one of them does not stand between two digits. -/
def joinDigits (chars : List Char) : Option (List Char) :=
  let rec go : Option Char → List Char → Option (List Char)
    | _, [] => some []
    | before, '_' :: rest =>
      match before, rest with
      | some b, next :: _ => if b.isDigit && next.isDigit then go (some '_') rest else none
      | _, _ => none
    | _, c :: rest => (go (some c) rest).map (c :: ·)
  go none chars

def digitsValue (chars : List Char) : Nat :=
  chars.foldl (fun value c => 10 * value + (c.toNat - '0'.toNat)) 0

def takeSign : List Char → Bool × List Char
  | '-' :: rest => (true, rest)
  | '+' :: rest => (false, rest)
  | chars => (false, chars)

/-- An exponent part that uses up the whole text; the empty text is the exponent zero. -/
def readExponent : List Char → Option Int
  | [] => some 0
  | mark :: rest =>
    if mark = 'e' ∨ mark = 'E' then
      let (minus, digits) := takeSign rest
      if digits.isEmpty || !digits.all Char.isDigit then none
      else some (if minus then -(digitsValue digits : Int) else digitsValue digits)
    else none

def readUnsigned (chars : List Char) : Option Float :=
  let lower := String.ofList (chars.map Char.toLower)
  if lower = "inf" ∨ lower = "infinity" then some (1 / 0)
  else if lower = "nan" then some (0 / 0)
  else
    let whole := chars.takeWhile Char.isDigit
    let afterWhole := chars.dropWhile Char.isDigit
    let (fraction, tail) :=
      match afterWhole with
      | '.' :: rest => (rest.takeWhile Char.isDigit, rest.dropWhile Char.isDigit)
      | rest => ([], rest)
    if whole.isEmpty && fraction.isEmpty then none
    else do
      let exponent ← readExponent tail
      return Binary64.ofDecimal (digitsValue (whole ++ fraction)) (exponent - fraction.length)

def readInt? (s : String) : Option Int := do
  let (minus, digits) := takeSign (← joinDigits (trimBlanks (plainDigits s)))
  if digits.isEmpty || !digits.all Char.isDigit then none
  else
    let magnitude : Int := digitsValue digits
    return if minus then -magnitude else magnitude

def readFloat? (s : String) : Option Float := do
  let (minus, rest) := takeSign (← joinDigits (trimBlanks (plainDigits s)))
  let magnitude ← readUnsigned rest
  return if minus then -magnitude else magnitude

end EGraphSearch.Text
