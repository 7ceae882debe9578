import EGraphSearch.Yaml.Plain

/-!
# Writing documents

Mappings and sequences are written in blocks, nested mappings indented by two columns and sequences
in the column of their key; empty ones are written between brackets.  A text is written without
quotes if it reads back as the same text that way, in double quotes if it holds characters that need
an escape, and in single quotes otherwise.
-/

set_option autoImplicit false

namespace EGraphSearch.Yaml

/-- Doubles always have a point. -/
def floatText (x : Float) : String :=
  if x.isNaN then ".nan"
  else if x.isInf then if 0 < x then ".inf" else "-.inf"
  else Decimal.Style.float ⟨".inf", ".nan", true⟩ x

/-! ## Texts -/

def isBreak (c : Char) : Bool :=
  c == '\n' || c == '\u0085' || c == '\u2028' || c == '\u2029'

def isGap : Option Char → Bool
  | none => true
  | some c => c == '\x00' || c == ' ' || c == '\t' || c == '\r' || isBreak c

/-- Whether a character ends or changes the meaning of a plain scalar in a block.  `before` is the
character in front of it, nothing at the start. -/
def isIndicator (before : Option Char) (c : Char) (after : Option Char) : Bool :=
  match before with
  | none =>
    ['#', ',', '[', ']', '\x7b', '\x7d', '&', '*', '!', '|', '>', '\'', '"', '%', '@',
      '\x60'].contains c || ((c == '?' || c == ':' || c == '-') && isGap after)
  | some b => (c == ':' && isGap after) || (c == '#' && isGap (some b))

def hasIndicator : Option Char → List Char → Bool
  | _, [] => false
  | before, c :: rest => isIndicator before c rest.head? || hasIndicator (some c) rest

def isSpecial (c : Char) : Bool := !(c == '\n' || (0x20 ≤ c.toNat && c.toNat ≤ 0x7e))

def hasBlankBeforeBreak : List Char → Bool
  | ' ' :: next :: rest => isBreak next || hasBlankBeforeBreak (next :: rest)
  | _ :: rest => hasBlankBeforeBreak rest
  | [] => false

def hasBlankAfterBreak : List Char → Bool
  | first :: next :: rest =>
    (isBreak first && next == ' ') || hasBlankAfterBreak (next :: rest)
  | _ => false

def startsWithMarker (chars : List Char) : Bool :=
  chars.take 3 == ['-', '-', '-'] || chars.take 3 == ['.', '.', '.']

def isPlain (s : String) : Bool :=
  let chars := s.toList
  let readsAsText :=
    match ofPlain s with
    | .text _ => !(s == "=" || s == "<<" || isTimestamp chars)
    | _ => false
  readsAsText && !chars.any isSpecial && !chars.any isBreak && !startsWithMarker chars &&
    !hasIndicator none chars && chars.head? != some ' ' && chars.getLast? != some ' '

def needsEscapes (chars : List Char) : Bool :=
  chars.any isSpecial || hasBlankBeforeBreak chars || hasBlankAfterBreak chars

def upperHex (width n : Nat) : List Char :=
  let digits := (Nat.toDigits 16 n).map Char.toUpper
  List.replicate (width - digits.length) '0' ++ digits

def shortEscapes : List (Char × Char) :=
  [('\x00', '0'), ('\x07', 'a'), ('\x08', 'b'), ('\t', 't'), ('\n', 'n'), ('\x0b', 'v'),
   ('\x0c', 'f'), ('\r', 'r'), ('\x1b', 'e'), ('"', '"'), ('\\', '\\'), ('\u0085', 'N'),
   ('\u00a0', '_'), ('\u2028', 'L'), ('\u2029', 'P')]

def escaped (c : Char) : List Char :=
  match shortEscapes.lookup c with
  | some letter => ['\\', letter]
  | none =>
    if 0x20 ≤ c.toNat && c.toNat ≤ 0x7e then [c]
    else if c.toNat < 0x100 then ['\\', 'x'] ++ upperHex 2 c.toNat
    else if c.toNat < 0x10000 then ['\\', 'u'] ++ upperHex 4 c.toNat
    else ['\\', 'U'] ++ upperHex 8 c.toNat

/-- A line longer than this is broken at the next single blank. -/
def lineWidth : Nat := 80

def lineIndent (indent : Nat) : List Char := '\n' :: List.replicate indent ' '

/-- Writes the characters of a text from a column on.  A single blank beyond the line width becomes
a line end, unless it is the first or the last character between quotes; a line end of the text is
written twice. -/
def wrap (quoted : Bool) (indent : Nat) : Option Char → List Char → Nat → List Char
  | _, [], _ => []
  | before, c :: rest, column =>
    if c == ' ' && before != some ' ' && rest.head?.any (· != ' ') && before.isSome &&
        lineWidth < column then
      lineIndent indent ++ wrap quoted indent (some c) rest indent
    else if c == '\n' then
      let opened := if before == some '\n' then ['\n'] else ['\n', '\n']
      let inside := if rest.head? == some '\n' then [] else List.replicate indent ' '
      opened ++ inside ++ wrap quoted indent (some c) rest indent
    else if quoted && c == '\'' then
      ['\'', '\''] ++ wrap quoted indent (some c) rest (column + 2)
    else c :: wrap quoted indent (some c) rest (column + 1)

/-- A text written from a column on, in lines indented by `indent`. -/
def textText (indent column : Nat) (s : String) : String :=
  let chars := s.toList
  String.ofList <|
    if isPlain s then wrap false indent none chars column
    else if needsEscapes chars then '"' :: chars.flatMap escaped ++ ['"']
    else '\'' :: wrap true indent none chars (column + 1) ++ ['\'']

/-! ## Nodes -/

def numberText : Number → String
  | .truth b => if b then "true" else "false"
  | .int i => toString i
  | .float x => floatText x

def scalarText (indent column : Nat) : Datum → String
  | .null => "null"
  | .number n => numberText n
  | .text s => textText indent column s
  | .list _ => "[]"
  | .map _ => "\x7b\x7d"

def blanks (indent : Nat) : String := String.ofList (List.replicate indent ' ')

mutual

/-- A node behind a key or a dash: on the same line if it is a scalar, on lines of its own
otherwise.  `indent` is the indentation of the collection around it, and `column` where it
starts. -/
def valueText (indent column : Nat) : Datum → String
  | .list (first :: rest) => "\n" ++ itemsText indent (first :: rest)
  | .map (first :: rest) => "\n" ++ entriesText (indent + 2) (first :: rest)
  | scalar => " " ++ scalarText (indent + 2) (column + 1) scalar ++ "\n"

/-- A node behind a dash; a collection starts on the same line. -/
def itemText (indent : Nat) : Datum → String
  | .list (first :: rest) => " " ++ dropBlanks (indent + 2) (itemsText (indent + 2) (first :: rest))
  | .map (first :: rest) =>
    " " ++ dropBlanks (indent + 2) (entriesText (indent + 2) (first :: rest))
  | scalar => " " ++ scalarText (indent + 2) (indent + 2) scalar ++ "\n"

def itemsText (indent : Nat) : List Datum → String
  | [] => ""
  | first :: rest => blanks indent ++ "-" ++ itemText indent first ++ itemsText indent rest

def entriesText (indent : Nat) : List (Datum × Datum) → String
  | [] => ""
  | (key, value) :: rest =>
    let name := scalarText indent indent key
    blanks indent ++ name ++ ":" ++ valueText indent (indent + name.length + 1) value ++
      entriesText indent rest

def dropBlanks (count : Nat) (s : String) : String := String.ofList (s.toList.drop count)

end

def write (value : Datum) : String :=
  match value with
  | .list (first :: rest) => itemsText 0 (first :: rest)
  | .map (first :: rest) => entriesText 0 (first :: rest)
  | scalar => scalarText 0 0 scalar ++ "\n...\n"

end EGraphSearch.Yaml
