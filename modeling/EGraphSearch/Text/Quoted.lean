import EGraphSearch.Text.Character

/-!
# Quoted text

How a piece of text is shown inside a message: in single quotes, or in double quotes when it
holds a single quote and no double one.  The backslash, the quote in use, the usual line
characters and everything without a visible shape are written as escapes.
-/

set_option autoImplicit false

namespace EGraphSearch.Text

def hexPadded (width n : Nat) : List Char :=
  let digits := Nat.toDigits 16 n
  List.replicate (width - digits.length) '0' ++ digits

def escape (quote : Char) (c : Char) : List Char :=
  if c = quote ∨ c = '\\' then ['\\', c]
  else if c = '\n' then ['\\', 'n']
  else if c = '\r' then ['\\', 'r']
  else if c = '\t' then ['\\', 't']
  else if isUnprintable c then
    if c.toNat < 0x100 then ['\\', 'x'] ++ hexPadded 2 c.toNat
    else if c.toNat < 0x10000 then ['\\', 'u'] ++ hexPadded 4 c.toNat
    else ['\\', 'U'] ++ hexPadded 8 c.toNat
  else [c]

/-- Double quotes are used only where they save an escape. -/
def quoteFor (chars : List Char) : Char :=
  if chars.contains '\'' && !chars.contains '"' then '"' else '\''

/-- A text in quotes, with everything escaped that could be mistaken. -/
def quoted (s : String) : String :=
  let chars := s.toList
  let quote := quoteFor chars
  String.ofList (quote :: chars.flatMap (escape quote) ++ [quote])

def bracketed (items : List String) : String :=
  "[" ++ ", ".intercalate items ++ "]"

end EGraphSearch.Text
