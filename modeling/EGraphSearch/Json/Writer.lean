import EGraphSearch.Datum
import EGraphSearch.Number.Decimal

/-!
# Writing JSON

Data on one line.  Doubles are written with the fewest digits that read back; those that JSON
cannot spell become text.  Keys that are no text take the text of their value.
-/

set_option autoImplicit false

namespace EGraphSearch.Json

def escaped (c : Char) : List Char :=
  if c = '"' ∨ c = '\\' then ['\\', c]
  else if c.toNat < 0x20 then '\\' :: 'u' :: Text.hexPadded 4 c.toNat
  else [c]

def quoted (s : String) : String :=
  "\"" ++ String.ofList (s.toList.flatMap escaped) ++ "\""

def truthText (b : Bool) : String := if b then "true" else "false"

def numberText : Number → String
  | .truth b => truthText b
  | .int i => toString i
  | .float x =>
    if x.isNaN || x.isInf then quoted (Decimal.shortest x) else Decimal.shortest x

def keyText : Datum → String
  | .text s => s
  | .null => "null"
  | .number (.truth b) => truthText b
  | d => d.render

mutual

def append (line : String) : Datum → String
  | .null => line ++ "null"
  | .number n => line ++ numberText n
  | .text s => line ++ quoted s
  | .list [] => line ++ "[]"
  | .list (first :: rest) => appendItems (append (line ++ "[") first) rest ++ "]"
  | .map [] => line ++ "\x7b\x7d"
  | .map ((key, value) :: rest) =>
    appendEntries (append (line ++ "\x7b" ++ quoted (keyText key) ++ ":") value) rest ++ "\x7d"

def appendItems (line : String) : List Datum → String
  | [] => line
  | first :: rest => appendItems (append (line ++ ",") first) rest

def appendEntries (line : String) : List (Datum × Datum) → String
  | [] => line
  | (key, value) :: rest =>
    appendEntries (append (line ++ "," ++ quoted (keyText key) ++ ":") value) rest

end

def write (value : Datum) : String := append "" value

end EGraphSearch.Json
