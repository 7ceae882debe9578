import EGraphSearch.Yaml.Plain

/-!
# Scanning scalars

A cursor is what is left of a text, with the column and the line where it stands.  Blanks, comments
and line ends separate tokens.  Plain and quoted scalars may go on over several lines: a single line
end inside a scalar reads as a blank, and further ones are kept.
-/

set_option autoImplicit false

namespace EGraphSearch.Yaml

structure Cursor where
  rest : List Char
  column : Nat
  line : Nat

namespace Cursor

def next (c : Cursor) : Cursor :=
  match c.rest with
  | [] => c
  | '\n' :: rest => ⟨rest, 0, c.line + 1⟩
  | _ :: rest => ⟨rest, c.column + 1, c.line⟩

def forward : Nat → Cursor → Cursor
  | 0, c => c
  | n + 1, c => forward n c.next

def head? (c : Cursor) : Option Char := c.rest.head?

def atEnd (c : Cursor) : Bool := c.rest.isEmpty

end Cursor

def endsToken : Option Char → Bool
  | none => true
  | some c => c == ' ' || c == '\t' || c == '\n'

def Cursor.atMarker (mark : Char) (c : Cursor) : Bool :=
  match c.rest with
  | x :: y :: z :: rest =>
    c.column == 0 && x == mark && y == mark && z == mark && endsToken rest.head?
  | _ => false

def Cursor.atAnyMarker (c : Cursor) : Bool := c.atMarker '-' || c.atMarker '.'

def skipFrom (comment : Bool) : List Char → Nat → Nat → Cursor
  | [], column, line => ⟨[], column, line⟩
  | '\n' :: rest, _, line => skipFrom false rest 0 (line + 1)
  | c :: rest, column, line =>
    if comment || c == ' ' then skipFrom comment rest (column + 1) line
    else if c == '#' then skipFrom true rest (column + 1) line
    else ⟨c :: rest, column, line⟩

def Cursor.toToken (c : Cursor) : Cursor := skipFrom false c.rest c.column c.line

def Cursor.pastBlanks (c : Cursor) : Cursor :=
  let blanks := (c.rest.takeWhile (· == ' ')).length
  ⟨c.rest.drop blanks, c.column + blanks, c.line⟩

/-- The cursor at the next token, provided that nothing else stands on this line. -/
def Cursor.pastLine? (c : Cursor) : Option Cursor :=
  let token := c.toToken
  if token.atEnd || c.line < token.line then some token else none

def Cursor.atSign (sign : Char) (c : Cursor) : Bool :=
  match c.rest with
  | first :: rest => first == sign && endsToken rest.head?
  | [] => false

/-! ## Plain scalars -/

def flowSigns : List Char := [',', '[', ']', '\x7b', '\x7d']

def Cursor.startsPlain (flow : Bool) (c : Cursor) : Bool :=
  match c.rest with
  | [] => false
  | first :: rest =>
    if endsToken (some first) then false
    else if first == '-' then !endsToken rest.head?
    else if first == '?' || first == ':' then !flow && !endsToken rest.head?
    else !(flowSigns ++ ['#', '&', '*', '!', '|', '>', '\'', '"', '%', '@', '\x60']).contains first

def plainLength (flow : Bool) : List Char → Nat
  | [] => 0
  | c :: rest =>
    if endsToken (some c) then 0
    else if c == ':' && (endsToken rest.head? || (flow && rest.head?.any flowSigns.contains)) then 0
    else if flow && (c == ',' || c == '?' || flowSigns.contains c) then 0
    else plainLength flow rest + 1

/-- The line ends and the blanks that follow the first line end of a gap; a document marker ends
them. -/
def gapLines : Nat → Cursor → Nat × Cursor
  | 0, c => (0, c)
  | bound + 1, c =>
    if c.atAnyMarker then (0, c)
    else
      match c.head? with
      | some ' ' => gapLines bound c.next
      | some '\n' =>
        let (lines, c) := gapLines bound c.next
        (lines + 1, c)
      | _ => (0, c)

/-- What a gap with a line end in it reads as. -/
def foldedGap (lines : Nat) : List Char :=
  if lines = 0 then [' '] else List.replicate lines '\n'

/-- The gap behind a piece of a plain scalar: how it reads, and the cursor behind it.  On one line
it is as long as its blanks; `none` means that the scalar ends. -/
def plainGap (multiline : Bool) (c : Cursor) : Option (List Char × Cursor) :=
  let blanks := c.rest.takeWhile (· == ' ')
  let past := c.pastBlanks
  match past.head? with
  | some '\n' =>
    let first := past.next
    if !multiline || first.atAnyMarker then none
    else
      let (lines, c) := gapLines (first.rest.length + 1) first
      if c.atAnyMarker then none else some (foldedGap lines, c)
  | _ => if blanks.isEmpty then none else some (blanks, past)

/-- The pieces of a plain scalar from here on, and the cursor behind the last one.  Later lines
have to be indented at least by `indent`. -/
def scanPlain (flow multiline : Bool) (indent : Nat) : Nat → Cursor → List Char × Cursor
  | 0, c => ([], c)
  | bound + 1, c =>
    let length := plainLength flow c.rest
    let piece := c.rest.take length
    let behind := c.forward length
    match plainGap multiline behind with
    | none => (piece, behind)
    | some (gap, c) =>
      if c.head? == some '#' || (!flow && c.column < indent) || plainLength flow c.rest == 0 then
        (piece, behind)
      else
        let (more, c) := scanPlain flow multiline indent bound c
        (piece ++ gap ++ more, c)

/-! ## Quoted scalars -/

def escapes : List (Char × Char) :=
  [('0', '\x00'), ('a', '\x07'), ('b', '\x08'), ('t', '\t'), ('\t', '\t'), ('n', '\n'),
   ('v', '\x0b'), ('f', '\x0c'), ('r', '\r'), ('e', '\x1b'), (' ', ' '), ('"', '"'),
   ('\\', '\\'), ('/', '/'), ('N', '\u0085'), ('_', '\u00a0'), ('L', '\u2028'),
   ('P', '\u2029')]

def hexWidth? : Char → Option Nat
  | 'x' => some 2
  | 'u' => some 4
  | 'U' => some 8
  | _ => none

/-- Drops the blanks and line ends behind a line end inside quotes; `none` at a document
marker. -/
def quotedLines? : Nat → Cursor → Option (Nat × Cursor)
  | 0, c => some (0, c)
  | bound + 1, c =>
    if c.atAnyMarker then none
    else
      match c.head? with
      | some ' ' => quotedLines? bound c.next
      | some '\t' => quotedLines? bound c.next
      | some '\n' => (quotedLines? bound c.next).map fun (lines, c) => (lines + 1, c)
      | _ => some (0, c)

/-- One unit of a quoted scalar: how it reads, and the cursor behind it.  The cursor stands neither
at the end of the text nor at the closing quote. -/
def quotedUnit? (double : Bool) (c : Cursor) : Option (List Char × Cursor) :=
  let blanks := c.rest.takeWhile fun x => x == ' ' || x == '\t'
  match c.rest with
  | '\'' :: '\'' :: _ => if double then some (['\''], c.next) else some (['\''], c.next.next)
  | '\\' :: rest =>
    if !double then some (['\\'], c.next)
    else
      match rest with
      | '\n' :: _ => (quotedLines? rest.length c.next.next).map fun (lines, c) =>
          (List.replicate lines '\n', c)
      | letter :: digits =>
        match hexWidth? letter with
        | some width =>
          let code := digits.take width
          if code.length < width || !code.all fun d => (digitIn? 16 d).isSome then none
          else
            (readDigits? 16 code).map fun n => ([Char.ofNat n], c.next.next.forward width)
        | none => (escapes.lookup letter).map fun x => ([x], c.next.next)
      | [] => none
  | first :: _ =>
    if blanks.isEmpty && first != '\n' then some ([first], c.next)
    else
      let past := c.forward blanks.length
      if past.head? == some '\n' then
        (quotedLines? (past.rest.length + 1) past.next).map fun (lines, c) => (foldedGap lines, c)
      else some (blanks, past)
  | [] => none

def Cursor.atClosing (double : Bool) (c : Cursor) : Bool :=
  if double then c.head? == some '"'
  else
    match c.rest with
    | '\'' :: '\'' :: _ => false
    | '\'' :: _ => true
    | _ => false

/-- The rest of a quoted scalar, and the cursor behind the closing quote. -/
def scanQuoted (double : Bool) : Nat → Cursor → Option (List Char × Cursor)
  | 0, _ => none
  | bound + 1, c =>
    if c.atClosing double then some ([], c.next)
    else
      match quotedUnit? double c with
      | none => none
      | some (unit, c) => (scanQuoted double bound c).map fun (more, c) => (unit ++ more, c)

/-! ## Scalars -/

def scalar? (flow multiline : Bool) (indent : Nat) (c : Cursor) : Option (Datum × Cursor) :=
  let bound := c.rest.length + 1
  match c.head? with
  | some '"' => (scanQuoted true bound c.next).map fun (s, c) => (.text (String.ofList s), c)
  | some '\'' => (scanQuoted false bound c.next).map fun (s, c) => (.text (String.ofList s), c)
  | _ =>
    if c.startsPlain flow then
      let (s, c) := scanPlain flow multiline indent bound c
      some (ofPlain (String.ofList s), c)
    else none

end EGraphSearch.Yaml
