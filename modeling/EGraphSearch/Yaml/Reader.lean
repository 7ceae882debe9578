import EGraphSearch.Settings
import EGraphSearch.Yaml.Scalar

/-!
# Reading documents

A document is a scalar, a sequence or a mapping.  Collections are written in blocks, one entry a
line and nested ones indented further, or between brackets.  A key that is repeated in a mapping
takes its last value.  Every function here has a bound on its depth, which a document of as many
characters cannot reach.
-/

set_option autoImplicit false

namespace EGraphSearch.Yaml

/-- Writes an entry of a mapping; collections cannot be keys. -/
def putPair? (entries : Options) (key value : Datum) : Option Options :=
  if key.isHashable then some (entries.put key value) else none

/-! ## Collections between brackets -/

mutual

def flowNode? : Nat → Cursor → Option (Datum × Cursor)
  | 0, _ => none
  | bound + 1, c =>
    match c.head? with
    | some '[' => flowItems? bound [] c.next.toToken
    | some '\x7b' => flowEntries? bound [] c.next.toToken
    | _ => scalar? true true 0 c

/-- The value behind a colon, which may be missing; the cursor behind it stands at a token. -/
def flowValue? : Nat → Cursor → Option (Datum × Cursor)
  | 0, _ => none
  | bound + 1, c =>
    let token := c.next.toToken
    match token.head? with
    | some ',' => some (.null, token)
    | some ']' => some (.null, token)
    | some '\x7d' => some (.null, token)
    | _ => (flowNode? bound token).map fun (value, c) => (value, c.toToken)

/-- The rest of a sequence between brackets; `items` come in reverse. -/
def flowItems? : Nat → List Datum → Cursor → Option (Datum × Cursor)
  | 0, _, _ => none
  | bound + 1, items, c =>
    if c.head? == some ']' then some (.list items.reverse, c.next)
    else
      match flowNode? bound c with
      | none => none
      | some (item, behind) =>
        let token := behind.toToken
        let pair? : Option (Datum × Cursor) :=
          if token.head? == some ':' && token.line == c.line then
            (flowValue? bound token).bind fun (value, c) =>
              (putPair? [] item value).map fun entries => (.map entries, c)
          else some (item, token)
        match pair? with
        | none => none
        | some (item, token) =>
          match token.head? with
          | some ',' => flowItems? bound (item :: items) token.next.toToken
          | some ']' => some (.list (item :: items).reverse, token.next)
          | _ => none

def flowEntries? : Nat → Options → Cursor → Option (Datum × Cursor)
  | 0, _, _ => none
  | bound + 1, entries, c =>
    if c.head? == some '\x7d' then some (.map entries, c.next)
    else
      match flowNode? bound c with
      | none => none
      | some (key, behind) =>
        let token := behind.toToken
        let entry? : Option (Datum × Cursor) :=
          if token.head? == some ':' && token.line == c.line then flowValue? bound token
          else some (.null, token)
        match entry? with
        | none => none
        | some (value, token) =>
          match putPair? entries key value with
          | none => none
          | some entries =>
            match token.head? with
            | some ',' => flowEntries? bound entries token.next.toToken
            | some '\x7d' => some (.map entries, token.next)
            | _ => none

end

/-! ## Collections in blocks -/

def key? (c : Cursor) : Option (Datum × Cursor) :=
  if c.atSign ':' then some (.null, c.next)
  else
    match scalar? false false 0 c with
    | none => none
    | some (key, behind) =>
      let colon := behind.pastBlanks
      if behind.line == c.line && colon.atSign ':' then some (key, colon.next) else none

def Cursor.isDeeper (column : Nat) (c : Cursor) : Bool :=
  !c.atEnd && !c.atAnyMarker && decide (column < c.column)

def Cursor.isAt (column : Nat) (c : Cursor) : Bool :=
  !c.atEnd && !c.atAnyMarker && c.column == column

mutual

/-- The node at a cursor that stands at a token.  Later lines of a scalar have to be indented by
`indent`; collections in blocks may start here only if `blocks` says so.  The cursor behind the
node stands at the next token, on a later line. -/
def blockNode? : Nat → Nat → Bool → Cursor → Option (Datum × Cursor)
  | 0, _, _, _ => none
  | bound + 1, indent, blocks, c =>
    if c.atSign '-' then if blocks then blockItems? bound c.column [] c else none
    else
      match if blocks then key? c else none with
      | some _ => blockEntries? bound c.column [] c
      | none =>
        let node? :=
          if c.head? == some '[' || c.head? == some '\x7b' then
            flowNode? (4 * c.rest.length + 4) c
          else scalar? false true indent c
        node?.bind fun (value, c) => c.pastLine?.map fun c => (value, c)

/-- The rest of a sequence whose dashes stand in a column; `items` come in reverse. -/
def blockItems? : Nat → Nat → List Datum → Cursor → Option (Datum × Cursor)
  | 0, _, _, _ => none
  | bound + 1, column, items, c =>
    let behind := c.next
    let token := behind.toToken
    let item? :=
      if token.line == behind.line && !token.atEnd then blockNode? bound (column + 1) true token
      else if token.isDeeper column then blockNode? bound (column + 1) true token
      else some (.null, token)
    match item? with
    | none => none
    | some (item, token) =>
      if token.isAt column && token.atSign '-' then
        blockItems? bound column (item :: items) token
      else if token.isDeeper column then none
      else some (.list (item :: items).reverse, token)

/-- The rest of a mapping whose keys stand in a column.  A sequence that is a value may have its
dashes in the same column. -/
def blockEntries? : Nat → Nat → Options → Cursor → Option (Datum × Cursor)
  | 0, _, _, _ => none
  | bound + 1, column, entries, c =>
    match key? c with
    | none => none
    | some (key, behind) =>
      let token := behind.toToken
      let value? :=
        if token.line == behind.line && !token.atEnd then
          blockNode? bound (column + 1) false token
        else if token.isDeeper column then blockNode? bound (column + 1) true token
        else if token.isAt column && token.atSign '-' then blockItems? bound column [] token
        else some (.null, token)
      match value? with
      | none => none
      | some (value, token) =>
        match putPair? entries key value with
        | none => none
        | some entries =>
          if token.isAt column then blockEntries? bound column entries token
          else if token.isDeeper column then none
          else some (.map entries, token)

end

/-! ## Documents -/

def isAllowed (c : Char) : Bool :=
  c == '\t' || c == '\n' || c == '\u0085' || (0x20 ≤ c.toNat && c.toNat ≤ 0x7e) ||
    (0xa0 ≤ c.toNat && c.toNat ≤ 0xfffd) || 0x10000 ≤ c.toNat

def unifyLines : List Char → List Char
  | '\r' :: '\n' :: rest => '\n' :: unifyLines rest
  | '\r' :: rest => '\n' :: unifyLines rest
  | '\u0085' :: rest => '\n' :: unifyLines rest
  | c :: rest => c :: unifyLines rest
  | [] => []

/-- What follows a document: nothing, or end markers and nothing else. -/
def isOver : Nat → Cursor → Bool
  | 0, c => c.atEnd
  | bound + 1, c =>
    c.atEnd ||
      (c.atMarker '.' &&
        match (c.forward 3).pastLine? with
        | some c => isOver bound c
        | none => false)

/-- The document of a text.  A text without a document, or with an empty one, is nothing; `none`
means that the text cannot be read. -/
def read? (text : String) : Option Datum :=
  let chars := unifyLines text.toList
  let chars := if chars.head? == some '\ufeff' then chars.drop 1 else chars
  if !chars.all isAllowed then none
  else
    let bound := 4 * chars.length + 8
    let start := skipFrom false chars 0 0
    let marked := start.atMarker '-'
    let first := if marked then (start.forward 3).toToken else start
    let node? :=
      if first.atEnd || first.atAnyMarker then some (.null, first)
      else blockNode? bound 0 (!marked || start.line < first.line) first
    match node? with
    | none => none
    | some (value, behind) => if isOver chars.length behind then some value else none

end EGraphSearch.Yaml
