import EGraphSearch.Label

/-!
# Data

A value of unknown shape, as settings files, options and oracles hand it over.
-/

set_option autoImplicit false

namespace EGraphSearch

inductive Datum where
  | null
  | number (value : Number)
  | text (value : String)
  | list (items : List Datum)
  | map (entries : List (Datum × Datum))

namespace Datum

instance : Inhabited Datum := ⟨.null⟩

def kindName : Datum → String
  | .null => "NoneType"
  | .number (.truth _) => "bool"
  | .number (.int _) => "int"
  | .number (.float _) => "float"
  | .text _ => "str"
  | .list _ => "list"
  | .map _ => "dict"

/-- Nothing, zero and everything empty count as no; not-a-number counts as yes. -/
def isTrue : Datum → Bool
  | .null => false
  | .number (.truth b) => b
  | .number (.int i) => i != 0
  | .number (.float x) => !(x == 0)
  | .text s => !s.isEmpty
  | .list items => !items.isEmpty
  | .map entries => !entries.isEmpty

mutual

def render : Datum → String
  | .null => "None"
  | .number n => n.text
  | .text s => Text.quoted s
  | .list [] => "[]"
  | .list (first :: rest) => "[" ++ render first ++ renderItems rest ++ "]"
  | .map [] => "\x7b\x7d"
  | .map ((key, value) :: rest) =>
    "\x7b" ++ render key ++ ": " ++ render value ++ renderEntries rest ++ "\x7d"

def renderItems : List Datum → String
  | [] => ""
  | first :: rest => ", " ++ render first ++ renderItems rest

def renderEntries : List (Datum × Datum) → String
  | [] => ""
  | (key, value) :: rest => ", " ++ render key ++ ": " ++ render value ++ renderEntries rest

end

def plain : Datum → String
  | .text s => s
  | d => d.render

mutual

/-- Equality of values: numbers compare across their kinds, and the order of the entries of a map
does not matter.  What is not a number equals nothing. -/
def same : Datum → Datum → Bool
  | .null, .null => true
  | .number m, .number n => m.same n
  | .text s, .text t => s == t
  | .list xs, .list ys => sameItems xs ys
  | .map xs, .map ys => xs.length == ys.length && sameEntries xs ys
  | _, _ => false

def sameItems : List Datum → List Datum → Bool
  | [], [] => true
  | x :: xs, y :: ys => same x y && sameItems xs ys
  | _, _ => false

/-- Every entry of the first list has an equal one in the second. -/
def sameEntries : List (Datum × Datum) → List (Datum × Datum) → Bool
  | [], _ => true
  | (key, value) :: rest, others =>
    hasEntry key value others && sameEntries rest others

def hasEntry (key value : Datum) : List (Datum × Datum) → Bool
  | [] => false
  | (k, v) :: rest => (same key k && same value v) || hasEntry key value rest

end

def items : Datum → List Datum
  | .list items => items
  | _ => []

def entries : Datum → List (Datum × Datum)
  | .map entries => entries
  | _ => []

/-- Whether a value may serve as the key of a table. -/
def isHashable : Datum → Bool
  | .list _ => false
  | .map _ => false
  | _ => true

end Datum

end EGraphSearch
