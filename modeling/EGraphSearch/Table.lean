import EGraphSearch.Label

/-!
# Tables keyed by labels

A table is the list of its entries in the order in which their keys first appeared.  Writing to
a key that is already there replaces the value and keeps the place and the spelling of the key.
-/

set_option autoImplicit false

namespace EGraphSearch

abbrev Table (α : Type) := List (Label × α)

namespace Table

variable {α : Type}

def get? : Table α → Label → Option α
  | [], _ => none
  | (k, v) :: rest, key => if k == key then some v else get? rest key

def contains (t : Table α) (key : Label) : Bool := (t.get? key).isSome

def keys (t : Table α) : List Label := t.map Prod.fst

def values (t : Table α) : List α := t.map Prod.snd

def put : Table α → Label → α → Table α
  | [], key, value => [(key, value)]
  | (k, v) :: rest, key, value =>
    if k == key then (k, value) :: rest else (k, v) :: put rest key value

/-- The table that results from writing the entries one after the other. -/
def ofEntries (entries : List (Label × α)) : Table α :=
  entries.foldl (fun t (key, value) => t.put key value) []

def within (eq : α → α → Bool) (t u : Table α) : Bool :=
  t.all fun (key, value) =>
    match u.get? key with
    | some other => eq value other
    | none => false

/-- Equality of tables: the order of the entries does not matter. -/
def same (eq : α → α → Bool) (t u : Table α) : Bool :=
  t.length == u.length && t.within eq u

end Table

end EGraphSearch
