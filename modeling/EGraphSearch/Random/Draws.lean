import EGraphSearch.Fault

/-!
# Sources of random draws

A search asks a source for three kinds of draw: a number below a bound, a double in the unit
interval, and an index chosen with given probabilities.  Any type with these draws will do, so
that a statement about every outcome of the draws quantifies over sources.
-/

set_option autoImplicit false

namespace EGraphSearch

/-- A draw may be refused; the source moves on either way. -/
class Draws (ρ : Type) where
  below : Nat → ρ → Except Fault Nat × ρ
  unit : ρ → Float × ρ
  weighted : List Float → ρ → Except Fault Nat × ρ

namespace Draws

variable {ρ : Type} [Draws ρ]

/-- A whole number from `low` up to but not including `high`, both of which fit into 64 bits. -/
def between (low high : Int) (source : ρ) : Except Fault Int × ρ :=
  if low < -9223372036854775808 then (.error (.outOfRange .lowOutOfBounds), source)
  else if 9223372036854775808 < high then (.error (.outOfRange .highOutOfBounds), source)
  else if low < high then
    match below (high - low).toNat source with
    | (.ok n, source) => (.ok (low + n), source)
    | (.error fault, source) => (.error fault, source)
  else if low = 0 then (.error (.outOfRange .emptyBelow), source)
  else (.error (.outOfRange .emptyBetween), source)

def manyBelow (bound : Nat) : Nat → ρ → Except Fault (List Nat) × ρ
  | 0, source => (.ok [], source)
  | count + 1, source =>
    match below bound source with
    | (.error fault, source) => (.error fault, source)
    | (.ok first, source) =>
      match manyBelow bound count source with
      | (.error fault, source) => (.error fault, source)
      | (.ok rest, source) => (.ok (first :: rest), source)

def sample (population : Int) (count : Nat) (source : ρ) : Except Fault (List Nat) × ρ :=
  if population ≤ 0 ∧ count ≠ 0 then (.error (.outOfRange .emptyPopulation), source)
  else manyBelow population.toNat count source

def weightedOf (population : Int) (probabilities : List Float) (source : ρ) :
    Except Fault Nat × ρ :=
  if population ≤ 0 then (.error (.outOfRange .emptyPopulation), source)
  else if population ≠ probabilities.length then (.error (.outOfRange .unequalSizes), source)
  else weighted probabilities source

end Draws

/-- A source asked for draws from ranges: a whole number from a range, a sample with replacement
from the first so many numbers, and a double in the unit interval. -/
class RangeDraws (ρ : Type) where
  between : Int → Int → ρ → Except Fault Int × ρ
  sample : Int → Nat → ρ → Except Fault (List Nat) × ρ
  unit : ρ → Float × ρ

instance {ρ : Type} [Draws ρ] : RangeDraws ρ := ⟨Draws.between, Draws.sample, Draws.unit⟩

/-- Draws written down in advance: each takes the next entry, over and over again, modulo the
bound. -/
structure Script where
  entries : List Int
  position : Nat := 0

namespace Script

def below (bound : Nat) (s : Script) : Except Fault Nat × Script :=
  let moved := { s with position := s.position + 1 }
  if bound = 0 ∨ s.entries.isEmpty then (.error .remainderByZero, moved)
  else
    let entry := s.entries.getD (s.position % s.entries.length) 0
    (.ok (entry % (bound : Int)).toNat, moved)

instance : Draws Script where
  below := below
  unit s := (0, { s with position := s.position + 1 })
  weighted probabilities s := below probabilities.length s

end Script

end EGraphSearch
