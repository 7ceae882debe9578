import EGraphSearch.Scalar

/-!
# Sums by blocks

The sum of a sample in a fixed order of additions: short samples from left to right, middling ones
in eight interleaved columns, and long ones as the sum of two halves.  In exact arithmetic the
order makes no difference; in doubles it keeps the rounding error small.
-/

set_option autoImplicit false

namespace EGraphSearch.Sum

variable {α : Type} [Scalar α]

def addRow (columns row : List α) : List α := List.zipWith (· + ·) columns row

/-- The columns after all complete rows of eight, and what is left over. -/
def columns : Nat → List α → List α → List α × List α
  | 0, acc, rest => (acc, rest)
  | rows + 1, acc, rest => columns rows (addRow acc (rest.take 8)) (rest.drop 8)

def joinColumns : List α → α
  | [a, b, c, d, e, f, g, h] => ((a + b) + (c + d)) + ((e + f) + (g + h))
  | cs => cs.foldl (· + ·) Scalar.zero

def block (xs : List α) : α :=
  if xs.length < 8 then xs.foldl (· + ·) Scalar.zero
  else
    let (cs, rest) := columns (xs.length / 8 - 1) (xs.take 8) (xs.drop 8)
    rest.foldl (· + ·) (joinColumns cs)

/-- Where a long sample is cut: at a multiple of eight next to its middle. -/
def cut (n : Nat) : Nat := n / 2 - n / 2 % 8

theorem cut_lt {n : Nat} (long : 128 < n) : 0 < cut n ∧ cut n < n := by
  unfold cut; omega

def total (xs : List α) : α :=
  if _long : 128 < xs.length then
    total (xs.take (cut xs.length)) + total (xs.drop (cut xs.length))
  else block xs
termination_by xs.length
decreasing_by
  · have := cut_lt _long
    simp only [List.length_take]; omega
  · have := cut_lt _long
    simp only [List.length_drop]; omega

end EGraphSearch.Sum
