import EGraphSearch.Number.Basic

/-!
# Budgets

A budget limits the number of playouts, the time, or both.  Each playout claims its index before it
starts, so indices are handed out without gaps and no more of them than the limit allows.  Time is
an input, and stands still at zero unless somebody moves it.  Nothing that is run on a budget moves
it, so there a limit on the time says only whether there is any time at all; runs that a clock may
stop take the clock as an input of their own.
-/

set_option autoImplicit false

namespace EGraphSearch

structure Budget where
  maxPlayouts : Option Number
  timeLimit : Option Number
  /-- The number of playouts claimed so far, and the index of the next one. -/
  claimed : Nat := 0
  /-- Seconds since the start. -/
  elapsed : Nat := 0

namespace Budget

def exhausted (b : Budget) : Bool :=
  b.maxPlayouts.any (·.reachedBy b.claimed) || b.timeLimit.any (·.reachedBy b.elapsed)

def claim (b : Budget) : Option (Nat × Budget) :=
  if b.exhausted then none else some (b.claimed, { b with claimed := b.claimed + 1 })

/-- How many playouts are left at most; `none` without a limit on their number. -/
def remaining? (b : Budget) : Option Nat :=
  match b.maxPlayouts with
  | none => none
  | some limit => limit.ceiling?.map (· - b.claimed)

end Budget

end EGraphSearch
