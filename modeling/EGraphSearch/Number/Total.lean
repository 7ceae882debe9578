/-!
# Totals

The sum of natural numbers, the later ones first.
-/

set_option autoImplicit false

namespace EGraphSearch

def total : List Nat → Nat
  | [] => 0
  | first :: rest => first + total rest

@[simp] theorem total_nil : total [] = 0 := rfl

@[simp] theorem total_cons (first : Nat) (rest : List Nat) :
    total (first :: rest) = first + total rest := rfl

end EGraphSearch
