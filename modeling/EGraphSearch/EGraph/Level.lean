/-!
# Levels

The level of a class is the height of the shallowest acyclic term rooted there, and infinite when
there is no such term.
-/

set_option autoImplicit false

namespace EGraphSearch

inductive Level where
  | finite (height : Nat)
  | infinite
  deriving DecidableEq, Repr

namespace Level

instance : Inhabited Level := ⟨.infinite⟩

def isFinite : Level → Bool
  | finite _ => true
  | infinite => false

/-- Strictly below; every finite level is below the infinite one. -/
def below : Level → Level → Bool
  | finite m, finite n => m < n
  | finite _, infinite => true
  | infinite, _ => false

def max : Level → Level → Level
  | finite m, finite n => finite (Nat.max m n)
  | _, _ => infinite

def next : Level → Level
  | finite n => finite (n + 1)
  | infinite => infinite

/-- The level of a node over children of the given levels: zero for a leaf, and otherwise one
more than the highest child. -/
def above : List Level → Level
  | [] => finite 0
  | first :: rest => (rest.foldl max first).next

end Level

end EGraphSearch
