import EGraphSearch.Random.Pcg64

/-!
# Seeded or scripted draws

A source that either follows a seed or a script, for runs that may use both.
-/

set_option autoImplicit false

namespace EGraphSearch

inductive Source where
  | seeded (generator : Pcg64)
  | scripted (script : Script)

namespace Source

def draw {β : Type} (fromGenerator : Pcg64 → β × Pcg64) (fromScript : Script → β × Script) :
    Source → β × Source
  | seeded g => let (drawn, g) := fromGenerator g; (drawn, seeded g)
  | scripted s => let (drawn, s) := fromScript s; (drawn, scripted s)

instance : Draws Source where
  below bound := draw (Draws.below bound) (Draws.below bound)
  unit := draw Draws.unit Draws.unit
  weighted probabilities := draw (Draws.weighted probabilities) (Draws.weighted probabilities)

/-- Sixty-four random bits; a script has none. -/
def next64? : Source → Option UInt64 × Source
  | seeded g => let (word, g) := g.next64; (some word, seeded g)
  | source => (none, source)

end Source

end EGraphSearch
