import EGraphSearch.Proofs.EGraph.Records
import EGraphSearch.Proofs.Term.Heights

/-!
# What can be extracted

Records that fit together are numbered whatever the order of their nodes, and the settled levels of
the numbered classes are the heights of their lowest terms.  Construction refuses such records only
if the root has no term at all.
-/

set_option autoImplicit false

namespace EGraphSearch.EGraph

open Picks (IsTerm IsTermOf HasHeight)

/-- The e-graph of an arena, whether or not its root can be extracted. -/
def leveled (a : Arena) : EGraph := { a with levels := Levels.ofArena a }

/-- The levels of classes are least heights of terms, the levels of nodes one above their
children. -/
structure LeastHeights (g : EGraph) : Prop where
  class_finite : ∀ c < g.numClasses, ∀ h, g.classLevel c = .finite h ↔
    IsLeast {k | ∃ f, IsTermOf g c f ∧ HasHeight g f c k} h
  class_infinite : ∀ c < g.numClasses, g.classLevel c = .infinite ↔ ∀ f, ¬ IsTermOf g c f
  class_lowest : ∀ c < g.numClasses,
    IsLeast (insert .infinite {level | ∃ n ∈ g.membersOf c, g.nodeLevel n = level})
      (g.classLevel c)
  node_above : ∀ n < g.numNodes,
    g.nodeLevel n = Level.above ((g.childrenOf n).map g.classLevel)

theorem Leveled.leastHeights {g : EGraph} (leveled : g.Leveled) : LeastHeights g where
  class_finite _ inside := leveled.classLevel_eq_finite_iff inside
  class_infinite _ inside := leveled.classLevel_eq_infinite_iff inside
  class_lowest := leveled.sound.lowest leveled.wellFormed
  node_above _ inside := leveled.nodeLevel_eq inside

theorem ofArena_cases {a : Arena} (wf : a.WellFormed) (root : Label) :
    (ofArena a root = .ok (leveled a) ∧ ∃ f, IsTerm (leveled a) f) ∨
      (ofArena a root = .error (.rootNotExtractable root) ∧ ∀ f, ¬ IsTerm (leveled a) f) := by
  have settled : (leveled a).Leveled := ⟨wf, rfl⟩
  cases level : (leveled a).classLevel a.root with
  | finite h =>
      left
      obtain ⟨f, term, _⟩ := settled.exists_falling_term wf.root_lt level
      have level : (Levels.ofArena a).classLevel a.root = .finite h := level
      exact ⟨by simp only [ofArena, level, leveled], f, Picks.isTerm_iff.mpr term⟩
  | infinite =>
      right
      have without := (settled.classLevel_eq_infinite_iff wf.root_lt).mp level
      have level : (Levels.ofArena a).classLevel a.root = .infinite := level
      exact ⟨by simp only [ofArena, level], fun f term => without f (Picks.isTerm_iff.mp term)⟩

variable {classes : List EClass} {nodes : List ENode} {root : Label}

theorem levels_are_least_heights (fitting : Fitting classes nodes root) :
    ∃ a, arrange classes nodes root = .ok a ∧
      a.classIds.toList = classes.map EClass.id ∧ a.nodeIds.toList = nodes.map ENode.id ∧
      LeastHeights (leveled a) ∧
      (build classes nodes root = .ok (leveled a) ↔ ∃ f, IsTerm (leveled a) f) ∧
      (build classes nodes root = .error (.rootNotExtractable root) ↔
        ∀ f, ¬ IsTerm (leveled a) f) := by
  obtain ⟨a, arranged, classList, nodeList, _⟩ := fitting.exists_arena
  have wf := arrange_wellFormed arranged
  have settled : (leveled a).Leveled := ⟨wf, rfl⟩
  have built : build classes nodes root = ofArena a root := by
    simp [build, arranged, bind, Except.bind]
  refine ⟨a, arranged, classList, nodeList, settled.leastHeights, ?_⟩
  rw [built]
  rcases ofArena_cases wf root with ⟨made, term⟩ | ⟨refused, without⟩
  · rw [made]
    simpa using term
  · rw [refused]
    simpa using without

/-! The levels of these classes are found from the last node upwards, against their order. -/

def stairClasses : List EClass :=
  [⟨.text "a", [.text "f"]⟩, ⟨.text "b", [.text "g"]⟩, ⟨.text "c", [.text "h", .text "x"]⟩]

def stairNodes : List ENode :=
  [⟨.text "f", .text "f", [.text "b", .text "c"]⟩, ⟨.text "g", .text "g", [.text "c"]⟩,
    ⟨.text "h", .text "h", [.text "b"]⟩, ⟨.text "x", .text "x", []⟩]

theorem levels_are_least_heights_stair :
    Fitting stairClasses stairNodes (.text "a") ∧
    ∃ a, arrange stairClasses stairNodes (.text "a") = .ok a ∧
      a.classIds.toList = stairClasses.map EClass.id ∧
      a.nodeIds.toList = stairNodes.map ENode.id ∧ LeastHeights (leveled a) ∧
      (build stairClasses stairNodes (.text "a") = .ok (leveled a) ↔
        ∃ f, IsTerm (leveled a) f) ∧
      (build stairClasses stairNodes (.text "a") = .error (.rootNotExtractable (.text "a")) ↔
        ∀ f, ¬ IsTerm (leveled a) f) := by
  have fitting : Fitting stairClasses stairNodes (.text "a") := by
    constructor <;> decide
  exact ⟨fitting, levels_are_least_heights fitting⟩

end EGraphSearch.EGraph
