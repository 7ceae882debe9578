import EGraphSearch.Proofs.EGraph.Levels
import EGraphSearch.Term
import Mathlib.Data.Fintype.EquivFin
import Mathlib.Logic.Relation
import Mathlib.Order.WellFounded

/-!
# Terms as choices of nodes

By number, a term is a partial choice of a node for each class.  Such a choice is a term if it is
rooted, picks members only, is closed under children, is acyclic and hangs together from the root.
Whatever is picked in such a choice has a finite level, since its subterm is acyclic.
-/

set_option autoImplicit false

namespace EGraphSearch

open Relation (TransGen ReflTransGen)

/-! ## Names of classes and nodes -/

namespace EGraph

variable {g : EGraph}

theorem position?_classLabel (wf : g.toArena.WellFormed) {c : Nat} {label : Label}
    (inside : c < g.numClasses) (same : (g.classLabel c == label) = true) :
    Label.position? g.classIds label = some c :=
  Label.Distinct.position?_eq wf.classIds_distinct inside same

theorem position?_nodeLabel (wf : g.toArena.WellFormed) {n : Nat} {label : Label}
    (inside : n < g.numNodes) (same : (g.nodeLabel n == label) = true) :
    Label.position? g.nodeIds label = some n :=
  Label.Distinct.position?_eq wf.nodeIds_distinct inside same

theorem classLabel_inj (wf : g.toArena.WellFormed) {c d : Nat} (hc : c < g.numClasses)
    (hd : d < g.numClasses) (same : (g.classLabel c).key = (g.classLabel d).key) : c = d :=
  Label.Distinct.eq_of_beq wf.classIds_distinct hc hd ((Label.beq_iff_key_eq _ _).mpr same)

theorem classIndex_lt {cls : Label} {c : Nat} (found : g.classIndex cls = .ok c) :
    c < g.numClasses := by
  unfold classIndex at found
  split at found
  · rename_i position
    cases found
    exact (Label.position?_eq_some position).1
  · cases found

theorem nodeIndex_eq_ok {node : Label} {n : Nat} :
    g.nodeIndex node = .ok n ↔ Label.position? g.nodeIds node = some n := by
  unfold nodeIndex
  split
  · rename_i m found
    simp [found]
  · rename_i missing
    simp [missing]

theorem nodeIndex_lt {node : Label} {n : Nat} (found : g.nodeIndex node = .ok n) :
    n < g.numNodes :=
  (Label.position?_eq_some (nodeIndex_eq_ok.mp found)).1

end EGraph

/-! ## Choices -/

abbrev Picks := Nat → Option Nat

namespace Picks

variable {g : EGraph} {f : Picks}

def Uses (g : EGraph) (f : Picks) (c d : Nat) : Prop :=
  ∃ n, f c = some n ∧ d ∈ g.childrenOf n

/-- The choices that make a term. -/
structure IsTerm (g : EGraph) (f : Picks) : Prop where
  root_picked : (f g.root).isSome
  member : ∀ c n, f c = some n → c < g.numClasses ∧ n < g.numNodes ∧ g.ownerOf n = c
  closed : ∀ c d, f.Uses g c d → (f d).isSome
  acyclic : ∀ c, ¬ TransGen (f.Uses g) c c
  connected : ∀ c, (f c).isSome → ReflTransGen (f.Uses g) g.root c

theorem Uses.picked {c d : Nat} (uses : f.Uses g c d) : (f c).isSome := by
  obtain ⟨n, picked, _⟩ := uses
  simp [picked]

theorem Uses.mono {f' : Picks} (sub : ∀ c n, f c = some n → f' c = some n) {c d : Nat}
    (uses : f.Uses g c d) : f'.Uses g c d := by
  obtain ⟨n, picked, child⟩ := uses
  exact ⟨n, sub c n picked, child⟩

theorem reaches_closed {p : Nat → Prop} (closed : ∀ c d, p c → f.Uses g c d → p d) {c d : Nat}
    (start : p c) (walk : ReflTransGen (f.Uses g) c d) : p d := by
  induction walk with
  | refl => exact start
  | tail _ uses ih => exact closed _ _ ih uses

theorem IsTerm.reaches (wf : g.toArena.WellFormed) (term : IsTerm g f) {c : Nat}
    (picked : (f c).isSome) : g.Reaches c := by
  refine reaches_closed ?_ .root (term.connected c picked)
  rintro d e reached ⟨n, chosen, child⟩
  obtain ⟨inside, lt, owner⟩ := term.member d n chosen
  exact .child reached ((wf.member_iff d inside n lt).mpr owner) child

/-! ## Levels -/

/-- Classes are finite in number, so along the uses of an acyclic choice one cannot go on for
ever. -/
theorem wellFounded_uses (acyclic : ∀ c, ¬ TransGen (f.Uses g) c c) :
    WellFounded fun a b : Fin g.numClasses => TransGen (f.Uses g) b.1 a.1 := by
  have : IsTrans (Fin g.numClasses) fun a b => TransGen (f.Uses g) b.1 a.1 :=
    ⟨fun a b c first second => second.trans first⟩
  have : Std.Irrefl fun a b : Fin g.numClasses => TransGen (f.Uses g) b.1 a.1 :=
    ⟨fun a cycle => acyclic a.1 cycle⟩
  exact Finite.wellFounded_of_trans_of_irrefl _

/-- An acyclic choice that is closed under children picks nodes of finite level only. -/
theorem IsTerm.level_finite (accepted : g.Accepted) (term : IsTerm g f) {c n : Nat}
    (picked : f c = some n) : ∃ h, g.nodeLevel n = .finite h := by
  have wf := wellFounded_uses term.acyclic
  have climb : ∀ c : Fin g.numClasses, ∀ n, f c.1 = some n → ∃ h, g.nodeLevel n = .finite h := by
    intro c
    induction c using wf.induction with
    | _ c ih =>
        intro n picked
        have inside := (term.member c.1 n picked).2.1
        rw [accepted.leveled.nodeLevel_eq inside]
        apply Level.above_finite
        intro level member
        obtain ⟨d, child, rfl⟩ := List.mem_map.mp member
        obtain ⟨m, pickedChild⟩ :=
          Option.isSome_iff_exists.mp (term.closed c.1 d ⟨n, picked, child⟩)
        obtain ⟨lt, mlt, owner⟩ := term.member d m pickedChild
        obtain ⟨h, level⟩ := ih ⟨d, lt⟩ (.single ⟨n, picked, child⟩) m pickedChild
        have le := accepted.leveled.classLevel_le mlt
        rw [owner, level] at le
        cases below : g.classLevel d with
        | finite k => exact ⟨k, rfl⟩
        | infinite =>
            rw [below] at le
            exact absurd le (Level.not_infinite_le_finite h)
  exact climb ⟨c, (term.member c n picked).1⟩ n picked

end Picks

/-- The choice by number that a term makes by name. -/
def Term.picks (g : EGraph) (t : Term) : Picks := fun c =>
  if c < g.numClasses then (t.assignment.get? (g.classLabel c)).bind (Label.position? g.nodeIds)
  else none

end EGraphSearch
