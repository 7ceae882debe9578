import EGraphSearch.Proofs.Tracker.Exclusion
import EGraphSearch.Proofs.Tracker.Twins

/-!
# Dead ends come from cycles

A class becomes pending as a child of a node of finite level, or as the root, so it always has a
node of finite level.  Whatever else makes a node illegal is a child that is the pending class or
one of its ancestors.  Where no class depends on itself, this cannot happen.
-/

set_option autoImplicit false

namespace EGraphSearch

open Relation (TransGen ReflTransGen)

namespace EGraph

variable {g : EGraph}

def Depends (g : EGraph) (c d : Nat) : Prop :=
  ∃ n ∈ g.membersOf c, (g.nodeLevel n).isFinite = true ∧ d ∈ g.childrenOf n

/-- No class that the root depends on depends on itself. -/
def Layered (g : EGraph) : Prop :=
  ∀ c, ReflTransGen g.Depends g.root c → ¬ TransGen g.Depends c c

/-- If the children of nodes have larger numbers than the classes, no class depends on itself. -/
theorem layered_of_ascending (ascending : ∀ c n d, n ∈ g.membersOf c → d ∈ g.childrenOf n → c < d) :
    g.Layered := by
  have later : ∀ c d, TransGen g.Depends c d → c < d := by
    intro c d walk
    induction walk with
    | single edge =>
        obtain ⟨n, member, _, child⟩ := edge
        exact ascending _ n _ member child
    | tail _ edge ih =>
        obtain ⟨n, member, _, child⟩ := edge
        exact Nat.lt_trans ih (ascending _ n _ member child)
  exact fun c _ cycle => Nat.lt_irrefl c (later c c cycle)

theorem Leveled.child_finite (leveled : g.Leveled) {n d : Nat} (inside : n < g.numNodes)
    (finite : (g.nodeLevel n).isFinite = true) (child : d ∈ g.childrenOf n) :
    (g.classLevel d).isFinite = true := by
  obtain ⟨h, level⟩ := (Level.isFinite_iff _).mp finite
  rw [leveled.nodeLevel_eq inside] at level
  have below := Level.lt_of_mem_above level (g.classLevel d) (List.mem_map_of_mem child)
  cases classLevel : g.classLevel d with
  | finite k => rfl
  | infinite => simp [classLevel] at below

end EGraph

namespace Tracker

variable {g : EGraph} {t : Tracker} {p : Nat}

/-! ## The pending class -/

theorem Inv.depends_of_uses (wf : g.toArena.WellFormed) (inv : Inv g t) {c d : Nat}
    (uses : Picks.Uses g t.choice c d) : g.Depends c d := by
  obtain ⟨n, chosen, child⟩ := uses
  exact ⟨n, (inv.offers wf chosen).member, (inv.member c n chosen).2.2, child⟩

theorem Inv.depends_pending (wf : g.toArena.WellFormed) (inv : Inv g t)
    (pending : t.pending = some p) : ReflTransGen g.Depends g.root p :=
  ReflTransGen.mono (fun _ _ => inv.depends_of_uses wf) _ _
    ((inv.waiting p pending).2.connected inv.chosen)

theorem Inv.pending_finite (accepted : g.Accepted) (inv : Inv g t) (pending : t.pending = some p) :
    (g.classLevel p).isFinite = true := by
  have waits := (inv.waiting p pending).2
  cases stack : t.stack with
  | nil =>
      rw [stack] at waits
      obtain ⟨h, level⟩ := accepted.root_finite
      rw [show p = g.root from waits, level]
      rfl
  | cons frame below =>
      rw [stack] at waits
      obtain ⟨lt, _, finite⟩ := inv.member _ _ (inv.chosen frame (by simp [stack]))
      exact accepted.leveled.child_finite lt finite (List.mem_of_getElem? waits.1)

/-! ## Dead ends -/

/-- A child stands in the way of a node for the pending class: it is that class or an ancestor. -/
def Blocks (t : Tracker) (p d : Nat) : Prop := d = p ∨ d ∈ t.ancestorPath

theorem Inv.isLegalFor_iff_unblocked (wf : g.toArena.WellFormed) (inv : Inv g t)
    (pending : t.pending = some p) {n : Nat} (member : n ∈ g.membersOf p) :
    t.isLegalFor g p n = true ↔
      (g.nodeLevel n).isFinite = true ∧ ∀ d ∈ g.childrenOf n, ¬ t.Blocks p d := by
  obtain ⟨isOpen, _⟩ := inv.waiting p pending
  have inside := (inv.reaches_pending wf pending).lt wf
  have owner := (wf.member_iff p inside n (wf.member_lt p inside n member)).mp member
  rw [isLegalFor_iff, and_iff_right isOpen, and_iff_right owner]
  refine and_congr_right fun _ => forall₂_congr fun d _ => ?_
  rw [Blocks, not_or, ← (inv.cycleFree wf).marked_iff, Bool.not_eq_true]

theorem Inv.isDeadEnd_iff (wf : g.toArena.WellFormed) (inv : Inv g t)
    (pending : t.pending = some p) : t.isDeadEnd g = true ↔
      ∀ n ∈ g.membersOf p, (g.nodeLevel n).isFinite = true →
        ∃ d ∈ g.childrenOf n, t.Blocks p d := by
  have waiting : t.isTerminal = false := by simp [isTerminal, pending]
  simp only [isDeadEnd, waiting, Bool.not_false, Bool.true_and, List.isEmpty_iff, legalMoves,
    pending, List.filter_eq_nil_iff]
  refine forall₂_congr fun n member => ?_
  rw [inv.isLegalFor_iff_unblocked wf pending member]
  simp only [not_and, not_forall, not_not, exists_prop]

/-- A class that the pending class depends on is no ancestor unless there is a cycle. -/
theorem Inv.cycle_of_blocks (wf : g.toArena.WellFormed) (inv : Inv g t)
    (pending : t.pending = some p) {d : Nat} (edge : g.Depends p d) (blocks : t.Blocks p d) :
    TransGen g.Depends p p := by
  rcases blocks with rfl | ancestor
  · exact .single edge
  · have listed : d ∈ t.stack.map Frame.cls := by simpa [ancestorPath] using ancestor
    have walk := (inv.waiting p pending).2.reaches inv.chosen d listed
    exact TransGen.head edge (TransGen.mono (fun _ _ => inv.depends_of_uses wf) _ _ walk)

theorem Inv.not_deadEnd (accepted : g.Accepted) (layered : g.Layered) (inv : Inv g t) :
    t.isDeadEnd g = false := by
  have wf := accepted.wellFormed
  cases pending : t.pending with
  | none => simp [isDeadEnd, isTerminal, pending]
  | some p =>
      rw [← Bool.not_eq_true, inv.isDeadEnd_iff wf pending]
      intro blocked
      obtain ⟨h, level⟩ := (Level.isFinite_iff _).mp (inv.pending_finite accepted pending)
      have inside := (inv.reaches_pending wf pending).lt wf
      obtain ⟨n, lt, owner, same⟩ := accepted.leveled.exists_shallowest inside level
      have member := (wf.member_iff p inside n lt).mpr owner
      have finite : (g.nodeLevel n).isFinite = true := by rw [same]; rfl
      obtain ⟨d, child, blocks⟩ := blocked n member finite
      exact layered p (inv.depends_pending wf pending)
        (inv.cycle_of_blocks wf pending ⟨n, member, finite, child⟩ blocks)

/-- What can keep a tracker from its next move. -/
structure Obstruction (g : EGraph) (t : Tracker) : Prop where
  /-- The static filter leaves the pending class a node. -/
  pending_finite : ∀ p, t.pending = some p → (g.classLevel p).isFinite = true
  deadEnd_iff : t.isDeadEnd g = true ↔ ∃ p, t.pending = some p ∧
    ∀ n ∈ g.membersOf p, (g.nodeLevel n).isFinite = true →
      ∃ d ∈ g.childrenOf n, d = p ∨ d ∈ t.ancestorPath

theorem Inv.obstruction (accepted : g.Accepted) (inv : Inv g t) : Obstruction g t where
  pending_finite _ := inv.pending_finite accepted
  deadEnd_iff := by
    cases pending : t.pending with
    | none => simp [isDeadEnd, isTerminal, pending]
    | some p =>
        rw [inv.isDeadEnd_iff accepted.wellFormed pending]
        simp [Blocks]

end Tracker

end EGraphSearch
