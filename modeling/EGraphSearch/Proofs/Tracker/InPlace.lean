import EGraphSearch.Proofs.Tracker.Exclusion
import EGraphSearch.Proofs.Tracker.Terms

/-!
# Moves in place

A tracker that is changed in place may be left half changed when a move fails: by then frames have
moved on or are gone, and marks are cleared.  Here a move is made in place, one write after the
other, and a failure comes with the tracker as it stands at that moment.  In every tracker that
legal moves lead to, only the test at the beginning can fail, and it has written nothing.
-/

set_option autoImplicit false

namespace EGraphSearch

namespace Tracker

/-! ## The writes of a move -/

/-- Moves the innermost frame past its resolved children; whether it has met an open one. -/
def passChildren (g : EGraph) (t : Tracker) (below : List Frame) :
    List Nat → Frame → EStateM.Result Fault Tracker Bool
  | [], frame => .ok false { t with stack := frame :: below }
  | child :: rest, frame =>
    if t.isOpen child then .ok true { t with stack := frame :: below, pending := some child }
    else if t.inProgress child then
      .error (.violation (.closesCycle (g.classLabel child))) { t with stack := frame :: below }
    else passChildren g t below rest { frame with position := frame.position + 1 }

/-- Pops finished frames, each with its mark, until one waits for an open child. -/
def popFrames (g : EGraph) (t : Tracker) : List Frame → EStateM.Result Fault Tracker Unit
  | [] => .ok () { t with stack := [], pending := none }
  | frame :: below =>
    match passChildren g t below ((g.childrenOf frame.node).drop frame.position) frame with
    | .error fault after => .error fault after
    | .ok true after => .ok () after
    | .ok false after =>
      popFrames g
        { after with stack := below, onPath := after.onPath.setIfInBounds frame.cls false } below

/-- Resolves the pending class in place. -/
def applyInPlace (g : EGraph) (t : Tracker) (n : Nat) : EStateM.Result Fault Tracker Unit :=
  if n < g.numNodes then
    match t.pending with
    | some p =>
      if t.isLegalFor g p n then
        let entered := (t.assign p n).enter g p n
        entered.popFrames g entered.stack
      else .error (.violation (.illegalMove (g.nodeLabel n) (some (g.classLabel p)))) t
    | none => .error (.violation (.illegalMove (g.nodeLabel n) none)) t
  else .error .noSuchIndex t

def outcome : EStateM.Result Fault Tracker Unit → Except Fault Tracker
  | .ok _ after => .ok after
  | .error fault _ => .error fault

/-! ## The same moves -/

section Outcome

variable {g : EGraph} {t : Tracker}

theorem passChildren_eq (below : List Frame) (children : List Nat) (frame : Frame) :
    (∃ fault after, t.firstOpen g children frame.position = .error fault ∧
      passChildren g t below children frame = .error fault after) ∨
    (∃ child position, t.firstOpen g children frame.position = .ok (some (child, position)) ∧
      passChildren g t below children frame = .ok true
        { t with stack := { frame with position := position } :: below, pending := some child }) ∨
    (∃ position, t.firstOpen g children frame.position = .ok none ∧
      passChildren g t below children frame = .ok false
        { t with stack := { frame with position := position } :: below }) := by
  induction children generalizing frame with
  | nil => exact .inr (.inr ⟨frame.position, rfl, rfl⟩)
  | cons child rest ih =>
      simp only [firstOpen, passChildren]
      cases t.isOpen child with
      | true => exact .inr (.inl ⟨child, frame.position, rfl, rfl⟩)
      | false =>
          cases t.inProgress child with
          | true => exact .inl ⟨_, _, rfl, rfl⟩
          | false => exact ih { frame with position := frame.position + 1 }

theorem firstOpen_congr {u : Tracker} (assigned : u.assigned = t.assigned)
    (onPath : u.onPath = t.onPath) (children : List Nat) (position : Nat) :
    u.firstOpen g children position = t.firstOpen g children position := by
  induction children generalizing position with
  | nil => rfl
  | cons child rest ih =>
      have sameOpen : u.isOpen child = t.isOpen child := by rw [isOpen, isOpen, assigned]
      have sameMark : u.inProgress child = t.inProgress child := by
        rw [inProgress, inProgress, onPath]
      simp only [firstOpen, sameOpen, sameMark, ih]

theorem outcome_popFrames (frames stale : List Frame) :
    outcome (popFrames g t frames) = advance g { t with stack := stale } frames := by
  induction frames generalizing t stale with
  | nil => rfl
  | cons frame below ih =>
      have same := firstOpen_congr (g := g) (t := t) (u := { t with stack := stale }) rfl rfl
        ((g.childrenOf frame.node).drop frame.position) frame.position
      simp only [popFrames, advance, same]
      rcases passChildren_eq (g := g) (t := t) below
          ((g.childrenOf frame.node).drop frame.position) frame with
        ⟨fault, after, found, passed⟩ | ⟨child, position, found, passed⟩ | ⟨position, found, passed⟩
      · simp only [found, passed, outcome]
      · simp only [found, passed, outcome]
      · simp only [found, passed]
        exact ih stale

theorem outcome_applyInPlace (n : Nat) : outcome (t.applyInPlace g n) = t.apply g n := by
  by_cases inside : n < g.numNodes
  · simp only [applyInPlace, apply, if_pos inside]
    cases t.pending with
    | none => rfl
    | some p =>
        by_cases legal : t.isLegalFor g p n = true
        · simp only [if_pos legal]
          exact outcome_popFrames _ _
        · simp only [if_neg legal]
          rfl
  · simp only [applyInPlace, apply, if_neg inside]
    rfl

theorem applyInPlace_eq_ok {u : Tracker} {n : Nat} (applied : t.apply g n = .ok u) :
    t.applyInPlace g n = .ok () u := by
  rw [← outcome_applyInPlace] at applied
  cases made : t.applyInPlace g n with
  | ok _ after =>
      rw [made] at applied
      rw [← Except.ok.inj applied]
  | error fault after =>
      rw [made] at applied
      simp [outcome] at applied

end Outcome

/-! ## All or nothing -/

/-- How a move of node `n` ends in a tracker that is changed in place. -/
structure AllOrNothing (g : EGraph) (t : Tracker) (n : Nat) : Prop where
  same : outcome (t.applyInPlace g n) = t.apply g n
  violates_iff : (∃ violation after, t.applyInPlace g n = .error (.violation violation) after) ↔
    n ∉ t.legalMoves g
  /-- A move that is refused has written nothing. -/
  refused : n ∉ t.legalMoves g → t.applyInPlace g n =
    .error (.violation (.illegalMove (g.nodeLabel n) (t.pendingLabel g))) t
  resolved : n ∈ t.legalMoves g → ∃ p u, t.pending = some p ∧ t.applyInPlace g n = .ok () u ∧
    u.assigned = t.assigned.setIfInBounds p (some n) ∧
    (∀ c, u.choice c = if c = p then some n else t.choice c) ∧ u.order = t.order ++ [p] ∧
    u.assignment g = t.assignment g ++ [(g.classLabel p, g.nodeLabel n)]
  closes_no_cycle : ∀ cls after, t.applyInPlace g n ≠ .error (.violation (.closesCycle cls)) after

section Moves

variable {g : EGraph} {t u : Tracker} {n : Nat}

theorem applyInPlace_of_illegal (wf : g.toArena.WellFormed) (inv : Inv g t)
    (inside : n < g.numNodes) (illegal : n ∉ t.legalMoves g) : t.applyInPlace g n =
      .error (.violation (.illegalMove (g.nodeLabel n) (t.pendingLabel g))) t := by
  simp only [applyInPlace, if_pos inside, pendingLabel]
  cases pending : t.pending with
  | none => rfl
  | some p =>
      have refused : ¬ t.isLegalFor g p n = true := fun legal =>
        illegal ((mem_legalMoves_iff wf inv).mpr ⟨p, pending, inside, legal⟩)
      simp only [if_neg refused]
      rfl

theorem assigned_of_apply {p : Nat} (pending : t.pending = some p) (applied : t.apply g n = .ok u) :
    u.assigned = t.assigned.setIfInBounds p (some n) := by
  unfold apply at applied
  split at applied
  · simp only [pending] at applied
    split at applied
    · rw [advance_assigned applied]
      unfold enter
      split <;> rfl
    · simp at applied
  · simp at applied

theorem Inv.allOrNothing (wf : g.toArena.WellFormed) (inv : Inv g t) (inside : n < g.numNodes) :
    AllOrNothing g t n := by
  have refused := applyInPlace_of_illegal wf inv inside
  by_cases legal : n ∈ t.legalMoves g
  · obtain ⟨u, applied, _⟩ := apply_of_mem_legalMoves wf inv legal
    obtain ⟨p, pending, _, _, _, order, choice⟩ := inv.of_apply wf applied
    have made := applyInPlace_eq_ok applied
    refine ⟨outcome_applyInPlace n, ?_, refused, ?_, ?_⟩
    · simp [made, legal]
    · intro _
      exact ⟨p, u, pending, made, assigned_of_apply pending applied, choice, order,
        inv.assignment_of_apply wf pending applied⟩
    · simp [made]
  · refine ⟨outcome_applyInPlace n, ?_, refused, fun offered => absurd offered legal, ?_⟩
    · simp [refused legal, legal]
    · simp [refused legal]

end Moves

/-- In every tracker that legal moves lead to, a move resolves the pending class or changes
nothing; it fails in the test at its beginning only, and never while frames are popped. -/
theorem moves_are_all_or_nothing {g : EGraph} {t : Tracker} {moves : List Nat} {n : Nat}
    (accepted : g.Accepted) (run : Leads g (start g) moves t) (inside : n < g.numNodes) :
    AllOrNothing g t n :=
  (run.inv accepted.wellFormed (inv_start accepted.wellFormed)).allOrNothing accepted.wellFormed
    inside

/-- Below `a` the node that leads back to `a` is refused, and the leaf resolves the class. -/
theorem moves_are_all_or_nothing_loop :
    EGraph.loopGraph.Accepted ∧ Leads EGraph.loopGraph (start EGraph.loopGraph) [0] insideLoop ∧
      (2 < EGraph.loopGraph.numNodes ∧ 2 ∉ insideLoop.legalMoves EGraph.loopGraph ∧
        AllOrNothing EGraph.loopGraph insideLoop 2) ∧
      3 < EGraph.loopGraph.numNodes ∧ 3 ∈ insideLoop.legalMoves EGraph.loopGraph ∧
        AllOrNothing EGraph.loopGraph insideLoop 3 := by
  have run : Leads EGraph.loopGraph (start EGraph.loopGraph) [0] insideLoop :=
    .move (by decide) rfl (.stay _)
  exact ⟨EGraph.loopGraph_accepted, run,
    ⟨by decide, by decide, moves_are_all_or_nothing EGraph.loopGraph_accepted run (by decide)⟩,
    by decide, by decide, moves_are_all_or_nothing EGraph.loopGraph_accepted run (by decide)⟩

/-- Legal moves never lead here: with a mark that belongs to no frame, a move that passes the test
fails later, and by then the class has its node. -/
example : applyInPlace EGraph.loopGraph { insideLoop with onPath := #[true, true] } 3 =
    .error (.violation (.closesCycle (.text "b")))
      { insideLoop with assigned := #[some 0, some 3], order := [0, 1], onPath := #[true, true] } :=
  rfl

end Tracker

end EGraphSearch
