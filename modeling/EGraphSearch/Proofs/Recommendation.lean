import EGraphSearch.Proofs.Completion.Exhaustive
import EGraphSearch.Proofs.Visits

/-!
# The recommended term

The final term follows the most visited children as far as the tree goes.  It completes the
innermost tracker on this way that rollouts or backtracking within its limit complete, and at the
start, where backtracking has no limit, one of the two always succeeds.

Attempts at completion are a whole number by declaration, but the checks of settings let others
pass.  With such a number, as with a root that differs from itself, there is no final term.
-/

set_option autoImplicit false

namespace EGraphSearch

variable {σ ρ α : Type} [Scalar α]

/-- What the final term of a tree is, whatever is drawn. -/
structure CompletesDeepest (p : Problem σ ρ α) (attempts : Number) (tree : Tree α) : Prop where
  /-- The greedy path begins at the start, and the final term is valid and extends one of its
  trackers; for each tracker further in, backtracking gave up or there was nothing to find. -/
  completes : ∀ source : ρ, ∃ trackers term,
    greedyPath p.graph tree (Tracker.start p.graph) 0 = .ok trackers ∧
    trackers.head? = some (Tracker.start p.graph) ∧
    (finalTerm p attempts tree source).1 = .ok term ∧ term.validate p.graph = .ok () ∧
    ∃ (depth : Nat) (t : Tracker), trackers[depth]? = some t ∧
      t.assignment p.graph <+: term.assignment ∧
      ∀ further u, depth < further → trackers[further]? = some u →
        searchCompletion p.graph (some completionLimit) u = .gaveUp ∨ ¬ u.Completable p.graph
  /-- If the greedy path ends in a terminal tracker, that one makes the term, and nothing is drawn:
  the term is the same if the moves are chosen in any other way, even if no choice succeeds. -/
  terminal : ∀ trackers last, greedyPath p.graph tree (Tracker.start p.graph) 0 = .ok trackers →
    trackers.getLast? = some last → last.isTerminal = true →
    ∀ (choose : Chooser ρ) (source : ρ),
      finalTerm { p with choose := choose } attempts tree source =
        (.ok ⟨last.assignment p.graph⟩, [])

section FinalTerm

variable {p : Problem σ ρ α} {attempts : Number} {tree : Tree α} {t : Tracker}

theorem Recommended.extends_deepest (wf : p.graph.toArena.WellFormed) {term : Term}
    {trackers : List Tracker} (recommended : Recommended p tree term)
    (path : greedyPath p.graph tree (Tracker.start p.graph) 0 = .ok trackers)
    (invs : ∀ u ∈ trackers, Tracker.Inv p.graph u) :
    ∃ (depth : Nat) (t : Tracker), trackers[depth]? = some t ∧
      t.assignment p.graph <+: term.assignment ∧
      ∀ further u, depth < further → trackers[further]? = some u →
        searchCompletion p.graph (some completionLimit) u = .gaveUp ∨
          ¬ u.Completable p.graph := by
  obtain ⟨found, outer, t, inner, terminal, moves, same, split, run, _, rfl, failed⟩ :=
    recommended.completes
  obtain rfl : trackers = found := Except.ok.inj (path.symm.trans same)
  subst split
  refine ⟨outer.length, t, by simp, run.assignment_extends wf (invs t (by simp)), ?_⟩
  intro further u deeper held
  obtain ⟨k, rfl⟩ := Nat.exists_eq_add_of_lt deeper
  have held : inner[k]? = some u := by
    rw [List.getElem?_append_right (by omega)] at held
    simpa [Nat.add_assoc] using held
  exact failed u (List.mem_of_getElem? held)

omit [Scalar α] in
theorem completeDeepest_terminal (terminal : t.isTerminal = true) (outer : List Tracker)
    (source : ρ) :
    completeDeepest p attempts (t :: outer) source = (.ok (t, outer.length), []) := by
  simp [completeDeepest, complete, terminal]

theorem finalTerm_terminal (wf : p.graph.toArena.WellFormed) (checkable : p.graph.Checkable)
    (inv : Tracker.Inv p.graph t) {trackers : List Tracker}
    (path : greedyPath p.graph tree (Tracker.start p.graph) 0 = .ok trackers)
    (last : trackers.getLast? = some t) (terminal : t.isTerminal = true) (source : ρ) :
    finalTerm p attempts tree source = (.ok ⟨t.assignment p.graph⟩, []) := by
  obtain ⟨outer, rfl⟩ := List.getLast?_eq_some_iff.mp last
  obtain ⟨termOf, valid⟩ := inv.validate_toTerm wf checkable (Tracker.pending_of_terminal terminal)
  simp [finalTerm, path, completeDeepest_terminal terminal, termOf, valid, Except.map]

theorem Faithful.completesDeepest (faithful : Faithful p.graph tree) (accepted : p.graph.Accepted)
    (checkable : p.graph.Checkable) (reliable : p.choose.Reliable p.graph) {count : Int}
    (whole : attempts.int? = some count) : CompletesDeepest p attempts tree := by
  have wf := accepted.wellFormed
  obtain ⟨rest, path, reached⟩ := greedyPath_spec wf faithful _ (Nat.lt_succ_self _)
    faithful.nonempty (replay_root faithful.toLinked)
  have invs := fun u member => (reached u member).1
  constructor
  · intro source
    obtain ⟨term, found⟩ := finalTerm_ok source accepted checkable reliable faithful whole
    have recommended := finalTerm_spec wf faithful found
    exact ⟨_, term, path, rfl, found, recommended.valid,
      recommended.extends_deepest wf path invs⟩
  · intro trackers last same atEnd terminal choose source
    obtain rfl := Except.ok.inj (path.symm.trans same)
    have inv := invs last (List.mem_of_getLast? atEnd)
    exact finalTerm_terminal (p := { p with choose := choose }) wf checkable inv path atEnd terminal
      source

end FinalTerm

/-- The final term completes the deepest greedy tracker that can be completed, on every tree that
walks and changes of statistics lead to, at every point of a search with any playouts in flight, and
at the end of every run. -/
theorem final_term_completes_deepest {plan : Plan σ ρ α} (accepted : plan.graph.Accepted)
    (checkable : plan.graph.Checkable) (reliable : plan.choose.Reliable plan.graph) {count : Int}
    (whole : plan.tuning.completionAttempts.int? = some count) :
    (∀ tree, Explores plan.graph Tree.initial tree →
      CompletesDeepest plan.toProblem plan.tuning.completionAttempts tree) ∧
    (∀ s flying, Traffic plan.toProblem plan.tuning s flying →
      CompletesDeepest plan.toProblem plan.tuning.completionAttempts s.tree) ∧
    ∀ oracle outcome after, extract plan oracle = (.ok outcome, after) →
      CompletesDeepest plan.toProblem plan.tuning.completionAttempts after.tree ∧
      (finalTerm plan.toProblem plan.tuning.completionAttempts after.tree plan.lastStream).1 =
        .ok outcome.term := by
  have wf := accepted.wellFormed
  have landed : ∀ s flying, Traffic plan.toProblem plan.tuning s flying →
      CompletesDeepest plan.toProblem plan.tuning.completionAttempts s.tree := by
    intro s flying traffic
    obtain ⟨ends, routed⟩ := traffic.routed wf
    exact routed.ended.charted.toFaithful.completesDeepest accepted checkable reliable whole
  refine ⟨?_, landed, ?_⟩
  · intro tree explored
    obtain ⟨charted, _⟩ := explored.charted wf charted_initial
    exact charted.toFaithful.completesDeepest accepted checkable reliable whole
  · intro oracle outcome after extracted
    obtain ⟨ended, concluded⟩ := extract_spec extracted
    rw [concluded.tree_eq]
    exact ⟨landed _ _ (traffic_searched wf ended), concluded.final⟩

/-- A first walk, and a run that has come to its end. -/
theorem final_term_completes_deepest_small :
    EGraph.loopGraph.Accepted ∧ EGraph.loopGraph.Checkable ∧
    CompletesDeepest (smallPlan 3 1).toProblem 1 firstWalk.tree ∧
    CompletesDeepest (smallPlan 3 1).toProblem 1 (Progress.initial () : Progress Unit Float).tree ∧
    ∃ outcome after, extract (smallPlan 3 1) () = (.ok outcome, after) ∧
      CompletesDeepest (smallPlan 3 1).toProblem 1 after.tree := by
  have regular := smallPlan_regular
  have whole : (smallPlan 3 1).tuning.completionAttempts.int? = some 1 := rfl
  obtain ⟨explored, landed, extracted⟩ := final_term_completes_deepest regular.accepted
    regular.checkable regular.reliable whole
  obtain ⟨outcome, after, ended, _⟩ := extract_ok regular
    (valid_priced EGraph.loopGraph_accepted EGraph.loopGraph_checkable) ()
  have walked : Explores EGraph.loopGraph Tree.initial firstWalk.tree :=
    .walk _ .here Nat.one_pos (replay_root Tree.linked_initial)
  exact ⟨EGraph.loopGraph_accepted, EGraph.loopGraph_checkable, explored _ walked,
    landed _ _ (.fresh ()), outcome, after, ended, (extracted () outcome after ended).1⟩

/-- At the start of a search there is no final term if the root differs from itself, and none if the
attempts are not a whole number. -/
theorem final_terms_that_fail :
    EGraph.unequalGraph.Accepted ∧ EGraph.unequalGraph.Named ∧
    (finalTerm (unequalPlan 1 1).toProblem (unequalPlan 1 1).tuning.completionAttempts
        (Tree.initial : Tree Float) (unequalPlan 1 1).lastStream).1 =
      .error (.violation (.notMember (.text "x") (.number (.float (0 / 0))))) ∧
    EGraph.loopGraph.Accepted ∧ EGraph.loopGraph.Checkable ∧
    (finalTerm (smallPlan 1 (.float 1.5)).toProblem
        (smallPlan 1 (.float 1.5)).tuning.completionAttempts (Tree.initial : Tree Float)
        (smallPlan 1 (.float 1.5)).lastStream).1 = .error (.mismatch (.wholeNumber "float")) := by
  refine ⟨EGraph.unequalGraph_accepted, EGraph.unequalGraph_named, ?_, EGraph.loopGraph_accepted,
    EGraph.loopGraph_checkable, ?_⟩
  · with_unfolding_all rfl
  · with_unfolding_all rfl

end EGraphSearch
