import EGraphSearch.Proofs.Budgets
import EGraphSearch.Proofs.Search.Course
import EGraphSearch.Proofs.Search.Incumbent
import EGraphSearch.Proofs.Selection

/-!
# The optimum

When the search leaves a saturated tree, all valid terms have been priced, and the best pair is a
cheapest one among them.  This holds however many playouts were run from whichever nodes, so
whatever has stopped the search.
-/

set_option autoImplicit false

namespace EGraphSearch

variable {σ ρ : Type}

/-! ## Saturated trees -/

/-- The terminal nodes of the tree are the valid terms, and the best pair is a cheapest one of those
that have a price. -/
structure Optimum (g : EGraph) (price : Term → Option Float) (tree : Tree Float)
    (best : Option (Term × Float)) : Prop extends Catalogue g tree where
  attained : ∀ found, best = some found → Attained g price found
  least : ∀ term : Term, term.assignment.Keyed → term.validate g = .ok () → Covers price best term
  none_iff : best = none ↔
    ∀ term : Term, term.assignment.Keyed → term.validate g = .ok () → price term = none

section Optimum

variable {plan : Plan σ ρ Float} {oracle : Oracle σ} {price : Term → Option Float} {state : σ}
  {s : Progress σ Float}

theorem priced_attained (accepted : plan.graph.Accepted) (checkable : plan.graph.Checkable)
    (asks : plan.ask = oracle.asker plan.graph) (pure : plan.toProblem.Pure price) :
    plan.toProblem.Priced (Attained plan.graph price) := by
  intro t term state cost inv termOf answer
  have valid := valid_priced (p := plan.toProblem) accepted checkable t term state cost inv termOf
    answer
  refine ⟨?_, valid, (pure.replies term state _ answer).symm, ?_⟩
  · obtain ⟨_, rfl⟩ := Tracker.terminal_of_toTerm termOf
    exact inv.keyed_assignment accepted.wellFormed
  · rw [asks] at answer
    exact Oracle.asker_costed answer

theorem surveyed_course (accepted : plan.graph.Accepted) (checkable : plan.graph.Checkable)
    (asks : plan.ask = oracle.asker plan.graph) (pure : plan.toProblem.Pure price)
    (atLeastOne : plan.tuning.rollouts.below 1 = false) (course : Course plan state s) :
    Surveyed plan.toProblem price s := by
  induction course with
  | opened => exact (surveyed_initial state).report _
  | played _ inside played ih =>
      exact ih.play accepted.wellFormed pure (priced_attained accepted checkable asks pure)
        atLeastOne inside played
  | committed _ inside ih => exact ih.commit inside

theorem concluded_optimum (accepted : plan.graph.Accepted) (checkable : plan.graph.Checkable)
    (asks : plan.ask = oracle.asker plan.graph) (pure : plan.toProblem.Pure price)
    (surveyed : Surveyed plan.toProblem price s) {outcome : Outcome Float}
    {after : Progress σ Float} (concluded : Concluded plan s after outcome)
    (saturated : s.tree.Saturated) : Optimum plan.graph price s.tree outcome.best := by
  have wf := accepted.wellFormed
  have catalogue := surveyed.charted.catalogue accepted checkable saturated
  have priced := priced_attained accepted checkable asks pure
  have attained : ∀ found, outcome.best = some found → Attained plan.graph price found := by
    obtain ⟨terminal, inv, termOf⟩ :=
      (finalTerm_spec wf surveyed.faithful concluded.final).of_tracker wf surveyed.faithful
    obtain ⟨reply, answer, charged⟩ := concluded.priced
    rw [concluded.best_eq]
    refine best_finalBest surveyed.best fun cost known => ?_
    rw [charged] at known
    cases reply with
    | failed why => cases known
    | cost charge =>
        cases known
        exact priced terminal _ _ cost inv termOf answer
  have least : ∀ term : Term, term.assignment.Keyed → term.validate plan.graph = .ok () →
      Covers price outcome.best term := by
    intro term keyed valid cost known
    obtain ⟨i, ⟨inside, terminal, spelled, termAt, same⟩, _⟩ := catalogue.once term keyed valid
    obtain ⟨t, replayed⟩ := surveyed.charted.replayed i inside
    have complete :=
      (surveyed.charted.terminal_iff wf inside replayed (saturated i inside)).mp terminal
    cases (termAt_of_terminal replayed complete).symm.trans termAt
    have grows : NoDearer s.best outcome.best := by
      rw [concluded.best_eq]
      exact noDearer_final (fun found here => (surveyed.best found here).costed) _ _
    refine (surveyed.covered i inside t replayed complete cost ?_).trans_noDearer grows
    have keyedHere := (inv_of_replay wf replayed).keyed_assignment wf
    exact (pure.steady ⟨t.assignment plan.graph⟩ term keyedHere keyed same).trans known
  refine ⟨catalogue, attained, least, ?_⟩
  constructor
  · intro nothing term keyed valid
    cases known : price term with
    | none => rfl
    | some cost =>
        obtain ⟨_, _, found, _⟩ := least term keyed valid cost known
        simp [nothing] at found
  · intro unpriced
    cases best : outcome.best with
    | none => rfl
    | some found =>
        have here := attained found best
        have missing := unpriced found.1 here.keyed here.valid
        simp [here.price_eq] at missing

/-- A run that leaves a saturated tree has priced every valid term: its best pair is the optimum
over all of them, whatever has stopped the search. -/
theorem saturated_tree_gives_optimum (accepted : plan.graph.Accepted)
    (checkable : plan.graph.Checkable) (asks : plan.ask = oracle.asker plan.graph)
    (pure : plan.toProblem.Pure price)
    (atLeastOne : plan.tuning.rollouts.below 1 = false) (state : σ) :
    (∀ s outcome after, Course plan state s → conclude plan s = (.ok outcome, after) →
      s.tree.Saturated → Optimum plan.graph price s.tree outcome.best) ∧
    (Number.below 1 plan.tuning.workers = false → ∀ outcome after,
      extract plan state = (.ok outcome, after) → after.tree.Saturated →
        Optimum plan.graph price after.tree outcome.best) := by
  have concluding : ∀ s outcome after, Course plan state s → Concluded plan s after outcome →
      s.tree.Saturated → Optimum plan.graph price s.tree outcome.best := by
    intro s outcome after course concluded saturated
    have surveyed := surveyed_course accepted checkable asks pure atLeastOne course
    exact concluded_optimum accepted checkable asks pure surveyed concluded saturated
  constructor
  · intro s outcome after course concluded saturated
    exact concluding s outcome after course (conclude_spec concluded) saturated
  · intro alone outcome after extracted saturated
    obtain ⟨ended, concluded⟩ := extract_spec extracted
    have course := course_searched accepted.wellFormed alone ended
    rw [concluded.tree_eq] at saturated ⊢
    exact concluding _ outcome after course concluded saturated

end Optimum

/-! ## A saturated fork -/

theorem Label.eq_text_of_key {label : Label} {s : String} (same : label.key = (text s).key) :
    label = text s := by
  cases label with
  | none => simp [key] at same
  | text t => simpa [key] using same
  | number n =>
      simp only [key] at same
      unfold numberKey at same
      repeat' split at same
      all_goals simp at same
  | tuple items => cases items <;> simp [key, itemsKey] at same

/-- What the uneven oracle charges: more for one leaf than for the other. -/
def unevenPrice (term : Term) : Option Float :=
  if (term.assignment.get? (.text "b")).map Label.key = some (.text "p") then some 10 else some 1

theorem Oracle.uneven_pure (most : Nat) : (forkPlan most).toProblem.Pure unevenPrice where
  replies term state reply answer := by
    have asked : (Oracle.uneven.asker EGraph.forkGraph term state).1 = .ok reply := answer
    simp only [Oracle.asker, Oracle.uneven] at asked
    unfold unevenPrice
    split at asked
    · rename_i same
      rw [same]
      cases asked
      rfl
    · rename_i other
      rw [if_neg]
      · cases asked
        rfl
      · intro same
        obtain ⟨label, get, key⟩ := Option.map_eq_some_iff.mp same
        rw [Label.eq_text_of_key key] at get
        exact other get
  steady term other keyed keyed' same := by
    rw [unevenPrice, unevenPrice, keyed.get?_of_same keyed' same]

set_option maxRecDepth 4000 in
/-- Three playouts saturate the tree of the fork. -/
theorem saturated_tree_gives_optimum_fork :
    EGraph.forkGraph.Accepted ∧ EGraph.forkGraph.Checkable ∧
    (forkPlan 3).ask = Oracle.uneven.asker EGraph.forkGraph ∧
    (forkPlan 3).toProblem.Pure unevenPrice ∧
    (forkPlan 3).tuning.rollouts.below 1 = false ∧
    Number.below 1 (forkPlan 3).tuning.workers = false ∧
    ∃ outcome after, extract (forkPlan 3) () = (.ok outcome, after) ∧ after.tree.Saturated ∧
      Optimum EGraph.forkGraph unevenPrice after.tree outcome.best := by
  have accepted : (forkPlan 3).graph.Accepted := EGraph.forkGraph_accepted
  have checkable : (forkPlan 3).graph.Checkable := EGraph.forkGraph_checkable
  have asks : (forkPlan 3).ask = Oracle.uneven.asker (forkPlan 3).graph := rfl
  have saturated : (extract (forkPlan 3) ()).2.tree.Saturated := by decide +kernel
  have returned : (extract (forkPlan 3) ()).1.isOk = true := by decide +kernel
  rcases extracted : extract (forkPlan 3) () with ⟨fault | outcome, after⟩
  · simp [extracted, Except.isOk, Except.toBool] at returned
  · rw [extracted] at saturated
    obtain ⟨_, optimum⟩ :=
      saturated_tree_gives_optimum accepted checkable asks (Oracle.uneven_pure 3) rfl ()
    exact ⟨accepted, checkable, asks, Oracle.uneven_pure 3, rfl, rfl, outcome, after, rfl,
      saturated, optimum rfl outcome after extracted saturated⟩

/-! ## A saturated tree with a term that is refused -/

def Walk.finish {α : Type} [Scalar α] (walk : Walk α) (p : Problem σ ρ α) (tuning : Tuning α)
    (source : ρ) (s : Progress σ α) : Except Fault (Leaf α) × Progress σ α :=
  let s := { s with tree := walk.tree }
  match walk.path with
  | .error fault => (.error fault, s)
  | .ok path =>
    match evaluateLeaf p tuning.rollouts walk.tracker s.evaluator source with
    | (.error fault, sampling) => (.error fault, s.afterSampling sampling)
    | (.ok leaf, sampling) =>
      match s.tree.creditPath leaf.value path with
      | (.error fault, tree) => (.error fault, { s with tree := tree }.afterSampling sampling)
      | (.ok (), tree) => (.ok leaf, { s with tree := tree }.afterSampling sampling)

theorem playout_eq {α : Type} [Scalar α] {p : Problem σ ρ α} {tuning : Tuning α} {start : Nat}
    {s : Progress σ α} {tracker : Tracker}
    (replayed : replay p.graph s.tree start = .ok tracker) (source : ρ) :
    playout p tuning start source s =
      (selectAndExpand p.graph (tuning.constants Scalar.zero) s.tree tracker start).finish p tuning
        source s := by
  simp only [playout, replayed]
  rfl

/-- A class with three nodes: the first leads back to it, the second to a class that differs from
itself, and the third is a leaf. -/
def EGraph.tridentGraph : EGraph where
  classIds := #[.text "a", .text "b", .number (.float (0 / 0))]
  nodeIds := #[.text "d", .text "y", .text "z", .text "g", .text "w"]
  ops := #[.text "d", .text "y", .text "z", .text "g", .text "w"]
  children := #[[1], [2], [], [0], []]
  owner := #[0, 0, 0, 1, 2]
  members := #[[0, 1, 2], [3], [4]]
  root := 0
  levels := ⟨#[.finite 0, .finite 1, .finite 0],
    #[.finite 2, .finite 1, .finite 0, .finite 1, .finite 0]⟩

theorem EGraph.tridentGraph_accepted : tridentGraph.Accepted := by
  have arranged : arrange [⟨.text "a", [.text "d", .text "y", .text "z"]⟩,
        ⟨.text "b", [.text "g"]⟩, ⟨.number (.float (0 / 0)), [.text "w"]⟩]
      [⟨.text "d", .text "d", [.text "b"]⟩, ⟨.text "y", .text "y", [.number (.float (0 / 0))]⟩,
        ⟨.text "z", .text "z", []⟩, ⟨.text "g", .text "g", [.text "a"]⟩,
        ⟨.text "w", .text "w", []⟩] (.text "a") = .ok tridentGraph.toArena := by
    with_unfolding_all rfl
  exact .of_settled arranged 3 rfl ⟨0, rfl⟩

/-- Five playouts in rounds of four; a failure counts as much as a term, and the final term is
completed by the leaf. -/
def tridentPlan : Plan Unit Endless Float :=
  { Settings.small 5 1 with playoutsPerRound := some 4 }.planWith EGraph.tridentGraph Oracle.flat
    Policy.uniform (.negated (.number 1)) (fun _ => Endless.zeroes) ⟨⟨[2], 0⟩, List.cons_ne_nil _ _⟩

namespace Trident

def threePlayouts : Progress Unit Float :=
  (runBatchFrom tridentPlan 0 (some 4) 3 0 tridentPlan.budget (tridentPlan.opened ())).progress

set_option maxRecDepth 4000 in
theorem three_played :
    runBatchFrom tridentPlan 0 (some 4) 3 0 tridentPlan.budget (tridentPlan.opened ()) =
      ⟨.ok 3, tridentPlan.budget.after 3, threePlayouts⟩ := by
  with_unfolding_all rfl

def fresh : Tracker := Tracker.start EGraph.tridentGraph

def blocked : Tracker := ⟨#[some 0, none, none], [0], #[true, false, false], [⟨0, 0, 0⟩], some 1⟩

def fourthWalk : Walk Float :=
  ⟨(threePlayouts.tree.noteMoves EGraph.tridentGraph 0 fresh).noteMoves EGraph.tridentGraph 1
    blocked, blocked, .ok [0, 1]⟩

/-- The three children are alike, so the fourth walk goes to the first one, whatever the scores
are. -/
theorem fourth_walk (constants : ScoreConstants Float) :
    selectAndExpand EGraph.tridentGraph (some constants) threePlayouts.tree fresh 0 =
      fourthWalk := by
  have moves : fresh.legalMoves EGraph.tridentGraph = [0, 1, 2] := by decide +kernel
  have stuck : blocked.legalMoves EGraph.tridentGraph = [] := by decide +kernel
  have path : threePlayouts.tree.pathFromRoot 0 = .ok [0] := by with_unfolding_all rfl
  have applied : fresh.apply EGraph.tridentGraph 0 = .ok blocked := by with_unfolding_all rfl
  have selected : (threePlayouts.tree.noteMoves EGraph.tridentGraph 0 fresh).selectMove
      (some constants) 0 (fresh.legalMoves EGraph.tridentGraph) = .ok (.known 0 1) := by
    rw [moves]
    have offered : offeredChildren
        ((threePlayouts.tree.noteMoves EGraph.tridentGraph 0 fresh).node 0).children [0, 1, 2] =
        (0, 1) :: [(1, 2), (2, 3)] := by decide +kernel
    refine Tree.selectMove_of_alike (fun x => ?_) (by decide +kernel) (List.cons_ne_nil _ _)
      (by decide +kernel) offered (by decide +kernel) constants
    exact decide_eq_false fun lt => Doubles.lt_asymm lt lt
  have below : descend EGraph.tridentGraph (some constants)
      (threePlayouts.tree.noteMoves EGraph.tridentGraph 0 fresh) blocked 1 =
      ⟨fourthWalk.tree, blocked, .ok []⟩ := by
    rw [descend]
    split
    · rfl
    · rename_i listed
      simp [stuck] at listed
  rw [selectAndExpand, path]
  dsimp only
  rw [descend_known (by simp [moves]) selected applied, below]
  rfl

def fourthPlayout : Except Fault (Leaf Float) × Progress Unit Float :=
  fourthWalk.finish tridentPlan.toProblem tridentPlan.tuning Endless.zeroes threePlayouts

theorem fourth_played : playout tridentPlan.toProblem tridentPlan.tuning 0 (tridentPlan.stream 3)
    threePlayouts = fourthPlayout := by
  have replayed : replay tridentPlan.graph threePlayouts.tree 0 = .ok fresh := by
    with_unfolding_all rfl
  have constants : tridentPlan.tuning.constants Scalar.zero = some ⟨1, Scalar.zero⟩ := by
    with_unfolding_all rfl
  rw [playout_eq replayed, constants]
  exact congrArg (Walk.finish · tridentPlan.toProblem tridentPlan.tuning Endless.zeroes
    threePlayouts) (fourth_walk _)

def firstRound : Progress Unit Float :=
  match fourthPlayout with
  | (.ok leaf, next) => next.record tridentPlan.tuning leaf
  | (.error _, next) => next

theorem round_played :
    tridentPlan.runBatch (tridentPlan.opened ()).committed (some 4) tridentPlan.budget
        (tridentPlan.opened ()) =
      ⟨.ok 4, tridentPlan.budget.after 4, firstRound⟩ := by
  have returned : fourthPlayout.1.isOk = true := by decide +kernel
  rw [runBatch_alone rfl]
  refine (runBatchFrom_add 3 1 three_played).trans ?_
  unfold firstRound
  rcases played : fourthPlayout with ⟨fault | leaf, next⟩
  · simp [played, Except.isOk, Except.toBool] at returned
  · have running : ¬ Stopped (some (4 : Number)) 3 := by
      simp only [Stopped]
      decide
    exact (batchFrom_plays _ running rfl (fourth_played.trans played) 0).1

/-- The first round commits to the second child, and the other round is played from there. -/
theorem searched : tridentPlan.searched () =
    searchRounds tridentPlan 4 4 (tridentPlan.budget.after 4) firstRound.settle.1 := by
  have goesOn : firstRound.settle.2 = false := by decide +kernel
  have inside : firstRound.committed < firstRound.tree.size := by decide +kernel
  refine (searchRounds_settles rfl round_played inside 4).trans ?_
  rw [goesOn]
  rfl

def lastRound : SearchEnd Unit Float :=
  searchRounds tridentPlan 4 4 (tridentPlan.budget.after 4) firstRound.settle.1

def leafTerm : Term := ⟨[(.text "a", .text "z")]⟩

def refused : Term := ⟨[(.text "a", .text "y"), (.number (.float (0 / 0)), .text "w")]⟩

/-- The dead end was visited as often as the second child and before it, so the greedy path ends
there, and the final term is completed from the start. -/
theorem final : (finalTerm tridentPlan.toProblem tridentPlan.tuning.completionAttempts
    lastRound.progress.tree tridentPlan.lastStream).1 = .ok leafTerm := by
  have path : greedyPath tridentPlan.graph lastRound.progress.tree
      (Tracker.start tridentPlan.graph) 0 = .ok [fresh, blocked] := by with_unfolding_all rfl
  have deadEnd : blocked.isDeadEnd tridentPlan.graph = true := by decide +kernel
  have given : complete tridentPlan.toProblem tridentPlan.tuning.completionAttempts
      (some completionLimit) blocked tridentPlan.lastStream =
      ⟨.ok none, tridentPlan.lastStream, []⟩ := attempt_deadEnd deadEnd (by decide) 1 _
  have completed : complete tridentPlan.toProblem tridentPlan.tuning.completionAttempts none fresh
      tridentPlan.lastStream = ⟨.ok (some ⟨#[some 2, none, none], [0], #[false, false, false], [],
        none⟩), ⟨⟨[2], 1⟩, by decide⟩, []⟩ := by with_unfolding_all rfl
  simp only [finalTerm, path, List.reverse_cons, List.reverse_nil, List.nil_append,
    List.singleton_append, completeDeepest, List.isEmpty_cons, Bool.false_eq_true, if_false, given,
    List.isEmpty_nil, if_true, completed]
  with_unfolding_all rfl

end Trident

theorem Oracle.flat_pure {plan : Plan Unit ρ Float}
    (asks : plan.ask = Oracle.flat.asker plan.graph) : plan.toProblem.Pure fun _ => some 1 where
  replies term state reply answer := by
    rw [asks] at answer
    cases answer
    rfl
  steady _ _ _ _ _ := rfl

open Trident in
/-- The run returns and saturates the tree.  But the best pair is that of a terminal node whose term
is refused, since one of its classes differs from itself. -/
theorem saturated_tree_with_refused_term :
    EGraph.tridentGraph.Accepted ∧ EGraph.tridentGraph.Named ∧
    tridentPlan.ask = Oracle.flat.asker EGraph.tridentGraph ∧
    (tridentPlan.toProblem.Pure fun _ => some 1) ∧
    tridentPlan.tuning.rollouts.below 1 = false ∧
    Number.below 1 tridentPlan.tuning.workers = false ∧
    ∃ outcome after term, extract tridentPlan () = (.ok outcome, after) ∧ after.tree.Saturated ∧
      outcome.best = some (term, 1) ∧ (after.tree.node 4).status = .terminal ∧
      after.tree.termAt EGraph.tridentGraph 4 = .ok term ∧
      term.validate EGraph.tridentGraph =
        .error (.violation (.notMember (.text "w") (.number (.float (0 / 0))))) ∧
      ¬ Catalogue EGraph.tridentGraph after.tree := by
  have pure : tridentPlan.toProblem.Pure fun _ => some 1 := Oracle.flat_pure rfl
  have result : lastRound.result = .ok () := by with_unfolding_all rfl
  have best : lastRound.progress.best = some (refused, 1) := by with_unfolding_all rfl
  have saturated : lastRound.progress.tree.Saturated := by decide +kernel
  have terminal : (lastRound.progress.tree.node 4).status = .terminal := by decide +kernel
  have termAt : lastRound.progress.tree.termAt EGraph.tridentGraph 4 = .ok refused := by
    with_unfolding_all rfl
  have invalid : refused.validate EGraph.tridentGraph =
      .error (.violation (.notMember (.text "w") (.number (.float (0 / 0))))) := by
    with_unfolding_all rfl
  obtain ⟨outcome, after, concluded, -, spec⟩ :=
    conclude_of_reply final (show (tridentPlan.ask leafTerm _).1 = .ok (.cost 1) from rfl)
  obtain ⟨reply, replied, charged⟩ := spec.priced
  have unchanged : outcome.best = some (refused, 1) := by
    have equal : Scalar.below (1 : Float) 1 = false := by decide +kernel
    rw [spec.best_eq, charged, pure.replies _ _ reply replied, best]
    simp only [finalBest, cheaper, Option.elim_some, equal, Bool.false_eq_true, if_false]
  refine ⟨EGraph.tridentGraph_accepted, EGraph.named_of_labels (by simp [EGraph.tridentGraph]), rfl,
    pure, rfl, rfl, outcome, after, refused, ?_, ?_, unchanged, ?_, ?_, invalid, ?_⟩
  · rw [extract_eq, searched]
    rw [← lastRound, result]
    exact concluded
  all_goals rw [spec.tree_eq]
  · exact saturated
  · exact terminal
  · exact termAt
  · intro catalogue
    obtain ⟨term, spelled, _, valid⟩ := catalogue.valid 4 (by decide +kernel) terminal
    cases termAt.symm.trans spelled
    rw [invalid] at valid
    cases valid

end EGraphSearch
