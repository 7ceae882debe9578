import EGraphSearch.Proofs.Search.Extraction
import EGraphSearch.Proofs.Search.MatchedTerms

/-!
# Runs on matched e-graphs

One worker plays the same playouts on both e-graphs, draws from the same streams and commits to the
same places of its tree.  The runs come to corresponding outcomes, or to the same fault.
-/

set_option autoImplicit false

namespace EGraphSearch

variable {σ σ' ρ α : Type} [Scalar α]

/-- Plans for one worker on matched e-graphs that agree in everything else. -/
structure Plan.Matched {plan : Plan σ ρ α} {plan' : Plan σ' ρ α}
    (M : Matching plan.graph plan'.graph) (R : σ → σ' → Prop) : Prop
    extends Problem.Matched M R where
  alone : Number.below 1 plan.tuning.workers = false
  tuning_eq : plan'.tuning = plan.tuning
  maxPlayouts_eq : plan'.maxPlayouts = plan.maxPlayouts
  timeLimit_eq : plan'.timeLimit = plan.timeLimit
  stream_eq : plan'.stream = plan.stream
  lastStream_eq : plan'.lastStream = plan.lastStream
  summarised_eq : plan'.summarised = plan.summarised

/-! ## Searches -/

section Searches

variable {plan : Plan σ ρ α} {plan' : Plan σ' ρ α} {M : Matching plan.graph plan'.graph}
  {R : σ → σ' → Prop} {s : Progress σ α} {s' : Progress σ' α}

structure Matching.BatchEnds {g g' : EGraph} (M : Matching g g') (R : σ → σ' → Prop)
    (ended : BatchEnd σ α) (ended' : BatchEnd σ' α) : Prop where
  ran_eq : ended'.ran = ended.ran
  budget_eq : ended'.budget = ended.budget
  progresses : M.Progresses R ended.progress ended'.progress

structure Matching.SearchEnds {g g' : EGraph} (M : Matching g g') (R : σ → σ' → Prop)
    (ended : SearchEnd σ α) (ended' : SearchEnd σ' α) : Prop where
  result_eq : ended'.result = ended.result
  budget_eq : ended'.budget = ended.budget
  progresses : M.Progresses R ended.progress ended'.progress

theorem Plan.Matched.runBatchFrom (matched : Plan.Matched M R) {start : Nat}
    (limit : Option Number) (bound : Nat) : ∀ (ran : Nat) (budget : Budget) {s : Progress σ α}
      {s' : Progress σ' α}, M.Progresses R s s' → Sane plan.toProblem (fun _ => True) s →
      start < s.tree.size →
      M.BatchEnds R (runBatchFrom plan start limit bound ran budget s)
        (runBatchFrom plan' start limit bound ran budget s') := by
  have wf := matched.accepted.wellFormed
  induction bound with
  | zero => exact fun _ _ _ _ progresses _ _ => ⟨rfl, rfl, progresses⟩
  | succ bound ih =>
      intro ran budget s s' progresses sane inside
      unfold EGraphSearch.runBatchFrom
      split
      · exact ⟨rfl, rfl, progresses⟩
      · cases budget.claim with
        | none => exact ⟨rfl, rfl, progresses⟩
        | some claimed =>
            obtain ⟨index, left⟩ := claimed
            obtain ⟨agree, next⟩ := matched.playout progresses sane.faithful inside plan.tuning
              (plan.stream index)
            dsimp only
            rw [matched.stream_eq, matched.tuning_eq]
            rcases played : playout plan.toProblem plan.tuning start (plan.stream index) s with
              ⟨result, u⟩
            rcases played' : playout plan'.toProblem plan.tuning start (plan.stream index) s' with
              ⟨result', u'⟩
            rw [played, played'] at agree next
            cases agree with
            | fault fault => exact ⟨rfl, rfl, next⟩
            | value leaves =>
                obtain ⟨_, _, tree⟩ :=
                  (playout_spec wf priced_trivial sane.faithful inside played).played
                refine ih _ _ (next.record leaves plan.tuning)
                  (sane.play wf priced_trivial inside played) ?_
                rw [tree_record]
                exact Nat.lt_of_lt_of_le inside tree.kept.size_le

theorem Plan.Matched.runBatch (matched : Plan.Matched M R) (progresses : M.Progresses R s s')
    (sane : Sane plan.toProblem (fun _ => True) s) (limit : Option Number) (budget : Budget) :
    M.BatchEnds R (plan.runBatch s.committed limit budget s)
      (plan'.runBatch s'.committed limit budget s') := by
  have alone' : Number.below 1 plan'.tuning.workers = false := by
    rw [matched.tuning_eq]
    exact matched.alone
  rw [runBatch_alone matched.alone, runBatch_alone alone', progresses.committed_eq]
  exact matched.runBatchFrom limit _ 0 budget progresses sane sane.committed_lt

theorem Matching.Progresses.report {g g' : EGraph} {M : Matching g g'}
    (progresses : M.Progresses R s s') (events events' : List (Event α)) :
    M.Progresses R (s.report events) (s'.report events') :=
  { progresses with }

theorem Matching.Progresses.commit {g g' : EGraph} {M : Matching g g'}
    (progresses : M.Progresses R s s') (child : Nat) :
    M.Progresses R (s.commit child) (s'.commit child) :=
  { progresses with committed_eq := rfl }

theorem Plan.Matched.searchRounds (matched : Plan.Matched M R) (perRound : Number) (bound : Nat) :
    ∀ (budget : Budget) {s : Progress σ α} {s' : Progress σ' α}, M.Progresses R s s' →
      Sane plan.toProblem (fun _ => True) s →
      M.SearchEnds R (searchRounds plan perRound bound budget s)
        (searchRounds plan' perRound bound budget s') := by
  have wf := matched.accepted.wellFormed
  induction bound with
  | zero => exact fun _ _ _ progresses _ => ⟨rfl, rfl, progresses⟩
  | succ bound ih =>
      intro budget s s' progresses sane
      unfold EGraphSearch.searchRounds BatchEnd.closeRound
      split
      · exact ⟨rfl, rfl, progresses⟩
      · have batches := matched.runBatch progresses sane (some perRound) budget
        have ends : ∀ n, (plan.runBatch s.committed (some perRound) budget s).ran = .ok n →
            Sane plan.toProblem (fun _ => True)
              (plan.runBatch s.committed (some perRound) budget s).progress := by
          intro n ran
          rw [runBatch_alone matched.alone] at ran ⊢
          exact ((runBatch_spec ran).batch.spec wf priced_trivial sane sane.committed_lt).sane
        generalize plan.runBatch s.committed (some perRound) budget s = batch at batches ends
        generalize plan'.runBatch s'.committed (some perRound) budget s' = batch' at batches
        obtain ⟨ran_eq, budget_eq, next⟩ := batches
        have picks := next.trees.mostVisited_eq batch.progress.committed true
        dsimp only
        rw [ran_eq, budget_eq, next.committed_eq, picks]
        cases ran : batch.ran with
        | error fault => exact ⟨rfl, rfl, next⟩
        | ok n =>
            have saneNext := ends n ran
            rcases picked : batch.progress.tree.mostVisited batch.progress.committed true with
              fault | _ | ⟨move, child⟩
            · exact ⟨rfl, rfl, next⟩
            · exact ih _ next saneNext
            · have terminal : ((batch'.progress.commit child).tree.node child).terminal =
                  ((batch.progress.commit child).tree.node child).terminal :=
                (next.trees.nodes child).terminal_eq
              simp only [Except.map, Option.map_some, Prod.map_apply, id_eq]
              rw [terminal]
              cases ((batch.progress.commit child).tree.node child).terminal with
              | true => exact ⟨rfl, rfl, next.commit child⟩
              | false => exact ih _ (next.commit child) (saneNext.commit picked)

/-- The rounds of both searches are bounded alike if their playouts are. -/
theorem Plan.Matched.search (matched : Plan.Matched M R) (progresses : M.Progresses R s s')
    (sane : Sane plan.toProblem (fun _ => True) s) {budget : Budget}
    (bounded : plan.tuning.perRound = none ∨ budget.remaining?.isSome) :
    M.SearchEnds R (search plan budget s) (search plan' budget s') := by
  unfold EGraphSearch.search
  rw [matched.tuning_eq]
  cases rounds : plan.tuning.perRound with
  | none =>
      have batches := matched.runBatch progresses sane none budget
      exact ⟨congrArg (Except.map fun _ => ()) batches.ran_eq, batches.budget_eq,
        batches.progresses⟩
  | some perRound =>
      obtain ⟨left, remaining⟩ := Option.isSome_iff_exists.mp
        (bounded.resolve_left (by simp [rounds]))
      simp only [roundBound, remaining, Option.getD_some]
      exact matched.searchRounds perRound left budget progresses sane

end Searches

/-! ## Outcomes -/

section Outcomes

/-- Summaries of corresponding runs.  The usage of the choices is left out: it follows the order of
the classes, and a class may stand in several places of the tree. -/
structure Matching.Summaries {g g' : EGraph} (M : Matching g g') (u u' : Summary α) : Prop where
  treeSize_eq : u'.treeSize = u.treeSize
  maxDepth_eq : u'.maxDepth = u.maxDepth
  rootVisits_eq : u'.rootVisits = u.rootVisits
  rootMean_eq : u'.rootMean = u.rootMean
  statuses_eq : u'.statuses = u.statuses
  nodes : List.Forall₂ M.Nodes u.nodes u'.nodes
  calls_eq : u'.calls = u.calls
  failures_eq : u'.failures = u.failures
  failureRate_eq : u'.failureRate = u.failureRate
  playouts_eq : u'.playouts = u.playouts
  deadEnds_eq : u'.deadEnds = u.deadEnds
  committedDepth_eq : u'.committedDepth = u.committedDepth

structure Matching.Outcomes {g g' : EGraph} (M : Matching g g') (outcome outcome' : Outcome α) :
    Prop where
  term : M.Terms outcome.term outcome'.term
  cost_eq : outcome'.cost = outcome.cost
  best : Option.Rel M.Pairs outcome.best outcome'.best
  playouts_eq : outcome'.playouts = outcome.playouts
  evaluations_eq : outcome'.evaluations = outcome.evaluations
  failures_eq : outcome'.failures = outcome.failures
  deadEnds_eq : outcome'.deadEnds = outcome.deadEnds
  summary : Option.Rel M.Summaries outcome.summary outcome'.summary

section Summaries

variable {g g' : EGraph} {M : Matching g g'} {R : σ → σ' → Prop} {tree tree' : Tree α}
  {s : Progress σ α} {s' : Progress σ' α}

theorem Matching.Trees.forall₂ (trees : M.Trees tree tree') :
    List.Forall₂ M.Nodes tree.nodes.toList tree'.nodes.toList := by
  rw [List.forall₂_iff_get]
  have sizes : tree.nodes.toList.length = tree'.nodes.toList.length := by
    rw [Array.length_toList, Array.length_toList]
    exact trees.size_eq.symm
  refine ⟨sizes, fun i inside inside' => ?_⟩
  have nodes := trees.nodes i
  rw [Array.length_toList] at inside inside'
  have here := Tree.node_eq (t := tree) inside
  have there := Tree.node_eq (t := tree') inside'
  rw [Array.getElem?_eq_getElem inside, Option.some.injEq] at here
  rw [Array.getElem?_eq_getElem inside', Option.some.injEq] at there
  simpa [here, there] using nodes

/-- What is the same for corresponding nodes is the same list for the trees. -/
theorem Matching.Trees.map_eq (trees : M.Trees tree tree') {β : Type} {f : SearchNode α → β}
    (same : ∀ n n', M.Nodes n n' → f n' = f n) :
    tree'.nodes.toList.map f = tree.nodes.toList.map f := by
  have nodes := trees.forall₂
  generalize tree.nodes.toList = listed at nodes
  generalize tree'.nodes.toList = listed' at nodes
  induction nodes with
  | nil => rfl
  | cons first _ ih => rw [List.map_cons, List.map_cons, same _ _ first, ih]

theorem Matching.Trees.countStatus_eq (trees : M.Trees tree tree') (status : Status) :
    tree'.countStatus status = tree.countStatus status := by
  have counted := congrArg (List.countP (· == status))
    (trees.map_eq fun _ _ nodes => nodes.status_eq)
  rw [List.countP_map, List.countP_map] at counted
  exact counted

theorem Matching.Progresses.summary (progresses : M.Progresses R s s') :
    M.Summaries (s.summary g) (s'.summary g') where
  treeSize_eq := progresses.trees.size_eq
  maxDepth_eq := congrArg (List.foldl Nat.max 0)
    (progresses.trees.map_eq fun _ _ nodes => nodes.depth_eq)
  rootVisits_eq := (progresses.trees.nodes 0).visits_eq
  rootMean_eq := (progresses.trees.nodes 0).mean_eq
  statuses_eq := by
    simp only [Progress.summary, progresses.trees.countStatus_eq]
  nodes := progresses.trees.forall₂
  calls_eq := progresses.evaluator.calls_eq
  failures_eq := progresses.evaluator.failures_eq
  failureRate_eq := by
    simp only [Progress.summary, Evaluator.failureRate, progresses.evaluator.calls_eq,
      progresses.evaluator.failures_eq]
  playouts_eq := progresses.playouts_eq
  deadEnds_eq := progresses.deadEnds_eq
  committedDepth_eq := by
    simp only [Progress.summary, progresses.committed_eq,
      (progresses.trees.nodes s.committed).depth_eq]

end Summaries

variable {plan : Plan σ ρ α} {plan' : Plan σ' ρ α} {M : Matching plan.graph plan'.graph}
  {R : σ → σ' → Prop} {s : Progress σ α} {s' : Progress σ' α}

theorem Plan.Matched.priceFinal (matched : Plan.Matched M R) (progresses : M.Progresses R s s')
    {t t' : Tracker} (twin : Tracker.Twin M t t') (terminal : t.isTerminal = true) :
    (s'.priceFinal plan'.toProblem ⟨t'.assignment plan'.graph⟩).1 =
        (s.priceFinal plan.toProblem ⟨t.assignment plan.graph⟩).1 ∧
      M.Progresses R (s.priceFinal plan.toProblem ⟨t.assignment plan.graph⟩).2
        (s'.priceFinal plan'.toProblem ⟨t'.assignment plan'.graph⟩).2 := by
  obtain ⟨agree, next⟩ := matched.evaluate progresses.evaluator twin terminal
  unfold Progress.priceFinal
  rcases asked : s.evaluator.evaluate plan.ask ⟨t.assignment plan.graph⟩ with ⟨answer, evaluator⟩
  rcases asked' : s'.evaluator.evaluate plan'.ask ⟨t'.assignment plan'.graph⟩ with
    ⟨answer', evaluator'⟩
  rw [asked, asked'] at agree next
  cases agree with
  | fault fault => exact ⟨rfl, { progresses with evaluator := next }⟩
  | @value reply reply' same =>
      rcases reply with cost | why <;> rcases reply' with cost' | why'
      · obtain rfl : cost' = cost := Option.some.inj same
        refine ⟨rfl, { progresses with evaluator := next, best := ?_ }⟩
        exact rel_cheaper progresses.best ⟨twin.terms matched.accepted.wellFormed, rfl⟩
      · exact nomatch same
      · exact nomatch same
      · exact ⟨rfl, { progresses with evaluator := next }⟩

theorem Plan.Matched.outcome (matched : Plan.Matched M R) (progresses : M.Progresses R s s')
    {term term' : Term} (terms : M.Terms term term') (cost : Option α) :
    M.Outcomes (s.outcome plan term cost) (s'.outcome plan' term' cost) where
  term := terms
  cost_eq := rfl
  best := progresses.best
  playouts_eq := progresses.playouts_eq
  evaluations_eq := progresses.evaluator.calls_eq
  failures_eq := progresses.evaluator.failures_eq
  deadEnds_eq := progresses.deadEnds_eq
  summary := by
    simp only [Progress.outcome, matched.summarised_eq]
    split
    · exact .some progresses.summary
    · exact .none

theorem Plan.Matched.conclude (matched : Plan.Matched M R) (progresses : M.Progresses R s s')
    (faithful : Faithful plan.graph s.tree) :
    Agree M.Outcomes (conclude plan s).1 (conclude plan' s').1 ∧
      M.Progresses R (conclude plan s).2 (conclude plan' s').2 := by
  have terms := matched.finalTerm progresses.trees faithful plan.tuning.completionAttempts
    plan.lastStream
  unfold EGraphSearch.conclude
  rw [matched.tuning_eq, matched.lastStream_eq]
  rcases read : finalTerm plan.toProblem plan.tuning.completionAttempts s.tree plan.lastStream
    with ⟨result, journal⟩
  rcases read' : finalTerm plan'.toProblem plan.tuning.completionAttempts s'.tree plan.lastStream
    with ⟨result', journal'⟩
  rw [read, read'] at terms
  cases terms with
  | fault fault => exact ⟨.fault fault, progresses.report _ _⟩
  | value found =>
      obtain ⟨t, t', twin, terminal, rfl, rfl⟩ := found
      obtain ⟨same, next⟩ := matched.priceFinal (progresses.report journal journal') twin terminal
      dsimp only
      rcases priced : (s.report journal).priceFinal plan.toProblem ⟨t.assignment plan.graph⟩ with
        ⟨cost, u⟩
      rcases priced' : (s'.report journal').priceFinal plan'.toProblem
        ⟨t'.assignment plan'.graph⟩ with ⟨cost', u'⟩
      rw [priced, priced'] at same next
      obtain rfl : cost' = cost := same
      cases cost' with
      | error fault => exact ⟨.fault fault, next⟩
      | ok cost =>
          exact ⟨.value (matched.outcome next (twin.terms matched.accepted.wellFormed) cost),
            next.report _ _⟩

theorem Matching.Progresses.opened (M : Matching plan.graph plan'.graph) {state : σ} {state' : σ'}
    (related : R state state') : M.Progresses R (plan.opened state) (plan'.opened state') where
  trees := .initial M
  evaluator := ⟨related, rfl, rfl⟩
  playouts_eq := rfl
  deadEnds_eq := rfl
  best := .none
  committed_eq := rfl

theorem Plan.Matched.extract (matched : Plan.Matched M R) {state : σ} {state' : σ'}
    (related : R state state')
    (bounded : plan.tuning.perRound = none ∨ plan.budget.remaining?.isSome) :
    Agree M.Outcomes (extract plan state).1 (extract plan' state').1 ∧
      M.Progresses R (extract plan state).2 (extract plan' state').2 := by
  have wf := matched.accepted.wellFormed
  have budget_eq : plan'.budget = plan.budget := by
    rw [Plan.budget, Plan.budget, matched.maxPlayouts_eq, matched.timeLimit_eq]
  have ends : M.SearchEnds R (plan.searched state) (plan'.searched state') := by
    rw [Plan.searched, Plan.searched, budget_eq]
    exact matched.search (.opened M related) ((sane_initial state).report _) bounded
  rw [extract_eq, extract_eq, ends.result_eq]
  cases searched : (plan.searched state).result with
  | error fault => exact ⟨.fault fault, ends.progresses⟩
  | ok _ =>
      have sane := sane_searched searched matched.alone wf priced_trivial
      exact matched.conclude ends.progresses sane.faithful

end Outcomes

end EGraphSearch
