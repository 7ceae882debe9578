import EGraphSearch.Proofs.Search.Batches
import EGraphSearch.Proofs.Tracker.Twins
import EGraphSearch.Proofs.Tree.Counterparts

/-!
# Playouts on matched e-graphs

Twin trackers and trees that are counterparts stay so in everything that a playout does: on walks
down the tree, in rollouts and when their values go back up.  What is drawn and what the oracles
charge are the only things that a playout learns from outside.
-/

set_option autoImplicit false

namespace EGraphSearch

/-- Two results agree if they are the same fault or related values. -/
inductive Agree {β γ : Type} (R : β → γ → Prop) : Except Fault β → Except Fault γ → Prop
  | fault (fault : Fault) : Agree R (.error fault) (.error fault)
  | value {b : β} {c : γ} (related : R b c) : Agree R (.ok b) (.ok c)

open Tracker (Twin)

/-! ## Walks -/

section Walks

variable {α : Type} [Scalar α] {g g' : EGraph} {M : Matching g g'} {tree tree' : Tree α}
  {t t' u : Tracker} {i : Nat}

omit [Scalar α] in
theorem Tracker.Twin.applyAll (leveled : g.Leveled) (leveled' : g'.Leveled) (moves : List Nat) :
    ∀ {t t' u : Tracker}, Twin M t t' → t.applyAll g moves = .ok u →
      ∃ u', t'.applyAll g' (moves.map M.node) = .ok u' ∧ Twin M u u' := by
  induction moves with
  | nil =>
      intro t t' u twin applied
      cases applied
      exact ⟨t', rfl, twin⟩
  | cons n rest ih =>
      intro t t' u twin applied
      simp only [Tracker.applyAll] at applied
      cases first : t.apply g n with
      | error fault => simp [first] at applied
      | ok next =>
          obtain ⟨next', first', twinNext⟩ := twin.apply leveled leveled' first
          simp only [first] at applied
          simp only [List.map_cons, Tracker.applyAll, first']
          exact ih twinNext applied

/-- Corresponding tree nodes have twin trackers. -/
theorem Matching.Trees.replayed (trees : M.Trees tree tree') (leveled : g.Leveled)
    (leveled' : g'.Leveled) (replayed : replay g tree i = .ok t) :
    ∃ t', replay g' tree' i = .ok t' ∧ Twin M t t' := by
  unfold replay at replayed ⊢
  rw [trees.movesTo_eq]
  cases path : tree.movesTo i with
  | error fault => simp [path] at replayed
  | ok moves =>
      simp only [path] at replayed
      exact (Tracker.twin_start leveled.wellFormed leveled'.wellFormed).applyAll leveled leveled'
        moves replayed

structure Matching.Walks (M : Matching g g') (walk walk' : Walk α) : Prop where
  trees : M.Trees walk.tree walk'.tree
  twin : Twin M walk.tracker walk'.tracker
  path_eq : walk'.path = walk.path

theorem Matching.Trees.expanded (trees : M.Trees tree tree') (leveled : g.Leveled)
    (leveled' : g'.Leveled) {moved moved' : Tracker} {p move : Nat} (twin : Twin M moved moved')
    (inside : i < tree.size) (offers : g.Offers p move)
    (untried : ∀ entry ∈ (tree.node i).children, entry.1 ≠ move) :
    M.Walks (expand g tree moved i p move)
      (expand g' tree' moved' i (M.cls p) (M.node move)) := by
  have offered : ∀ m ∈ [move], g.Offers p m := by simpa using offers
  have untried' : ∀ entry ∈ (tree'.node i).children, entry.1 ≠ M.node move := by
    rw [(trees.nodes i).children_eq]
    intro entry listed same
    obtain ⟨old, tried, rfl⟩ := List.mem_map.mp listed
    exact untried old tried ((trees.nodes i).apart leveled'.wellFormed offered old tried move
      (List.mem_singleton_self _) same)
  rw [expand_eq inside untried, expand_eq (trees.size_eq ▸ inside) untried', Tree.expanded,
    Tree.expanded, trees.size_eq]
  exact ⟨(trees.withChild offers i).noteMoves (by rw [twin.legalMoves_eq leveled leveled',
    List.length_map]) twin.isTerminal_eq _, twin, rfl⟩

/-- By induction on the open classes: both walks select corresponding moves. -/
theorem Matching.Trees.descended (leveled : g.Leveled) (leveled' : g'.Leveled)
    (constants : Option (ScoreConstants α)) (k : Nat) :
    ∀ {tree tree' : Tree α} {t t' : Tracker} {i : Nat}, t.openCount < k → M.Trees tree tree' →
      Twin M t t' →
      M.Walks (descend g constants tree t i) (descend g' constants tree' t' i) := by
  have wf := leveled.wellFormed
  induction k with
  | zero => exact fun small => absurd small (Nat.not_lt_zero _)
  | succ k ih =>
      intro tree tree' t t' i small trees twin
      have moves := twin.legalMoves_eq leveled leveled'
      have noted := trees.noteMoves (by rw [moves, List.length_map]) twin.isTerminal_eq i
      by_cases stuck : t.legalMoves g = []
      · have stuck' : t'.legalMoves g' = [] := by rw [moves, stuck, List.map_nil]
        rw [descend, descend]
        simp only [stuck, stuck']
        exact ⟨noted, twin, rfl⟩
      · have some_move' : t'.legalMoves g' ≠ [] := by simpa [moves] using stuck
        obtain ⟨c, offers⟩ := twin.inv.offers_legalMoves wf
        have same := noted.selectMove_eq leveled'.wellFormed offers constants i
        rw [← moves] at same
        rcases picked : (tree.noteMoves g i t).selectMove constants i (t.legalMoves g) with
          fault | move | ⟨move, child⟩
        · rw [picked] at same
          rw [descend_failed stuck picked, descend_failed some_move' same]
          exact ⟨noted, twin, rfl⟩
        · obtain ⟨inside, listed, fresh⟩ := Tree.of_selectMove stuck picked
          obtain ⟨moved, applied, _⟩ := Tracker.apply_of_mem_legalMoves wf twin.inv listed
          obtain ⟨moved', applied', twinMoved⟩ := twin.apply leveled leveled' applied
          obtain ⟨p, pending, _⟩ := twin.inv.of_apply wf applied
          have pending' : t'.pending = some (M.cls p) := by
            rw [twin.pending_eq, pending, Option.map_some]
          rw [picked] at same
          rw [descend_untried stuck picked applied, descend_untried some_move' same applied',
            pending, pending']
          exact noted.expanded leveled leveled' twinMoved inside
            (twin.inv.offers_of_apply wf pending applied) (fresh move rfl)
        · obtain ⟨_, listed, _⟩ := Tree.of_selectMove stuck picked
          obtain ⟨moved, applied, _⟩ := Tracker.apply_of_mem_legalMoves wf twin.inv listed
          obtain ⟨moved', applied', twinMoved⟩ := twin.apply leveled leveled' applied
          have fewer := Tracker.apply_openCount applied
          have walks : M.Walks _ _ := ih (i := child) (by omega) noted twinMoved
          rw [picked] at same
          rw [descend_known stuck picked applied, descend_known some_move' same applied']
          exact ⟨walks.trees, walks.twin, by rw [Walk.after, Walk.after, walks.path_eq]⟩

theorem Matching.Trees.selected (trees : M.Trees tree tree') (leveled : g.Leveled)
    (leveled' : g'.Leveled) (constants : Option (ScoreConstants α)) (twin : Twin M t t')
    (start : Nat) : M.Walks (selectAndExpand g constants tree t start)
      (selectAndExpand g' constants tree' t' start) := by
  unfold selectAndExpand
  rw [trees.pathFromRoot_eq]
  cases tree.pathFromRoot start with
  | error fault => exact ⟨trees, twin, rfl⟩
  | ok path =>
      have walks := Matching.Trees.descended (i := start) leveled leveled' constants _
        (Nat.lt_succ_self _) trees twin
      exact ⟨walks.trees, walks.twin, congrArg (Except.map (path ++ ·)) walks.path_eq⟩

end Walks

/-! ## Rollouts -/

/-- The choosers draw alike: from corresponding members of a class they pick corresponding ones. -/
def Matching.Choosers {ρ : Type} {g g' : EGraph} (M : Matching g g') (choose choose' : Chooser ρ) :
    Prop :=
  ∀ c moves source, (∀ n ∈ moves, g.Offers c n) →
    Agree (fun n n' => n ∈ moves ∧ n' = M.node n) (choose g moves source).1
      (choose' g' (moves.map M.node) source).1 ∧
    (choose' g' (moves.map M.node) source).2 = (choose g moves source).2

section Rollouts

variable {ρ : Type} {g g' : EGraph} {M : Matching g g'} {choose choose' : Chooser ρ}

structure Matching.Rollouts (M : Matching g g') (ended ended' : RolloutEnd ρ) : Prop where
  twin : Twin M ended.tracker ended'.tracker
  source_eq : ended'.source = ended.source
  result_eq : ended'.result = ended.result

theorem Tracker.Twin.rollout (leveled : g.Leveled) (leveled' : g'.Leveled)
    (choosers : M.Choosers choose choose') (k : Nat) :
    ∀ {t t' : Tracker} (source : ρ), t.openCount < k → Twin M t t' →
      M.Rollouts (rollout g choose t source) (rollout g' choose' t' source) := by
  have wf := leveled.wellFormed
  induction k with
  | zero => exact fun _ small => absurd small (Nat.not_lt_zero _)
  | succ k ih =>
      intro t t' source small twin
      have sameTerminal := twin.isTerminal_eq
      have moves := twin.legalMoves_eq leveled leveled'
      cases terminal : t.isTerminal with
      | true =>
          rw [rollout_terminal terminal, rollout_terminal (sameTerminal.trans terminal)]
          exact ⟨twin, rfl, rfl⟩
      | false =>
      have terminal' := sameTerminal.trans terminal
      by_cases stuck : t.legalMoves g = []
      · have stuck' : t'.legalMoves g' = [] := by rw [moves, stuck, List.map_nil]
        rw [rollout_deadEnd (by simp [Tracker.isDeadEnd, terminal, stuck]),
          rollout_deadEnd (by simp [Tracker.isDeadEnd, terminal', stuck'])]
        exact ⟨twin, rfl, rfl⟩
      · have some_move' : t'.legalMoves g' ≠ [] := by simpa [moves] using stuck
        obtain ⟨c, offers⟩ := twin.inv.offers_legalMoves wf
        obtain ⟨agree, sameNext⟩ := choosers c _ source offers
        rw [← moves] at agree sameNext
        rcases chosen : choose g (t.legalMoves g) source with ⟨result, next⟩
        rcases chosen' : choose' g' (t'.legalMoves g') source with ⟨result', next'⟩
        rw [chosen, chosen'] at agree sameNext
        obtain rfl : next' = next := sameNext
        cases agree with
        | fault fault =>
            rw [rollout_refused terminal stuck chosen, rollout_refused terminal' some_move' chosen']
            exact ⟨twin, rfl, rfl⟩
        | @value n _ picked =>
            obtain ⟨listed, rfl⟩ := picked
            obtain ⟨moved, applied, _⟩ := Tracker.apply_of_mem_legalMoves wf twin.inv listed
            obtain ⟨moved', applied', twinMoved⟩ := twin.apply leveled leveled' applied
            have fewer := Tracker.apply_openCount applied
            rw [rollout_moved terminal stuck chosen applied,
              rollout_moved terminal' some_move' chosen' applied']
            exact ih next' (by omega) twinMoved

end Rollouts

/-! ## Evaluations -/

/-- The oracles answer alike: on corresponding valid terms, from related states, they charge the
same or fail both, and their next states are related. -/
def Matching.Askers {σ σ' α : Type} {g g' : EGraph} (M : Matching g g') (R : σ → σ' → Prop)
    (ask : Asker σ α) (ask' : Asker σ' α) : Prop :=
  ∀ term term' state state', M.Terms term term' → term.validate g = .ok () →
    term'.validate g' = .ok () → R state state' →
    Agree (fun reply reply' => reply'.cost? = reply.cost?) (ask term state).1
      (ask' term' state').1 ∧
    R (ask term state).2 (ask' term' state').2

structure Evaluator.Matched {σ σ' : Type} (R : σ → σ' → Prop) (e : Evaluator σ)
    (e' : Evaluator σ') : Prop where
  oracle : R e.oracle e'.oracle
  calls_eq : e'.calls = e.calls
  failures_eq : e'.failures = e.failures

/-- What a playout works on, up to the numbers and names of classes and nodes. -/
structure Problem.Matched {σ σ' ρ α : Type} {p : Problem σ ρ α} {p' : Problem σ' ρ α}
    (M : Matching p.graph p'.graph) (R : σ → σ' → Prop) : Prop where
  accepted : p.graph.Accepted
  accepted' : p'.graph.Accepted
  checkable : p.graph.Checkable
  checkable' : p'.graph.Checkable
  choosers : M.Choosers p.choose p'.choose
  askers : M.Askers R p.ask p'.ask
  valuation_eq : p'.valuation = p.valuation

section Leaves

variable {σ σ' ρ α : Type} {g g' : EGraph}

/-- Corresponding terms at the same cost. -/
def Matching.Pairs (M : Matching g g') (found found' : Term × α) : Prop :=
  M.Terms found.1 found'.1 ∧ found'.2 = found.2

structure Matching.Tallies (M : Matching g g') (t t' : Tally α) : Prop where
  total_eq : t'.total = t.total
  evaluations_eq : t'.evaluations = t.evaluations
  failures_eq : t'.failures = t.failures
  deadEnds_eq : t'.deadEnds = t.deadEnds
  best : Option.Rel M.Pairs t.best t'.best

structure Matching.Leaves (M : Matching g g') (leaf leaf' : Leaf α) : Prop
    extends M.Tallies leaf.toTally leaf'.toTally where
  value_eq : leaf'.value = leaf.value

structure Matching.Samplings (M : Matching g g') (R : σ → σ' → Prop) (s : Sampling σ ρ α)
    (s' : Sampling σ' ρ α) : Prop where
  twin : Twin M s.tracker s'.tracker
  evaluator : s.evaluator.Matched R s'.evaluator
  source_eq : s'.source = s.source
  tallies : M.Tallies s.tally s'.tally

theorem rel_cheaper [Scalar α] {M : Matching g g'} {best best' : Option (Term × α)}
    {found found' : Term × α} (known : Option.Rel M.Pairs best best')
    (pairs : M.Pairs found found') :
    Option.Rel M.Pairs (cheaper best found) (cheaper best' found') := by
  cases known with
  | none => exact .some pairs
  | some old =>
      simp only [cheaper, pairs.2, old.2]
      split
      · exact .some pairs
      · exact .some old

variable {p : Problem σ ρ α} {p' : Problem σ' ρ α} {M : Matching p.graph p'.graph}
  {R : σ → σ' → Prop}

theorem Problem.Matched.evaluate (matched : Problem.Matched M R) {e : Evaluator σ}
    {e' : Evaluator σ'} (evaluators : e.Matched R e') {t t' : Tracker} (twin : Twin M t t')
    (terminal : t.isTerminal = true) :
    Agree (fun reply reply' => reply'.cost? = reply.cost?)
      (e.evaluate p.ask ⟨t.assignment p.graph⟩).1
      (e'.evaluate p'.ask ⟨t'.assignment p'.graph⟩).1 ∧
    (e.evaluate p.ask ⟨t.assignment p.graph⟩).2.Matched R
      (e'.evaluate p'.ask ⟨t'.assignment p'.graph⟩).2 := by
  have wf := matched.accepted.wellFormed
  have wf' := matched.accepted'.wellFormed
  have pending := Tracker.pending_of_terminal terminal
  have pending' := Tracker.pending_of_terminal (twin.isTerminal_eq.trans terminal)
  obtain ⟨agree, next⟩ := matched.askers _ _ e.oracle e'.oracle (twin.terms wf)
    (twin.inv.validate_toTerm wf matched.checkable pending).2
    (twin.inv'.validate_toTerm wf' matched.checkable' pending').2 evaluators.oracle
  unfold Evaluator.evaluate
  rcases asked : p.ask ⟨t.assignment p.graph⟩ e.oracle with ⟨answer, state⟩
  rcases asked' : p'.ask ⟨t'.assignment p'.graph⟩ e'.oracle with ⟨answer', state'⟩
  rw [asked, asked'] at agree next
  cases agree with
  | fault fault => exact ⟨.fault fault, next, evaluators.calls_eq, evaluators.failures_eq⟩
  | value same =>
      refine ⟨.value same, next, congrArg (· + 1) evaluators.calls_eq, ?_⟩
      simp only [Evaluator.count, same, evaluators.failures_eq]

variable [Scalar α] {s : Sampling σ ρ α} {s' : Sampling σ' ρ α}

omit [Scalar α] in
theorem Problem.Matched.countFailure (matched : Problem.Matched M R)
    (samplings : M.Samplings R s s') {count : α → Tally α → Tally α}
    (keeps : ∀ x t t', M.Tallies t t' → M.Tallies (count x t) (count x t')) :
    (s'.countFailure p' count).1 = (s.countFailure p count).1 ∧
      M.Samplings R (s.countFailure p count).2 (s'.countFailure p' count).2 := by
  unfold Sampling.countFailure
  rw [matched.valuation_eq]
  cases p.valuation.failure with
  | error fault => exact ⟨rfl, samplings⟩
  | ok failure => exact ⟨rfl, { samplings with tallies := keeps failure _ _ samplings.tallies }⟩

theorem Problem.Matched.price (matched : Problem.Matched M R) (samplings : M.Samplings R s s')
    {t t' : Tracker} (twin : Twin M t t') (terminal : t.isTerminal = true) :
    (s'.price p' ⟨t'.assignment p'.graph⟩).1 = (s.price p ⟨t.assignment p.graph⟩).1 ∧
      M.Samplings R (s.price p ⟨t.assignment p.graph⟩).2
        (s'.price p' ⟨t'.assignment p'.graph⟩).2 := by
  obtain ⟨agree, next⟩ := matched.evaluate samplings.evaluator twin terminal
  unfold Sampling.price
  rcases asked : s.evaluator.evaluate p.ask ⟨t.assignment p.graph⟩ with ⟨answer, evaluator⟩
  rcases asked' : s'.evaluator.evaluate p'.ask ⟨t'.assignment p'.graph⟩ with ⟨answer', evaluator'⟩
  rw [asked, asked'] at agree next
  have tallies := samplings.tallies
  cases agree with
  | fault fault => exact ⟨rfl, { samplings with evaluator := next }⟩
  | @value reply reply' same =>
      rcases reply with cost | why <;> rcases reply' with cost' | why'
      · obtain rfl : cost' = cost := Option.some.inj same
        refine ⟨rfl, samplings.twin, next, samplings.source_eq, ?_⟩
        rw [matched.valuation_eq]
        exact {
          total_eq := congrArg (· + p.valuation.value cost') tallies.total_eq
          evaluations_eq := congrArg (· + 1) tallies.evaluations_eq
          failures_eq := tallies.failures_eq
          deadEnds_eq := tallies.deadEnds_eq
          best := rel_cheaper tallies.best ⟨twin.terms matched.accepted.wellFormed, rfl⟩ }
      · exact nomatch same
      · exact nomatch same
      · have failed : M.Samplings R
            { s with
              evaluator := evaluator
              unpriced := s.unpriced ++ [(⟨t.assignment p.graph⟩, why)] }
            { s' with
              evaluator := evaluator'
              unpriced := s'.unpriced ++ [(⟨t'.assignment p'.graph⟩, why')] } :=
          ⟨samplings.twin, next, samplings.source_eq, tallies⟩
        refine matched.countFailure failed fun x _ _ tallies => ?_
        exact { tallies with
          total_eq := congrArg (· + x) tallies.total_eq
          evaluations_eq := congrArg (· + 1) tallies.evaluations_eq
          failures_eq := congrArg (· + 1) tallies.failures_eq }

theorem Problem.Matched.rollOnce (matched : Problem.Matched M R) (samplings : M.Samplings R s s')
    (keep : Bool) : (s'.rollOnce p' keep).1 = (s.rollOnce p keep).1 ∧
      M.Samplings R (s.rollOnce p keep).2 (s'.rollOnce p' keep).2 := by
  have rolled := samplings.twin.rollout matched.accepted.leveled matched.accepted'.leveled
    matched.choosers _ s.source (Nat.lt_succ_self _)
  have complete := (rollout_spec p.choose matched.accepted.wellFormed _ s.source
    (Nat.lt_succ_self _) samplings.twin.inv).2.1
  unfold Sampling.rollOnce
  rw [samplings.source_eq]
  generalize rollout p.graph p.choose s.tracker s.source = ended at rolled complete
  generalize rollout p'.graph p'.choose s'.tracker s.source = ended' at rolled
  have twinKept : Twin M (if keep then s.tracker else ended.tracker)
      (if keep then s'.tracker else ended'.tracker) := by
    cases keep with
    | true => exact samplings.twin
    | false => exact rolled.twin
  have next : M.Samplings R
      { s with
        source := ended.source
        tracker := if keep then s.tracker else ended.tracker }
      { s' with
        source := ended'.source
        tracker := if keep then s'.tracker else ended'.tracker } :=
    ⟨twinKept, samplings.evaluator, rolled.source_eq, samplings.tallies⟩
  dsimp only
  rw [rolled.result_eq]
  rcases result : ended.result with fault | _ | _
  · exact ⟨rfl, next⟩
  · refine matched.countFailure next fun x _ _ tallies => ?_
    exact { tallies with
      total_eq := congrArg (· + x) tallies.total_eq
      deadEnds_eq := congrArg (· + 1) tallies.deadEnds_eq }
  · have terminal := complete result
    have terminal' := rolled.twin.isTerminal_eq.trans terminal
    simp only [Tracker.toTerm_of_terminal terminal, Tracker.toTerm_of_terminal terminal']
    exact matched.price next rolled.twin terminal

theorem Problem.Matched.rollMany (matched : Problem.Matched M R) (keep : Bool) (count : Nat) :
    ∀ {s : Sampling σ ρ α} {s' : Sampling σ' ρ α}, M.Samplings R s s' →
      (s'.rollMany p' keep count).1 = (s.rollMany p keep count).1 ∧
        M.Samplings R (s.rollMany p keep count).2 (s'.rollMany p' keep count).2 := by
  induction count with
  | zero => exact fun samplings => ⟨rfl, samplings⟩
  | succ count ih =>
      intro s s' samplings
      obtain ⟨same, next⟩ := matched.rollOnce samplings keep
      simp only [Sampling.rollMany]
      rcases rolled : s.rollOnce p keep with ⟨result, u⟩
      rcases rolled' : s'.rollOnce p' keep with ⟨result', u'⟩
      rw [rolled, rolled'] at same next
      obtain rfl : result' = result := same
      cases result' with
      | error fault => exact ⟨rfl, next⟩
      | ok _ => exact ih next

theorem Problem.Matched.evaluateLeaf (matched : Problem.Matched M R) (rollouts : Number)
    {t t' : Tracker} (twin : Twin M t t') {e : Evaluator σ} {e' : Evaluator σ'}
    (evaluators : e.Matched R e') (source : ρ) :
    Agree M.Leaves (evaluateLeaf p rollouts t e source).1
      (evaluateLeaf p' rollouts t' e' source).1 ∧
    (evaluateLeaf p rollouts t e source).2.evaluator.Matched R
      (evaluateLeaf p' rollouts t' e' source).2.evaluator := by
  have fresh : M.Samplings (α := α) R (Sampling.start t e source) (Sampling.start t' e' source) :=
    ⟨twin, evaluators, rfl, rfl, rfl, rfl, rfl, .none⟩
  unfold EGraphSearch.evaluateLeaf
  cases rollouts.int? with
  | none => exact ⟨.fault _, evaluators⟩
  | some count =>
      obtain ⟨same, next⟩ := matched.rollMany (decide (1 < count)) count.toNat fresh
      dsimp only
      rcases rolled : (Sampling.start t e source).rollMany p (decide (1 < count)) count.toNat with
        ⟨result, u⟩
      rcases rolled' : (Sampling.start t' e' source).rollMany p' (decide (1 < count))
        count.toNat with ⟨result', u'⟩
      rw [rolled, rolled'] at same next
      obtain rfl : result' = result := same
      cases result' with
      | error fault => exact ⟨.fault fault, next.evaluator⟩
      | ok _ =>
          refine ⟨?_, next.evaluator⟩
          dsimp only
          split
          · exact .fault _
          · refine .value { next.tallies with value_eq := ?_ }
            exact congrArg (· / Scalar.ofInt count) next.tallies.total_eq

end Leaves

/-! ## Playouts -/

section Playouts

variable {σ σ' ρ α : Type} [Scalar α]

structure Matching.Progresses {g g' : EGraph} (M : Matching g g') (R : σ → σ' → Prop)
    (s : Progress σ α) (s' : Progress σ' α) : Prop where
  trees : M.Trees s.tree s'.tree
  evaluator : s.evaluator.Matched R s'.evaluator
  playouts_eq : s'.playouts = s.playouts
  deadEnds_eq : s'.deadEnds = s.deadEnds
  best : Option.Rel M.Pairs s.best s'.best
  committed_eq : s'.committed = s.committed

variable {p : Problem σ ρ α} {p' : Problem σ' ρ α} {M : Matching p.graph p'.graph}
  {R : σ → σ' → Prop} {s : Progress σ α} {s' : Progress σ' α} {tuning : Tuning α} {start : Nat}

theorem Matching.Progresses.record (progresses : M.Progresses R s s') {leaf leaf' : Leaf α}
    (leaves : M.Leaves leaf leaf') (tuning : Tuning α) :
    M.Progresses R (s.record tuning leaf) (s'.record tuning leaf') where
  trees := by
    rw [tree_record, tree_record]
    exact progresses.trees
  evaluator := by
    rw [evaluator_record, evaluator_record]
    exact progresses.evaluator
  playouts_eq := by rw [playouts_record, playouts_record, progresses.playouts_eq]
  deadEnds_eq := by
    rw [deadEnds_record, deadEnds_record, progresses.deadEnds_eq, leaves.deadEnds_eq]
  best := by
    rw [best_record, best_record]
    have found := leaves.best
    generalize leaf.best = first at found
    generalize leaf'.best = second at found
    cases found with
    | none => exact progresses.best
    | some pairs => exact rel_cheaper progresses.best pairs
  committed_eq := by rw [committed_record, committed_record, progresses.committed_eq]

theorem Problem.Matched.playout (matched : Problem.Matched M R)
    (progresses : M.Progresses R s s') (faithful : Faithful p.graph s.tree)
    (inside : start < s.tree.size) (tuning : Tuning α) (source : ρ) :
    Agree M.Leaves (playout p tuning start source s).1 (playout p' tuning start source s').1 ∧
      M.Progresses R (playout p tuning start source s).2 (playout p' tuning start source s').2 := by
  have leveled := matched.accepted.leveled
  have leveled' := matched.accepted'.leveled
  obtain ⟨t, replayed⟩ := faithful.replayed start inside
  obtain ⟨t', replayed', twin⟩ := progresses.trees.replayed leveled leveled' replayed
  have walks := progresses.trees.selected leveled leveled' (tuning.constants Scalar.zero) twin start
  simp only [EGraphSearch.playout, replayed, replayed']
  generalize selectAndExpand p.graph (tuning.constants Scalar.zero) s.tree t start = walk at walks
  generalize selectAndExpand p'.graph (tuning.constants Scalar.zero) s'.tree t' start = walk'
    at walks
  rw [walks.path_eq]
  cases walk.path with
  | error fault => exact ⟨.fault fault, { progresses with trees := walks.trees }⟩
  | ok path =>
      obtain ⟨agree, next⟩ := matched.evaluateLeaf tuning.rollouts walks.twin progresses.evaluator
        source
      dsimp only
      rcases evaluated : EGraphSearch.evaluateLeaf p tuning.rollouts walk.tracker s.evaluator source
        with ⟨result, sampling⟩
      rcases evaluated' : EGraphSearch.evaluateLeaf p' tuning.rollouts walk'.tracker s'.evaluator
        source with ⟨result', sampling'⟩
      rw [evaluated, evaluated'] at agree next
      cases agree with
      | fault fault =>
          exact ⟨.fault fault, { progresses with trees := walks.trees, evaluator := next }⟩
      | @value leaf leaf' leaves =>
          obtain ⟨same, credited⟩ := walks.trees.creditPath leaf.value path
          dsimp only
          rw [leaves.value_eq]
          rcases updated : walk.tree.creditPath leaf.value path with ⟨result, tree⟩
          rcases updated' : walk'.tree.creditPath leaf.value path with ⟨result', tree'⟩
          rw [updated, updated'] at same credited
          obtain rfl : result' = result := same
          cases result' with
          | error fault =>
              exact ⟨.fault fault, { progresses with trees := credited, evaluator := next }⟩
          | ok _ =>
              exact ⟨.value leaves, { progresses with trees := credited, evaluator := next }⟩

end Playouts

end EGraphSearch
