import EGraphSearch.Proofs.Search.Prefix
import EGraphSearch.Proofs.Search.Saturation
import EGraphSearch.Proofs.Search.Traffic

/-!
# The best pair and the terms that have been priced

An oracle without memory has one price for every term.  A playout that ends at a terminal node rolls
out nothing: it asks for the price of the term of that node.  So the best pair is never dearer than
the term of a terminal node, however the search came to its tree.
-/

set_option autoImplicit false

namespace EGraphSearch

variable {σ ρ : Type}

/-! ## Prices -/

/-- The oracle has no memory: whenever it replies it charges the price of the term or, if that has
none, fails.  Terms that are equal have one price. -/
structure Problem.Pure (p : Problem σ ρ Float) (price : Term → Option Float) : Prop where
  replies : ∀ term state reply, (p.ask term state).1 = .ok reply → reply.cost? = price term
  steady : ∀ term other : Term, term.assignment.Keyed → other.assignment.Keyed →
    term.same other = true → price term = price other

/-- If the term has a price, then something is found that is not dearer. -/
def Covers (price : Term → Option Float) (best : Option (Term × Float)) (term : Term) : Prop :=
  ∀ cost, price term = some cost → Finds best cost

/-- A valid term with its price. -/
structure Attained (g : EGraph) (price : Term → Option Float) (found : Term × Float) : Prop where
  keyed : found.1.assignment.Keyed
  valid : found.1.validate g = .ok ()
  price_eq : price found.1 = some found.2
  costed : Costed found

theorem Finds.trans_noDearer {old new : Option (Term × Float)} {cost : Float}
    (finds : Finds old cost) (grows : NoDearer old new) : Finds new cost := by
  obtain ⟨term, found, known, le⟩ := finds
  obtain ⟨term', found', known', le'⟩ := Finds.of_noDearer grows known
  exact ⟨term', found', known', Doubles.le_trans le' le⟩

theorem Covers.trans_noDearer {price : Term → Option Float} {old new : Option (Term × Float)}
    {term : Term} (covers : Covers price old term) (grows : NoDearer old new) :
    Covers price new term :=
  fun cost known => (covers cost known).trans_noDearer grows

theorem finds_elim {best leafBest : Option (Term × Float)} {cost : Float}
    (costed : Best Costed leafBest) (known : Best Costed best) (finds : Finds leafBest cost) :
    Finds (leafBest.elim best (cheaper best)) cost := by
  obtain ⟨term, found, rfl, le⟩ := finds
  obtain ⟨⟨term', found'⟩, picked, le'⟩ := cheaper_le known (costed _ rfl)
  exact ⟨term', found', picked, Doubles.le_trans le' le⟩

/-! ## Rollouts -/

section Rollouts

variable {p : Problem σ ρ Float} {price : Term → Option Float} {s : Sampling σ ρ Float}

/-- One rollout finds something, or nothing. -/
theorem price_best (term : Term) : ∃ found : Option (Term × Float),
    (s.price p term).2.tally.best = found.elim s.tally.best (cheaper s.tally.best) := by
  unfold Sampling.price
  rcases evaluate_cases (p := p) s.evaluator term with
    ⟨fault, evaluator, asked, _⟩ | ⟨reply, evaluator, asked, _⟩
  · rw [asked]
    exact ⟨none, rfl⟩
  · rw [asked]
    cases reply with
    | failed why => exact ⟨none, (countFailure_spec Tally.failed fun _ _ => rfl).2⟩
    | cost cost => exact ⟨some (term, cost), rfl⟩

theorem rollOnce_best (keep : Bool) : ∃ found : Option (Term × Float),
    (s.rollOnce p keep).2.tally.best = found.elim s.tally.best (cheaper s.tally.best) := by
  unfold Sampling.rollOnce
  dsimp only
  split
  · exact ⟨none, rfl⟩
  · exact ⟨none, (countFailure_spec Tally.deadEnd fun _ _ => rfl).2⟩
  · split
    · exact ⟨none, rfl⟩
    · exact price_best _

theorem rollMany_noDearer (wf : p.graph.toArena.WellFormed) (priced : p.Priced Costed) (keep : Bool)
    (count : Nat) : ∀ {s : Sampling σ ρ Float}, Tracker.Inv p.graph s.tracker →
      Best Costed s.tally.best →
      NoDearer s.tally.best (s.rollMany p keep count).2.tally.best := by
  induction count with
  | zero => exact fun _ costed => .refl costed
  | succ count ih =>
      intro s inv costed
      obtain ⟨invNext, costedNext⟩ := rollOnce_spec wf priced keep inv costed
      obtain ⟨found, best⟩ := rollOnce_best (p := p) (s := s) keep
      have grows : NoDearer s.tally.best (s.rollOnce p keep).2.tally.best := by
        rw [best]
        exact noDearer_elim costed found
      simp only [Sampling.rollMany]
      split
      · rename_i rolled
        rw [rolled] at grows
        exact grows
      · rename_i rolled
        rw [rolled] at invNext costedNext grows
        exact grows.trans (ih invNext costedNext)

/-- A rollout from a terminal tracker asks for the price of its term. -/
theorem rollOnce_covers (pure : p.Pure price) (priced : p.Priced Costed) (keep : Bool)
    (inv : Tracker.Inv p.graph s.tracker) (terminal : s.tracker.isTerminal = true)
    (costed : Best Costed s.tally.best) (rolled : (s.rollOnce p keep).1 = .ok ()) :
    Covers price (s.rollOnce p keep).2.tally.best ⟨s.tracker.assignment p.graph⟩ := by
  have termOf : s.tracker.toTerm p.graph = .ok ⟨s.tracker.assignment p.graph⟩ :=
    Tracker.toTerm_of_terminal terminal
  simp only [Sampling.rollOnce, rollout_terminal terminal, termOf, Sampling.price] at rolled ⊢
  intro cost known
  rcases evaluate_cases (p := p) s.evaluator ⟨s.tracker.assignment p.graph⟩ with
    ⟨fault, evaluator, asked, _⟩ | ⟨reply, evaluator, asked, answer⟩
  · simp [asked] at rolled
  · rw [asked]
    have charged := pure.replies _ _ _ answer
    rw [known] at charged
    cases reply with
    | failed why => cases charged
    | cost charge =>
        cases charged
        have here : Costed (⟨s.tracker.assignment p.graph⟩, cost) :=
          priced s.tracker _ _ cost inv termOf answer
        obtain ⟨⟨term, found⟩, picked, le⟩ := cheaper_le costed here
        exact ⟨term, found, picked, le⟩

theorem evaluateLeaf_covers (wf : p.graph.toArena.WellFormed) (pure : p.Pure price)
    (priced : p.Priced Costed) {rollouts : Number} (atLeastOne : rollouts.below 1 = false)
    {tracker : Tracker} {evaluator : Evaluator σ} {source : ρ} {leaf : Leaf Float}
    {sampling : Sampling σ ρ Float} (inv : Tracker.Inv p.graph tracker)
    (terminal : tracker.isTerminal = true)
    (evaluated : evaluateLeaf p rollouts tracker evaluator source = (.ok leaf, sampling)) :
    Covers price leaf.best ⟨tracker.assignment p.graph⟩ := by
  obtain ⟨count, whole, rfl, rolled⟩ := evaluateLeaf_cases evaluated
  have positive := Number.one_le_of_not_below atLeastOne whole
  obtain ⟨more, rounds⟩ : ∃ more, count.toNat = more + 1 := ⟨count.toNat - 1, by omega⟩
  have fresh : Best Costed (Sampling.start tracker evaluator source :
      Sampling σ ρ Float).tally.best :=
    fun _ none_ => by simp [Sampling.start, Tally.empty] at none_
  have asked := rollOnce_covers (s := Sampling.start tracker evaluator source) pure priced
    (decide (1 < count)) inv terminal fresh
  obtain ⟨invNext, costedNext⟩ := rollOnce_spec (s := Sampling.start tracker evaluator source) wf
    priced (decide (1 < count)) inv fresh
  have later := rollMany_noDearer wf priced (decide (1 < count)) more invNext costedNext
  rw [rounds] at rolled
  obtain ⟨next, once, many⟩ := rollMany_cases rolled
  rw [once] at asked later
  rw [many] at later
  exact (asked rfl).trans_noDearer later

end Rollouts

/-! ## Surveys -/

section Survey

variable {p : Problem σ ρ Float} {price : Term → Option Float} {tuning : Tuning Float}
  {s next : Progress σ Float} {start : Nat} {source : ρ} {leaf : Leaf Float}

/-- A sane search whose best pair is not dearer than the term of any terminal node. -/
structure Surveyed (p : Problem σ ρ Float) (price : Term → Option Float) (s : Progress σ Float) :
    Prop extends Sane p (Attained p.graph price) s where
  charted : Charted p.graph s.tree
  covered : ∀ i < s.tree.size, ∀ t, replay p.graph s.tree i = .ok t → t.isTerminal = true →
    Covers price s.best ⟨t.assignment p.graph⟩

theorem surveyed_initial (oracle : σ) : Surveyed p price (Progress.initial oracle) where
  toSane := sane_initial oracle
  charted := charted_initial
  covered i inside t replayed terminal := by
    obtain rfl : i = 0 := Nat.lt_one_iff.mp inside
    cases (replay_root Tree.linked_initial).symm.trans replayed
    simp [Tracker.start, Tracker.isTerminal] at terminal

theorem Surveyed.report (surveyed : Surveyed p price s) (events : List (Event Float)) :
    Surveyed p price (s.report events) :=
  ⟨surveyed.toSane.report events, surveyed.charted, surveyed.covered⟩

theorem Surveyed.commit (surveyed : Surveyed p price s) {child : Nat}
    (inside : child < s.tree.size) : Surveyed p price (s.commit child) :=
  ⟨⟨surveyed.faithful, inside, surveyed.best⟩, surveyed.charted, surveyed.covered⟩

theorem Surveyed.play (wf : p.graph.toArena.WellFormed) (pure : p.Pure price)
    (priced : p.Priced (Attained p.graph price)) (atLeastOne : tuning.rollouts.below 1 = false)
    (surveyed : Surveyed p price s) (inside : start < s.tree.size)
    (played : playout p tuning start source s = (.ok leaf, next)) :
    Surveyed p price (next.record tuning leaf) := by
  have pricedCosted : p.Priced Costed := fun t term state cost inv termOf answer =>
    (priced t term state cost inv termOf answer).costed
  have spec := playout_spec wf priced surveyed.faithful inside played
  have costedBest : Best Costed s.best := fun found known => (surveyed.best found known).costed
  have costedLeaf : Best Costed leaf.best := fun found known => (spec.best found known).costed
  obtain ⟨tracker, path, replayed, walked, credited, _, _, sampling, evaluated⟩ :=
    playout_cases played
  have walk := (selectAndExpand_cases wf (tuning.constants Scalar.zero) surveyed.charted inside
    replayed).resolve_right fun ⟨_, fault, failed⟩ => by simp [walked] at failed
  generalize selectAndExpand p.graph (tuning.constants Scalar.zero) s.tree tracker start = arrived
    at walked credited evaluated walk
  have restated : Tree.Restated arrived.tree next.tree := by
    have updated := Tree.restated_updatePath (f := SearchNode.credit leaf.value)
      (fun n => ⟨_, _, _, rfl⟩) path arrived.tree
    rw [Tree.creditPath] at credited
    rwa [credited] at updated
  have saneCosted : Sane p Costed s := ⟨surveyed.faithful, surveyed.committed_lt, costedBest⟩
  have grows : NoDearer s.best (next.record tuning leaf).best :=
    saneCosted.noDearer_play wf pricedCosted inside played
  refine ⟨surveyed.toSane.play wf priced inside played, ?_, ?_⟩
  · rw [tree_record]
    exact restated.charted walk.charted
  · rw [tree_record]
    intro i insideNext t replayedNext terminal
    rw [restated.size_eq] at insideNext
    rw [replay_congr walk.charted.toLinked restated.lasts.kept insideNext] at replayedNext
    rcases Nat.lt_or_ge i s.tree.size with old | new
    · rw [replay_congr surveyed.charted.toLinked walk.lasts.kept old] at replayedNext
      exact (surveyed.covered i old t replayedNext terminal).trans_noDearer grows
    · -- the node is new, so the playout ended there
      obtain ⟨_, last, arrives⟩ := walk.arrives
      obtain rfl : i = last := by
        rcases arrives.grown with ⟨size, same⟩ | ⟨size, _⟩ <;> omega
      cases replayedNext.symm.trans arrives.state_eq
      have covers := evaluateLeaf_covers wf pure pricedCosted atLeastOne
        (inv_of_replay wf replayedNext) terminal evaluated
      intro cost known
      rw [best_record, spec.best_eq]
      exact finds_elim costedLeaf costedBest (covers cost known)

end Survey

end EGraphSearch
