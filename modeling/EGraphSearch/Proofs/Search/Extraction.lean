import EGraphSearch.Proofs.Search.Rounds

/-!
# What an extraction returns

An extraction searches, reads the final term off the tree that the search leaves, and prices it.
The pricing can only make the best pair cheaper.
-/

set_option autoImplicit false

namespace EGraphSearch

variable {σ ρ α : Type} [Scalar α]

def Plan.opened (plan : Plan σ ρ α) (oracle : σ) : Progress σ α :=
  (Progress.initial oracle).report [.started plan.maxPlayouts plan.timeLimit]

def Plan.searched (plan : Plan σ ρ α) (oracle : σ) : SearchEnd σ α :=
  search plan plan.budget (plan.opened oracle)

/-- The best pair once the final term has its price, if it has one. -/
def finalBest (best : Option (Term × α)) (term : Term) (cost : Option α) : Option (Term × α) :=
  cost.elim best fun cost => cheaper best (term, cost)

/-- What an outcome has from the progress at the end of the search. -/
structure Concluded (plan : Plan σ ρ α) (s after : Progress σ α) (outcome : Outcome α) : Prop where
  final : (finalTerm plan.toProblem plan.tuning.completionAttempts s.tree plan.lastStream).1 =
    .ok outcome.term
  priced : ∃ reply, (plan.ask outcome.term s.evaluator.oracle).1 = .ok reply ∧
    outcome.cost = reply.cost?
  best_eq : outcome.best = finalBest s.best outcome.term outcome.cost
  playouts_eq : outcome.playouts = s.playouts
  tree_eq : after.tree = s.tree
  committed_eq : after.committed = s.committed

theorem extract_eq (plan : Plan σ ρ α) (oracle : σ) :
    extract plan oracle = (match (plan.searched oracle).result with
      | .error fault => (Except.error fault, (plan.searched oracle).progress)
      | .ok () => conclude plan (plan.searched oracle).progress) := rfl

section Conclude

variable {plan : Plan σ ρ α} {s : Progress σ α} {term : Term}

theorem conclude_of_reply {reply : Reply α}
    (found : (finalTerm plan.toProblem plan.tuning.completionAttempts s.tree plan.lastStream).1 =
      .ok term)
    (replied : (plan.ask term s.evaluator.oracle).1 = .ok reply) :
    ∃ outcome after, conclude plan s = (.ok outcome, after) ∧ outcome.term = term ∧
      Concluded plan s after outcome := by
  rcases read : finalTerm plan.toProblem plan.tuning.completionAttempts s.tree plan.lastStream
    with ⟨result, journal⟩
  rw [read] at found
  obtain rfl : result = .ok term := found
  rcases evaluate_cases (p := plan.toProblem) s.evaluator term with
    ⟨fault, _, _, failed⟩ | ⟨reply', evaluator, asked, answer⟩
  · simp [replied] at failed
  · obtain rfl : reply' = reply := Except.ok.inj (answer.symm.trans replied)
    cases reply' with
    | failed why =>
        simp only [conclude, read, Progress.priceFinal, Progress.report, asked]
        refine ⟨_, _, rfl, rfl, ?_⟩
        exact ⟨by rw [read]; rfl, ⟨_, replied, rfl⟩, rfl, rfl, rfl, rfl⟩
    | cost cost =>
        simp only [conclude, read, Progress.priceFinal, Progress.report, asked]
        refine ⟨_, _, rfl, rfl, ?_⟩
        exact ⟨by rw [read]; rfl, ⟨_, replied, rfl⟩, rfl, rfl, rfl, rfl⟩

theorem conclude_spec {outcome : Outcome α} {after : Progress σ α}
    (concluded : conclude plan s = (.ok outcome, after)) : Concluded plan s after outcome := by
  rcases read : finalTerm plan.toProblem plan.tuning.completionAttempts s.tree plan.lastStream
    with ⟨fault | term, journal⟩
  · simp [conclude, read] at concluded
  · rcases evaluate_cases (p := plan.toProblem) s.evaluator term with
      ⟨fault, evaluator, asked, _⟩ | ⟨reply, _, _, answer⟩
    · simp [conclude, read, Progress.priceFinal, Progress.report, asked] at concluded
    · obtain ⟨outcome', after', same, _, spec⟩ := conclude_of_reply (by rw [read]) answer
      obtain ⟨sameOutcome, rfl⟩ := Prod.mk.inj (concluded.symm.trans same)
      cases sameOutcome
      exact spec

theorem extract_cases {oracle : σ} {outcome : Outcome α} {after : Progress σ α}
    (extracted : extract plan oracle = (.ok outcome, after)) :
    (plan.searched oracle).result = .ok () ∧
      conclude plan (plan.searched oracle).progress = (.ok outcome, after) := by
  rw [extract_eq] at extracted
  cases searched : (plan.searched oracle).result with
  | error fault => simp [searched] at extracted
  | ok _ =>
      rw [searched] at extracted
      exact ⟨rfl, extracted⟩

theorem extract_spec {oracle : σ} {outcome : Outcome α} {after : Progress σ α}
    (extracted : extract plan oracle = (.ok outcome, after)) :
    (plan.searched oracle).result = .ok () ∧
      Concluded plan (plan.searched oracle).progress after outcome :=
  (extract_cases extracted).imp_right conclude_spec

end Conclude

theorem sane_searched {plan : Plan σ ρ α} {P : Term × α → Prop} {oracle : σ}
    (ended : (plan.searched oracle).result = .ok ())
    (alone : Number.below 1 plan.tuning.workers = false) (wf : plan.graph.toArena.WellFormed)
    (priced : plan.toProblem.Priced P) :
    Sane plan.toProblem P (plan.searched oracle).progress :=
  search_keeps alone (fun sane batch => (batch.spec wf priced sane sane.committed_lt).sane)
    (fun sane picked => sane.commit picked) ((sane_initial oracle).report _) ended

theorem extract_ok {plan : Plan σ ρ α} {most : Nat} {P : Term × α → Prop}
    (regular : plan.Regular most) (priced : plan.toProblem.Priced P) (oracle : σ) :
    ∃ outcome after, extract plan oracle = (.ok outcome, after) ∧
      Searched plan P most (plan.searched oracle) ∧
      Concluded plan (plan.searched oracle).progress after outcome := by
  have searched : Searched plan P most (plan.searched oracle) :=
    search_ok regular.steady priced ((sane_initial oracle).report _) rfl
  obtain ⟨count, whole⟩ := regular.attempts
  obtain ⟨term, found⟩ := finalTerm_ok plan.lastStream regular.accepted regular.checkable
    regular.reliable searched.sane.faithful whole
  obtain ⟨reply, replied⟩ := regular.answers term (plan.searched oracle).progress.evaluator.oracle
  obtain ⟨outcome, after, same, _, spec⟩ := conclude_of_reply found replied
  refine ⟨outcome, after, ?_, searched, spec⟩
  rw [extract_eq, searched.result]
  exact same

theorem best_finalBest {P : Term × α → Prop} {best : Option (Term × α)} {term : Term}
    {cost : Option α} (known : Best P best) (here : ∀ c, cost = some c → P (term, c)) :
    Best P (finalBest best term cost) := by
  cases cost with
  | none => exact known
  | some c => exact best_cheaper known (here c rfl)

end EGraphSearch
