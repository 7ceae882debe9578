import EGraphSearch.Proofs.Search.Playouts

/-!
# What rollouts add to a leaf

A rollout is worth the value of its cost, or that of a failure if it has none: it ended in a dead
end, or its term could not be priced.  The value of a leaf is the sum of what its rollouts are
worth, in order of time, over their number.
-/

set_option autoImplicit false

namespace EGraphSearch

/-- What a rollout comes to. -/
inductive Roll (α : Type) where
  | deadEnd
  | evaluated (reply : Reply α)

def Roll.worth {α : Type} (v : Valuation α) : Roll α → Except Fault α
  | evaluated (.cost cost) => .ok (v.value cost)
  | _ => v.failure

variable {σ ρ α : Type} [Scalar α]

namespace Sampling

def next (p : Problem σ ρ α) (s : Sampling σ ρ α) : Except Fault (Roll α) :=
  let ended := rollout p.graph p.choose s.tracker s.source
  match ended.result with
  | .error fault => .error fault
  | .ok false => .ok .deadEnd
  | .ok true =>
    (ended.tracker.toTerm p.graph).bind fun term =>
      (s.evaluator.evaluate p.ask term).1.map .evaluated

/-- Some rollouts, one after the other, and what they come to. -/
inductive Rolls (p : Problem σ ρ α) (keep : Bool) :
    Sampling σ ρ α → List (Roll α) → Sampling σ ρ α → Prop
  | nil (s : Sampling σ ρ α) : Rolls p keep s [] s
  | cons {s after last : Sampling σ ρ α} {roll : Roll α} {rest : List (Roll α)}
      (comesTo : s.next p = .ok roll) (once : s.rollOnce p keep = (.ok (), after))
      (later : Rolls p keep after rest last) : Rolls p keep s (roll :: rest) last

end Sampling

section Rolls

variable {p : Problem σ ρ α} {keep : Bool} {s after last : Sampling σ ρ α}

theorem countFailure_total {count : α → Tally α → Tally α}
    (adds : ∀ x tally, (count x tally).total = tally.total + x)
    (counted : s.countFailure p count = (.ok (), after)) :
    ∃ x, p.valuation.failure = .ok x ∧ after.tally.total = s.tally.total + x := by
  unfold Sampling.countFailure at counted
  split at counted
  · cases counted
  · rename_i x failure
    obtain ⟨-, rfl⟩ := Prod.mk.inj counted
    exact ⟨x, failure, adds x s.tally⟩

theorem rollOnce_worth (once : s.rollOnce p keep = (.ok (), after)) :
    ∃ roll x, s.next p = .ok roll ∧ roll.worth p.valuation = .ok x ∧
      after.tally.total = s.tally.total + x := by
  unfold Sampling.rollOnce at once
  unfold Sampling.next
  generalize rollout p.graph p.choose s.tracker s.source = ended at once ⊢
  obtain ⟨tracker, source, fault | complete⟩ := ended
  · cases once
  cases complete with
  | false =>
      obtain ⟨x, failure, total⟩ := countFailure_total (fun _ _ => rfl) once
      exact ⟨.deadEnd, x, rfl, failure, total⟩
  | true =>
      dsimp only at once ⊢
      generalize tracker.toTerm p.graph = result at once ⊢
      obtain fault | term := result
      · cases once
      unfold Sampling.price at once
      dsimp only [Except.bind] at once ⊢
      generalize s.evaluator.evaluate p.ask term = answer at once ⊢
      obtain ⟨fault | cost | why, evaluator⟩ := answer
      · cases once
      · obtain ⟨-, rfl⟩ := Prod.mk.inj once
        exact ⟨.evaluated (.cost cost), _, rfl, rfl, rfl⟩
      · obtain ⟨x, failure, total⟩ := countFailure_total (fun _ _ => rfl) once
        exact ⟨.evaluated (.failed why), x, rfl, failure, total⟩

theorem rolls_of_rollMany {count : Nat} (rolled : s.rollMany p keep count = (.ok (), last)) :
    ∃ rolls, rolls.length = count ∧ Sampling.Rolls p keep s rolls last := by
  induction count generalizing s with
  | zero =>
      obtain ⟨-, rfl⟩ := Prod.mk.inj rolled
      exact ⟨[], rfl, .nil s⟩
  | succ count ih =>
      obtain ⟨after, once, later⟩ := rollMany_cases rolled
      obtain ⟨roll, -, comesTo, -⟩ := rollOnce_worth once
      obtain ⟨rest, length, rolls⟩ := ih later
      exact ⟨roll :: rest, by rw [List.length_cons, length], .cons comesTo once rolls⟩

theorem Sampling.Rolls.total {rolls : List (Roll α)} (rolled : Sampling.Rolls p keep s rolls last) :
    ∃ worths, List.Forall₂ (fun roll x => roll.worth p.valuation = .ok x) rolls worths ∧
      last.tally.total = worths.foldl (· + ·) s.tally.total := by
  induction rolled with
  | nil s => exact ⟨[], .nil, rfl⟩
  | cons comesTo once later ih =>
      obtain ⟨roll, x, same, worth, total⟩ := rollOnce_worth once
      obtain rfl := Except.ok.inj (comesTo.symm.trans same)
      obtain ⟨worths, rest, sum⟩ := ih
      exact ⟨x :: worths, .cons worth rest, by rw [sum, total]; rfl⟩

/-- A leaf is worth the mean of what its rollouts are worth. -/
theorem evaluateLeaf_worths {rollouts : Number} {tracker : Tracker} {evaluator : Evaluator σ}
    {source : ρ} {leaf : Leaf α}
    (evaluated : evaluateLeaf p rollouts tracker evaluator source = (.ok leaf, last)) :
    ∃ (count : Int) (rolls : List (Roll α)) (worths : List α), rollouts.int? = some count ∧
      rolls.length = count.toNat ∧
      Sampling.Rolls p (decide (1 < count)) (Sampling.start tracker evaluator source) rolls last ∧
      List.Forall₂ (fun roll x => roll.worth p.valuation = .ok x) rolls worths ∧
      leaf.value = worths.foldl (· + ·) Scalar.zero / Scalar.ofInt count := by
  obtain ⟨count, whole, rfl, rolled⟩ := evaluateLeaf_cases evaluated
  obtain ⟨rolls, length, rolls_⟩ := rolls_of_rollMany rolled
  obtain ⟨worths, worth, total⟩ := rolls_.total
  exact ⟨count, rolls, worths, whole, length, rolls_, worth,
    congrArg (· / Scalar.ofInt count) total⟩

end Rolls

end EGraphSearch
