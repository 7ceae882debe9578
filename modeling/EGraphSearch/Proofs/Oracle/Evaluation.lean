import EGraphSearch.Oracle.Basic
import EGraphSearch.Proofs.Number.Overflow

/-!
# What an evaluation comes to

A response has a finite cost if it was an answer and the answer converts to a finite double.  The
evaluator returns that cost, or none and counts a failure, for every response but one: a whole
number too large for the doubles faults while it is converted, and such a call leaves both counters
as they were.
-/

set_option autoImplicit false

namespace EGraphSearch

/-! ## Responses -/

/-- The double that a value converts to; whole numbers beyond the finite doubles have none. -/
def Datum.toFloat? : Datum → Option Float
  | .number n => n.toFloat?
  | .text s => Text.readFloat? s
  | _ => none

def Response.finiteCost? : Response → Option Float
  | .raised _ => none
  | .answered value => value.toFloat?.filter fun x => !x.isNaN && !x.isInf

/-- The answer is a whole number that rounds to no finite double. -/
def Response.TooLarge (response : Response) : Prop :=
  ∃ i : Int, response = .answered (.number (.int i)) ∧ (2 ^ 54 - 1) * 2 ^ 970 ≤ i.natAbs

/-- What an evaluation may return for a response. -/
inductive Returned (response : Response) : Except Fault (Reply Float) → Prop where
  | priced (cost : Float) (converted : response.finiteCost? = some cost)
    (number : cost.isNaN = false) (bounded : cost.isInf = false) :
    Returned response (.ok (.cost cost))
  | failed (why : Failure) (without : response.finiteCost? = none)
    (readable : ¬ response.TooLarge) : Returned response (.ok (.failed why))
  | escaped (tooLarge : response.TooLarge) : Returned response (.error .tooLarge)

theorem returned_ofFloat {value : Datum} {x : Float} (converted : value.toFloat? = some x)
    (readable : ¬ (Response.answered value).TooLarge) :
    Returned (.answered value) (.ok (.ofFloat x)) := by
  have filtered : (Response.answered value).finiteCost? =
      if x.isNaN || x.isInf then none else some x := by
    rw [Response.finiteCost?, converted, Option.filter_some, ← Bool.not_or]
    cases x.isNaN || x.isInf <;> rfl
  unfold Reply.ofFloat
  by_cases unusable : (x.isNaN || x.isInf) = true
  · rw [if_pos unusable] at filtered ⊢
    exact .failed _ filtered readable
  · rw [if_neg unusable] at filtered ⊢
    have finite := Bool.or_eq_false_iff.mp (Bool.not_eq_true _ ▸ unusable)
    exact .priced x filtered finite.1 finite.2

theorem returned_ofResponse (response : Response) :
    Returned response (Reply.ofResponse response) := by
  rcases response with value | what
  · have readable_of {d : Datum} (other : ∀ i, d ≠ .number (.int i)) :
        ¬ (Response.answered d).TooLarge := by
      rintro ⟨i, same, _⟩
      exact other i (Response.answered.inj same)
    cases value with
    | null => exact .failed _ rfl (readable_of (by simp))
    | list items => exact .failed _ rfl (readable_of (by simp))
    | map entries => exact .failed _ rfl (readable_of (by simp))
    | text s =>
        simp only [Reply.ofResponse, Reply.ofAnswer]
        cases converted : Text.readFloat? s with
        | none =>
            refine .failed _ ?_ (readable_of (by simp))
            simp [Response.finiteCost?, Datum.toFloat?, converted]
        | some x => exact returned_ofFloat converted (readable_of (by simp))
    | number n =>
        simp only [Reply.ofResponse, Reply.ofAnswer]
        cases converted : n.toFloat? with
        | none =>
            cases n with
            | truth b => simp [Number.toFloat?] at converted
            | float x => simp [Number.toFloat?] at converted
            | int i => exact .escaped ⟨i, rfl, (Binary64.ofInt?_eq_none_iff i).mp converted⟩
        | some x =>
            apply @returned_ofFloat (.number n) x converted
            rintro ⟨i, same, large⟩
            cases same
            rw [Number.toFloat?, (Binary64.ofInt?_eq_none_iff i).mpr large] at converted
            cases converted
  · refine .failed _ rfl ?_
    rintro ⟨i, same, _⟩
    cases same

/-! ## Calls -/

variable {σ : Type}

/-- Asks for the terms one after another, going on after a fault. -/
def Evaluator.evaluateAll {α : Type} (ask : Asker σ α) (e : Evaluator σ) :
    List Term → List (Except Fault (Reply α)) × Evaluator σ
  | [] => ([], e)
  | term :: rest =>
    let (result, after) := e.evaluate ask term
    let (results, last) := after.evaluateAll ask rest
    (result :: results, last)

def Oracle.responses (oracle : Oracle σ) (g : EGraph) (state : σ) : List Term → List Response
  | [] => []
  | term :: rest =>
    (oracle.ask g term state).1 :: oracle.responses g (oracle.ask g term state).2 rest

def costless {α : Type} : Except Fault (Reply α) → Bool
  | .ok reply => reply.cost?.isNone
  | .error _ => false

/-- Every call that returns is counted, and so is every failure; a call that faults is not. -/
theorem evaluate_counts {α : Type} (ask : Asker σ α) (e : Evaluator σ) (term : Term) :
    (e.evaluate ask term).1 = (ask term e.oracle).1 ∧
      (e.evaluate ask term).2.oracle = (ask term e.oracle).2 ∧
      (e.evaluate ask term).2.calls = e.calls + [(ask term e.oracle).1].countP (·.isOk) ∧
      (e.evaluate ask term).2.failures = e.failures + [(ask term e.oracle).1].countP costless := by
  unfold Evaluator.evaluate
  rcases ask term e.oracle with ⟨fault | reply, state⟩
  · simp [costless, Except.isOk, Except.toBool]
  · refine ⟨rfl, rfl, rfl, ?_⟩
    simp only [Evaluator.count, List.countP_cons, List.countP_nil, costless]
    by_cases silent : reply.cost?.isNone = true <;> simp [silent]

theorem Returned.of_readable {response : Response} {result : Except Fault (Reply Float)}
    (returned : Returned response result) (readable : ¬ response.TooLarge) :
    result.isOk = true ∧ costless result = response.finiteCost?.isNone := by
  cases returned with
  | priced cost converted _ _ => exact ⟨rfl, by simp [costless, Reply.cost?, converted]⟩
  | failed why without _ => exact ⟨rfl, by simp [costless, Reply.cost?, without]⟩
  | escaped tooLarge => exact absurd tooLarge readable

theorem counts_of_readable {responses : List Response} {results : List (Except Fault (Reply Float))}
    (returned : List.Forall₂ Returned responses results)
    (readable : ∀ response ∈ responses, ¬ response.TooLarge) :
    results.countP (·.isOk) = responses.length ∧
      results.countP costless = responses.countP (·.finiteCost?.isNone) := by
  induction returned with
  | nil => exact ⟨rfl, rfl⟩
  | cons first _ ih =>
      rw [List.forall_mem_cons] at readable
      obtain ⟨returned, failed⟩ := first.of_readable readable.1
      obtain ⟨calls, failures⟩ := ih readable.2
      rw [List.countP_cons, List.countP_cons, List.countP_cons, returned, failed, calls, failures]
      exact ⟨rfl, rfl⟩

theorem evaluateAll_returned (oracle : Oracle σ) (g : EGraph) (terms : List Term)
    (e : Evaluator σ) :
    List.Forall₂ Returned (oracle.responses g e.oracle terms)
      (e.evaluateAll (oracle.asker g) terms).1 := by
  induction terms generalizing e with
  | nil => exact .nil
  | cons term rest ih =>
      obtain ⟨result, moved, _⟩ := evaluate_counts (oracle.asker g) e term
      refine .cons ?_ ?_
      · exact result ▸ returned_ofResponse _
      · have tail := ih (e.evaluate (oracle.asker g) term).2
        rw [moved] at tail
        exact tail

theorem evaluateAll_counts {α : Type} (ask : Asker σ α) (terms : List Term) (e : Evaluator σ) :
    (e.evaluateAll ask terms).2.calls = e.calls + (e.evaluateAll ask terms).1.countP (·.isOk) ∧
      (e.evaluateAll ask terms).2.failures =
        e.failures + (e.evaluateAll ask terms).1.countP costless := by
  induction terms generalizing e with
  | nil => exact ⟨rfl, rfl⟩
  | cons term rest ih =>
      obtain ⟨result, _, calls, failures⟩ := evaluate_counts ask e term
      rw [← result] at calls failures
      obtain ⟨laterCalls, laterFailures⟩ := ih (e.evaluate ask term).2
      simp only [Evaluator.evaluateAll, List.countP_cons, List.countP_nil] at *
      omega

theorem responses_length (oracle : Oracle σ) (g : EGraph) (terms : List Term) (state : σ) :
    (oracle.responses g state terms).length = terms.length := by
  induction terms generalizing state with
  | nil => rfl
  | cons term rest ih => simp only [Oracle.responses, List.length_cons, ih]

/-- Calls and failures are counted exactly, except that a whole number beyond the finite doubles
faults and is not counted.  Without such an answer the calls are as many as the terms. -/
theorem outcomes_are_counted (oracle : Oracle σ) (g : EGraph) (e : Evaluator σ)
    (terms : List Term) :
    let responses := oracle.responses g e.oracle terms
    let results := (e.evaluateAll (oracle.asker g) terms).1
    let last := (e.evaluateAll (oracle.asker g) terms).2
    List.Forall₂ Returned responses results ∧
      last.calls = e.calls + results.countP (·.isOk) ∧
      last.failures = e.failures + results.countP costless ∧
      ((∀ response ∈ responses, ¬ response.TooLarge) →
        last.calls = e.calls + terms.length ∧
          last.failures = e.failures + responses.countP (·.finiteCost?.isNone)) := by
  intro responses results last
  have each : List.Forall₂ Returned responses results := evaluateAll_returned oracle g terms e
  obtain ⟨calls, failures⟩ := evaluateAll_counts (oracle.asker g) terms e
  refine ⟨each, calls, failures, fun readable => ?_⟩
  obtain ⟨returned, failed⟩ := counts_of_readable each readable
  rw [responses_length] at returned
  exact ⟨returned ▸ calls, failed ▸ failures⟩

end EGraphSearch
