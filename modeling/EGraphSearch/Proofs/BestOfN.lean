import EGraphSearch.Proofs.Budgets
import EGraphSearch.Proofs.Extractor
import EGraphSearch.Proofs.Random.Seeded
import EGraphSearch.Proofs.Search.Books
import EGraphSearch.Trial.BestOfN

/-!
# Best of N

All samples of a baseline draw from one source and ask one oracle, so a longer baseline goes on
where a shorter one has stopped: its costs begin with those of the shorter one.  Every sample is a
dead end, a failure or a cost, and the best pair is the earliest of the cheapest evaluations.
-/

set_option autoImplicit false

namespace EGraphSearch

variable {σ ρ : Type} {g : EGraph}

namespace Baseline

/-! ## One sample -/

section Samples

variable {α : Type} [Scalar α] {ask : Asker σ α} {choose : Chooser ρ} {b next : Baseline σ ρ α}

@[simp] theorem evaluator_addReply (term : Term) (reply : Reply α) :
    (b.addReply term reply).evaluator = b.evaluator := by
  cases reply <;> rfl

@[simp] theorem deadEnds_addReply (term : Term) (reply : Reply α) :
    (b.addReply term reply).deadEnds = b.deadEnds := by
  cases reply <;> rfl

theorem costs_addReply (term : Term) (reply : Reply α) :
    (b.addReply term reply).costs = b.costs ++ reply.cost?.toList := by
  cases reply
  · rfl
  · exact (List.append_nil _).symm

theorem best_addReply (term : Term) (reply : Reply α) :
    (b.addReply term reply).best =
      (reply.cost?.map fun cost => (term, cost)).elim b.best (cheaper b.best) := by
  cases reply <;> rfl

/-- A sample that ends is a dead end, or its term has been evaluated. -/
theorem sampleOnce_cases (sampled : b.sampleOnce g ask choose = .ok next) :
    ∃ source, next = { b with source := source, deadEnds := b.deadEnds + 1 } ∨
      ∃ term reply evaluator, b.evaluator.evaluate ask term = (.ok reply, evaluator) ∧
        next = { b with source := source, evaluator := evaluator }.addReply term reply := by
  unfold sampleOnce at sampled
  dsimp only at sampled
  split at sampled
  · cases sampled
  · exact ⟨_, .inl (Except.ok.inj sampled).symm⟩
  · split at sampled
    · cases sampled
    · split at sampled
      · cases sampled
      · rename_i term _ _ reply evaluator evaluated
        exact ⟨_, .inr ⟨term, reply, evaluator, evaluated, (Except.ok.inj sampled).symm⟩⟩

omit [Scalar α] in
theorem evaluate_ok (handled : ∀ term state, ∃ reply, (ask term state).1 = .ok reply)
    (e : Evaluator σ) (term : Term) :
    ∃ reply evaluator, e.evaluate ask term = (.ok reply, evaluator) := by
  obtain ⟨reply, answer⟩ := handled term e.oracle
  rcases asked : ask term e.oracle with ⟨result, state⟩
  rw [asked] at answer
  obtain rfl : result = .ok reply := answer
  exact ⟨reply, e.count reply state, by simp only [Evaluator.evaluate, asked]⟩

/-- Whatever was sampled before, a sample ends if every term has a reply. -/
theorem sampleOnce_ok (wf : g.toArena.WellFormed) (reliable : choose.Reliable g)
    (handled : ∀ term state, ∃ reply, (ask term state).1 = .ok reply) (b : Baseline σ ρ α) :
    ∃ next, b.sampleOnce g ask choose = .ok next := by
  have inv := Tracker.inv_start wf
  obtain ⟨complete, ended⟩ := rollout_ok wf reliable _ b.source (Nat.lt_succ_self _) inv
  obtain ⟨_, whole, _⟩ := rollout_spec choose wf _ b.source (Nat.lt_succ_self _) inv
  unfold sampleOnce
  dsimp only
  rw [ended]
  cases complete with
  | false => exact ⟨_, rfl⟩
  | true =>
      rw [Tracker.toTerm_of_terminal (whole ended)]
      obtain ⟨reply, evaluator, evaluated⟩ := evaluate_ok handled b.evaluator
        ⟨(rollout g choose (Tracker.start g) b.source).tracker.assignment g⟩
      simp only [evaluated]
      exact ⟨_, rfl⟩

/-! ## Many samples -/

theorem sampleMany_ok (wf : g.toArena.WellFormed) (reliable : choose.Reliable g)
    (handled : ∀ term state, ∃ reply, (ask term state).1 = .ok reply) (count : Nat) :
    ∀ b : Baseline σ ρ α, ∃ last, b.sampleMany g ask choose count = .ok last := by
  induction count with
  | zero => exact fun b => ⟨b, rfl⟩
  | succ count ih =>
      intro b
      obtain ⟨next, sampled⟩ := b.sampleOnce_ok wf reliable handled
      obtain ⟨last, sampledRest⟩ := ih next
      exact ⟨last, by simp only [sampleMany, sampled, sampledRest]⟩

theorem sampleMany_cases {last : Baseline σ ρ α} {count : Nat}
    (sampled : b.sampleMany g ask choose (count + 1) = .ok last) :
    ∃ next, b.sampleOnce g ask choose = .ok next ∧
      next.sampleMany g ask choose count = .ok last := by
  rw [sampleMany] at sampled
  split at sampled
  · cases sampled
  · rename_i next once
    exact ⟨next, once, sampled⟩

/-- A longer baseline goes on where a shorter one has stopped. -/
theorem sampleMany_add {few many : Baseline σ ρ α} {more : Nat} (count : Nat) :
    ∀ {b : Baseline σ ρ α}, b.sampleMany g ask choose count = .ok few →
      b.sampleMany g ask choose (count + more) = .ok many →
      few.sampleMany g ask choose more = .ok many := by
  induction count with
  | zero =>
      intro b sampled sampledMore
      obtain rfl := Except.ok.inj sampled
      rwa [Nat.zero_add] at sampledMore
  | succ count ih =>
      intro b sampled sampledMore
      rw [Nat.succ_add] at sampledMore
      obtain ⟨next, once, sampled⟩ := sampleMany_cases sampled
      obtain ⟨again, onceMore, sampledMore⟩ := sampleMany_cases sampledMore
      obtain rfl := Except.ok.inj (once.symm.trans onceMore)
      exact ih sampled sampledMore

theorem costs_prefix_of_sampleMany {last : Baseline σ ρ α} (count : Nat) :
    ∀ {b : Baseline σ ρ α}, b.sampleMany g ask choose count = .ok last →
      b.costs <+: last.costs := by
  induction count with
  | zero =>
      intro b sampled
      obtain rfl := Except.ok.inj sampled
      exact List.prefix_rfl
  | succ count ih =>
      intro b sampled
      obtain ⟨next, once, sampled⟩ := sampleMany_cases sampled
      refine List.IsPrefix.trans ?_ (ih sampled)
      obtain ⟨source, rfl | ⟨term, reply, evaluator, _, rfl⟩⟩ := sampleOnce_cases once
      · exact List.prefix_rfl
      · rw [costs_addReply]
        exact List.prefix_append _ _

end Samples

/-! ## On record -/

section Recorded

variable {α : Type}

/-- The baseline without the record of its oracle. -/
def bare (b : Baseline (σ × Record α) ρ α) : Baseline σ ρ α :=
  { b with evaluator := b.evaluator.bare }

variable [Scalar α] (ask : Asker σ α) (choose : Chooser ρ)

theorem bare_addReply (term : Term) (reply : Reply α) (b : Baseline (σ × Record α) ρ α) :
    (b.addReply term reply).bare = b.bare.addReply term reply := by
  cases reply <;> rfl

theorem sampleOnce_recorded (b : Baseline (σ × Record α) ρ α) :
    b.bare.sampleOnce g ask choose = (b.sampleOnce g ask.recorded choose).map bare := by
  simp only [sampleOnce, bare]
  rcases (rollout g choose (Tracker.start g) b.source).result with fault | complete
  · rfl
  · cases complete with
    | false => rfl
    | true =>
        cases (rollout g choose (Tracker.start g) b.source).tracker.toTerm g with
        | error fault => rfl
        | ok term =>
            simp only [Evaluator.evaluate_recorded]
            rcases b.evaluator.evaluate ask.recorded term with ⟨fault | reply, evaluator⟩
            · rfl
            · exact congrArg Except.ok (bare_addReply term reply ⟨evaluator,
                (rollout g choose (Tracker.start g) b.source).source, b.costs, b.best,
                b.deadEnds⟩).symm

theorem sampleMany_recorded (count : Nat) : ∀ b : Baseline (σ × Record α) ρ α,
    b.bare.sampleMany g ask choose count =
      (b.sampleMany g ask.recorded choose count).map bare := by
  induction count with
  | zero => exact fun _ => rfl
  | succ count ih =>
      intro b
      simp only [sampleMany, sampleOnce_recorded]
      cases b.sampleOnce g ask.recorded choose with
      | error fault => rfl
      | ok next => exact ih next

end Recorded

/-! ## The books -/

/-- After so many samples the counters, the costs and the best pair are those of the record. -/
structure Booked (count : Nat) (b : Baseline (σ × Record Float) ρ Float) : Prop where
  evaluator : b.evaluator.Booked
  accounted : b.evaluator.oracle.2.length + b.deadEnds = count
  costs_eq : b.costs = b.evaluator.oracle.2.filterMap fun entry => entry.2.cost?
  best : Earliest b.evaluator.oracle.2 b.best

section Booked

variable {ask : Asker σ Float} {choose : Chooser ρ}
  {b next : Baseline (σ × Record Float) ρ Float} {count : Nat}

theorem booked_start (oracle : σ) (source : ρ) :
    (start (oracle, []) source : Baseline (σ × Record Float) ρ Float).Booked 0 where
  evaluator := ⟨rfl, rfl, fun entry member => by simp [start] at member⟩
  accounted := rfl
  costs_eq := rfl
  best := .nothing (by simp [start])

theorem Booked.sampleOnce (numeric : ask.Numeric) (booked : b.Booked count)
    (sampled : b.sampleOnce g ask.recorded choose = .ok next) : next.Booked (count + 1) := by
  have balance := booked.accounted
  obtain ⟨source, rfl | ⟨term, reply, evaluator, evaluated, rfl⟩⟩ := sampleOnce_cases sampled
  · exact ⟨booked.evaluator, by dsimp only; omega, booked.costs_eq, booked.best⟩
  · have bookedNext := booked.evaluator.evaluate numeric evaluated
    obtain ⟨_, record, _⟩ := Evaluator.record_of_evaluate evaluated
    have numericNext := bookedNext.numeric
    rw [record] at numericNext
    refine ⟨?_, ?_, ?_, ?_⟩
    · rw [evaluator_addReply]
      exact bookedNext
    · rw [evaluator_addReply, deadEnds_addReply, record, List.length_append,
        List.length_singleton]
      dsimp only
      omega
    · rw [evaluator_addReply, costs_addReply, record, List.filterMap_append, ← booked.costs_eq]
      cases reply <;> rfl
    · rw [evaluator_addReply, best_addReply, record]
      exact booked.best.append (.single term reply) numericNext

theorem Booked.sampleMany (numeric : ask.Numeric) {more : Nat}
    {last : Baseline (σ × Record Float) ρ Float} :
    ∀ {count : Nat} {b : Baseline (σ × Record Float) ρ Float}, b.Booked count →
      b.sampleMany g ask.recorded choose more = .ok last → last.Booked (count + more) := by
  induction more with
  | zero =>
      intro count b booked sampled
      obtain rfl := Except.ok.inj sampled
      exact booked
  | succ more ih =>
      intro count b booked sampled
      obtain ⟨next, once, sampled⟩ := sampleMany_cases sampled
      rw [Nat.add_comm more 1, ← Nat.add_assoc]
      exact ih (booked.sampleOnce numeric once) sampled

end Booked

/-- What a baseline of so many samples comes to, by the record of its evaluations: every sample is a
cost, a failure or a dead end, and the best pair is the first one of the least costs. -/
structure Sums (count : Nat) (record : Record Float) (b : Baseline σ ρ Float) : Prop where
  accounted : b.costs.length + b.evaluator.failures + b.deadEnds = count
  costs_eq : b.costs = record.filterMap fun entry => entry.2.cost?
  none_iff : b.best = none ↔ b.costs = []
  least : ∀ term cost, b.best = some (term, cost) →
    cost ∈ b.costs ∧ ∀ other ∈ b.costs, cost ≤ other
  first : Earliest record b.best

theorem Booked.sums {b : Baseline (σ × Record Float) ρ Float} {count : Nat}
    (booked : b.Booked count) : b.bare.Sums count b.evaluator.oracle.2 := by
  have listed : ∀ cost, cost ∈ b.costs ↔ ∃ entry ∈ b.evaluator.oracle.2,
      entry.2.cost? = some cost := by
    intro cost
    rw [booked.costs_eq, List.mem_filterMap]
  refine ⟨?_, booked.costs_eq, ?_, fun term cost found => ⟨?_, fun other member => ?_⟩,
    booked.best⟩
  · change b.costs.length + b.evaluator.failures + b.deadEnds = count
    have accounted := booked.accounted
    have priced_or_failed := List.length_eq_countP_add_countP
      (fun entry : Term × Reply Float => entry.2.cost?.isSome) (l := b.evaluator.oracle.2)
    have failed : b.evaluator.oracle.2.countP (fun entry => !entry.2.cost?.isSome) =
        b.evaluator.failures := by
      rw [booked.evaluator.failures_eq]
      exact List.countP_congr fun entry _ => by simp
    rw [booked.costs_eq, List.length_filterMap_eq_countP]
    simp only [Bool.not_eq_true, Bool.decide_eq_false] at priced_or_failed
    omega
  · refine booked.best.none_iff.trans ?_
    change _ ↔ b.costs = []
    rw [booked.costs_eq, List.filterMap_eq_nil_iff]
  · have earliest := booked.best
    rw [show b.best = some (term, cost) from found] at earliest
    exact (listed cost).mpr ⟨_, earliest.mem, rfl⟩
  · obtain ⟨entry, recorded, charged⟩ := (listed other).mp member
    obtain ⟨cheapest, least, best, le⟩ :=
      booked.best.le_of_mem booked.evaluator.numeric recorded charged
    obtain ⟨rfl, rfl⟩ := Prod.mk.inj (Option.some.inj (best.symm.trans found))
    exact le

end Baseline

/-- Of two baselines with one source and one oracle the longer one goes on where the shorter one has
stopped, so it is never dearer; and each of them comes to what its record says. -/
theorem best_of_n_is_monotone [Draws ρ] {oracle : Oracle σ} (accepted : g.Accepted)
    (bounded : Draws.Bounded ρ)
    (handled : ∀ term state, ∃ reply, (oracle.asker g term state).1 = .ok reply) (state : σ)
    (source : ρ) :
    (∀ count : Nat, ∃ ended onRecord,
      bestOfN g (oracle.asker g) (.int count) state source = .ok ended ∧
      bestOfN g (oracle.asker g).recorded (.int count) (state, []) source = .ok onRecord ∧
      onRecord.bare = ended ∧ ended.Sums count onRecord.evaluator.oracle.2) ∧
    ∀ (n m : Nat) (few many : Baseline σ ρ Float), n ≤ m →
      bestOfN g (oracle.asker g) (.int n) state source = .ok few →
      bestOfN g (oracle.asker g) (.int m) state source = .ok many →
        few.costs <+: many.costs ∧
        ∀ term cost, few.best = some (term, cost) →
          ∃ cheapest least, many.best = some (cheapest, least) ∧ least ≤ cost := by
  have wf := accepted.wellFormed
  have numeric : (oracle.asker g).Numeric := fun term state cost answer =>
    Oracle.asker_costed answer
  have reliable : (Policy.uniform.choose : Chooser ρ).Reliable g :=
    Policy.chooseUniform_reliable bounded
  have runs : ∀ count : Nat, ∃ ended onRecord,
      bestOfN g (oracle.asker g) (.int count) state source = .ok ended ∧
      bestOfN g (oracle.asker g).recorded (.int count) (state, []) source = .ok onRecord ∧
      onRecord.bare = ended ∧ ended.Sums count onRecord.evaluator.oracle.2 := by
    intro count
    obtain ⟨ended, sampled⟩ := Baseline.sampleMany_ok wf reliable handled count
      (.start state source)
    have both := Baseline.sampleMany_recorded (g := g) (oracle.asker g) Policy.uniform.choose count
      (.start (state, []) source)
    rw [show (Baseline.start (state, []) source : Baseline (σ × Record Float) ρ Float).bare =
      .start state source from rfl, sampled] at both
    cases onRecord : Baseline.sampleMany g (oracle.asker g).recorded Policy.uniform.choose count
        (.start (state, []) source) with
    | error fault =>
        rw [onRecord] at both
        cases both
    | ok last =>
        rw [onRecord] at both
        obtain rfl := Except.ok.inj both
        have booked := (Baseline.booked_start state source).sampleMany numeric onRecord
        rw [Nat.zero_add] at booked
        exact ⟨_, last, sampled, onRecord, rfl, booked.sums⟩
  refine ⟨runs, fun n m few many le fewer more => ?_⟩
  obtain ⟨_, _, fewer', _, _, sums⟩ := runs n
  obtain rfl := Except.ok.inj (fewer.symm.trans fewer')
  obtain ⟨_, _, more', _, _, sumsMore⟩ := runs m
  obtain rfl := Except.ok.inj (more.symm.trans more')
  have begins : few.costs <+: many.costs := by
    obtain ⟨rest, rfl⟩ := Nat.exists_eq_add_of_le le
    exact Baseline.costs_prefix_of_sampleMany rest (Baseline.sampleMany_add n fewer more)
  refine ⟨begins, fun term cost found => ?_⟩
  have member := begins.subset (sums.least term cost found).1
  cases best : many.best with
  | none =>
      rw [sumsMore.none_iff.mp best] at member
      cases member
  | some cheapest =>
      exact ⟨_, _, rfl, (sumsMore.least _ _ best).2 cost member⟩

/-- The first samples of the seed zero, with an oracle that charges the same for every term. -/
theorem best_of_n_is_monotone_small :
    EGraph.loopGraph.Accepted ∧ Draws.Bounded Pcg64 ∧
    (∀ term state, ∃ reply, (Oracle.flat.asker EGraph.loopGraph term state).1 = .ok reply) ∧
    ∃ few many : Baseline Unit Pcg64 Float,
      bestOfN EGraph.loopGraph (Oracle.flat.asker EGraph.loopGraph) (.int 2) ()
        (streamOf (SeedMix.words 0) []) = .ok few ∧
      bestOfN EGraph.loopGraph (Oracle.flat.asker EGraph.loopGraph) (.int 5) ()
        (streamOf (SeedMix.words 0) []) = .ok many ∧
      few.costs <+: many.costs := by
  have handled := (Oracle.flat_convertible EGraph.loopGraph).answers
  have monotone := best_of_n_is_monotone EGraph.loopGraph_accepted Pcg64.bounded handled ()
    (streamOf (SeedMix.words 0) [])
  obtain ⟨few, _, fewer, _⟩ := monotone.1 2
  obtain ⟨many, _, more, _⟩ := monotone.1 5
  exact ⟨EGraph.loopGraph_accepted, Pcg64.bounded, handled, few, many, fewer, more,
    (monotone.2 2 5 few many (by decide) fewer more).1⟩

end EGraphSearch
