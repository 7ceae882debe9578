import EGraphSearch.Proofs.Search.Prefix
import EGraphSearch.Proofs.Search.Recording
import EGraphSearch.Proofs.Search.Traffic

/-!
# The books of a search

A search on record leaves all its evaluations.  Every rollout that ends is a dead end or one more of
them, and the best pair is folded three times: over the rollouts of a leaf, over the leaves, and
with the final term.  Folding the earliest cheapest of two stretches gives the earliest cheapest of
both together, so the best pair is always that of the whole record.
-/

set_option autoImplicit false

namespace EGraphSearch

variable {σ ρ : Type}

/-! ## The earliest of the cheapest -/

def Numeric (record : Record Float) : Prop :=
  ∀ entry ∈ record, ∀ cost, entry.2.cost? = some cost → cost.isNaN = false

/-- The best pair that a record leaves: a cheapest term, and the first one among equals. -/
inductive Earliest : Record Float → Option (Term × Float) → Prop
  | nothing {record : Record Float} (failed : ∀ entry ∈ record, entry.2.cost? = none) :
      Earliest record none
  | found {before after : Record Float} {term : Term} {cost : Float}
      (dearer : ∀ entry ∈ before, ∀ other, entry.2.cost? = some other → cost < other)
      (noCheaper : ∀ entry ∈ after, ∀ other, entry.2.cost? = some other → cost ≤ other) :
      Earliest (before ++ (term, .cost cost) :: after) (some (term, cost))

theorem Earliest.single (term : Term) (reply : Reply Float) :
    Earliest [(term, reply)] (reply.cost?.map fun cost => (term, cost)) := by
  cases reply with
  | cost cost =>
      rw [← List.nil_append [(term, Reply.cost cost)]]
      exact .found (by simp) (by simp)
  | failed why => exact .nothing (by simp [Reply.cost?])

section Append

variable {xs ys : Record Float} {best best' : Option (Term × Float)}

/-- What came later is cheaper than all before if it is cheaper than the best of them. -/
theorem Earliest.append (first : Earliest xs best) (second : Earliest ys best')
    (numeric : Numeric (xs ++ ys)) : Earliest (xs ++ ys) (best'.elim best (cheaper best)) := by
  cases first with
  | nothing failed =>
      cases second with
      | nothing failedToo =>
          refine .nothing fun entry member => ?_
          exact (List.mem_append.mp member).elim (failed entry) (failedToo entry)
      | @found before after term cost dearer noCheaper =>
          rw [← List.append_assoc]
          refine .found (fun entry member other charged => ?_) noCheaper
          rcases List.mem_append.mp member with earlier | here
          · simp [failed entry earlier] at charged
          · exact dearer entry here other charged
  | @found before after term cost dearer noCheaper =>
      cases second with
      | nothing failed =>
          rw [List.append_assoc, List.cons_append]
          refine .found dearer fun entry member other charged => ?_
          rcases List.mem_append.mp member with here | later
          · exact noCheaper entry here other charged
          · simp [failed entry later] at charged
      | @found before' after' term' cost' dearer' noCheaper' =>
          have number : cost.isNaN = false := numeric (term, .cost cost) (by simp) cost rfl
          have number' : cost'.isNaN = false := numeric (term', .cost cost') (by simp) cost' rfl
          simp only [Option.elim_some, cheaper]
          split
          · rename_i lower
            have lower : cost' < cost := of_decide_eq_true lower
            rw [← List.append_assoc]
            refine .found (fun entry member other charged => ?_) noCheaper'
            simp only [List.mem_append, List.mem_cons] at member
            rcases member with (earlier | rfl | later) | here
            · have above := dearer entry earlier other charged
              exact Doubles.lt_of_lt_of_le lower (Doubles.le_of_lt above)
            · cases charged
              exact lower
            · exact Doubles.lt_of_lt_of_le lower (noCheaper entry later other charged)
            · exact dearer' entry here other charged
          · rename_i notLower
            have le : cost ≤ cost' := Doubles.le_of_not_lt number number' fun lower =>
              notLower (decide_eq_true lower)
            rw [List.append_assoc, List.cons_append]
            refine .found dearer fun entry member other charged => ?_
            simp only [List.mem_append, List.mem_cons] at member
            rcases member with here | earlier | rfl | later
            · exact noCheaper entry here other charged
            · exact Doubles.le_trans le (Doubles.le_of_lt (dearer' entry earlier other charged))
            · cases charged
              exact le
            · exact Doubles.le_trans le (noCheaper' entry later other charged)

end Append

theorem Earliest.none_iff {record : Record Float} {best : Option (Term × Float)}
    (earliest : Earliest record best) :
    best = none ↔ ∀ entry ∈ record, entry.2.cost? = none := by
  cases earliest with
  | nothing failed => simpa using failed
  | @found before after term cost _ _ =>
      constructor
      · intro nothing
        cases nothing
      · intro failed
        have charged := failed (term, .cost cost) (by simp)
        cases charged

theorem Earliest.mem {record : Record Float} {term : Term} {cost : Float}
    (earliest : Earliest record (some (term, cost))) : (term, .cost cost) ∈ record := by
  cases earliest with
  | found dearer noCheaper => simp

theorem Earliest.le_of_mem {record : Record Float} {best : Option (Term × Float)}
    (earliest : Earliest record best) (numeric : Numeric record) {entry : Term × Reply Float}
    (member : entry ∈ record) {cost : Float} (charged : entry.2.cost? = some cost) :
    ∃ term least, best = some (term, least) ∧ least ≤ cost := by
  cases earliest with
  | nothing failed => simp [failed entry member] at charged
  | @found before after term least dearer noCheaper =>
      refine ⟨term, least, rfl, ?_⟩
      rcases List.mem_append.mp member with earlier | here
      · exact Doubles.le_of_lt (dearer entry earlier cost charged)
      · rcases List.mem_cons.mp here with rfl | later
        · cases charged
          exact Doubles.le_refl (numeric _ member cost rfl)
        · exact noCheaper entry later cost charged

/-! ## Evaluations -/

def Asker.Numeric (ask : Asker σ Float) : Prop :=
  ∀ term state cost, (ask term state).1 = .ok (.cost cost) → cost.isNaN = false

/-- The counters are those of the record, and the costs on it are numbers. -/
structure Evaluator.Booked (e : Evaluator (σ × Record Float)) : Prop where
  calls_eq : e.calls = e.oracle.2.length
  failures_eq : e.failures = e.oracle.2.countP fun entry => entry.2.cost?.isNone
  numeric : EGraphSearch.Numeric e.oracle.2

section Evaluating

variable {ask : Asker σ Float} {e next : Evaluator (σ × Record Float)} {term : Term}
  {reply : Reply Float}

theorem Evaluator.record_of_evaluate
    (evaluated : e.evaluate ask.recorded term = (.ok reply, next)) :
    (ask term e.oracle.1).1 = .ok reply ∧ next.oracle.2 = e.oracle.2 ++ [(term, reply)] ∧
      next.calls = e.calls + 1 ∧
      next.failures = if reply.cost?.isNone then e.failures + 1 else e.failures := by
  simp only [evaluate, Asker.recorded] at evaluated
  rcases asked : ask term e.oracle.1 with ⟨fault | given, state⟩
  · simp [asked] at evaluated
  · simp only [asked, Prod.mk.injEq, Except.ok.injEq] at evaluated
    obtain ⟨rfl, rfl⟩ := evaluated
    exact ⟨rfl, rfl, rfl, rfl⟩

theorem Evaluator.Booked.evaluate (booked : e.Booked) (numeric : ask.Numeric)
    (evaluated : e.evaluate ask.recorded term = (.ok reply, next)) : next.Booked := by
  obtain ⟨answer, record, calls, failures⟩ := record_of_evaluate evaluated
  refine ⟨?_, ?_, ?_⟩
  · rw [calls, record, booked.calls_eq, List.length_append, List.length_singleton]
  · rw [failures, record, booked.failures_eq, List.countP_append, List.countP_singleton]
    split <;> rfl
  · rw [record]
    intro entry member cost charged
    rcases List.mem_append.mp member with old | new
    · exact booked.numeric entry old cost charged
    · obtain rfl := List.mem_singleton.mp new
      cases reply with
      | cost given =>
          cases charged
          exact numeric term _ cost answer
      | failed why => cases charged

end Evaluating

/-! ## Rollouts -/

/-- How many rollouts a playout has; unless this is a whole number, no playout comes to its end. -/
def Number.rolls (rollouts : Number) : Nat := (rollouts.int?.getD 0).toNat

section Rollouts

variable {α : Type} [Scalar α] {p : Problem σ ρ α} {s next : Sampling σ ρ α} {keep : Bool}

omit [Scalar α] in
theorem countFailure_cases {count : α → Tally α → Tally α}
    (counted : s.countFailure p count = (.ok (), next)) :
    ∃ failure, next = { s with tally := count failure s.tally } := by
  unfold Sampling.countFailure at counted
  split at counted
  · simp at counted
  · rename_i failure _
    exact ⟨failure, (Prod.mk.inj counted).2.symm⟩

theorem rollOnce_cases (rolled : s.rollOnce p keep = (.ok (), next)) :
    ((rollout p.graph p.choose s.tracker s.source).result = .ok false ∧
      next.evaluator = s.evaluator ∧ next.tally.deadEnds = s.tally.deadEnds + 1 ∧
      next.tally.best = s.tally.best) ∨
    ∃ term reply, s.evaluator.evaluate p.ask term = (.ok reply, next.evaluator) ∧
      next.tally.deadEnds = s.tally.deadEnds ∧
      next.tally.best = (reply.cost?.map fun cost => (term, cost)).elim s.tally.best
        (cheaper s.tally.best) := by
  unfold Sampling.rollOnce at rolled
  dsimp only at rolled
  split at rolled
  · simp at rolled
  · rename_i stuck
    obtain ⟨failure, rfl⟩ := countFailure_cases rolled
    exact .inl ⟨stuck, rfl, rfl, rfl⟩
  · split at rolled
    · simp at rolled
    · rename_i term _
      right
      unfold Sampling.price at rolled
      dsimp only at rolled
      split at rolled
      · simp at rolled
      · rename_i why evaluator evaluated
        obtain ⟨failure, rfl⟩ := countFailure_cases rolled
        exact ⟨term, .failed why, evaluated, rfl, rfl⟩
      · rename_i cost evaluator evaluated
        obtain rfl := (Prod.mk.inj rolled).2
        exact ⟨term, .cost cost, evaluated, rfl, rfl⟩

end Rollouts

/-- The rollouts so far have added these entries to a record: as many as there were rollouts, but
for the dead ends.  The best pair is that of the entries. -/
structure Sampling.Booked (base entries : Record Float) (rolls : Nat)
    (s : Sampling (σ × Record Float) ρ Float) : Prop where
  evaluator : s.evaluator.Booked
  record_eq : s.evaluator.oracle.2 = base ++ entries
  accounted : entries.length + s.tally.deadEnds = rolls
  best : Earliest entries s.tally.best

section Leaves

variable {p : Problem σ ρ Float} {base entries : Record Float} {rolls : Nat}
  {s next : Sampling (σ × Record Float) ρ Float} {keep : Bool}

theorem Sampling.Booked.rollOnce (numeric : p.ask.Numeric) (booked : s.Booked base entries rolls)
    (rolled : s.rollOnce p.recorded keep = (.ok (), next)) :
    ∃ more, next.Booked base (entries ++ more) (rolls + 1) := by
  have balance := booked.accounted
  rcases rollOnce_cases rolled with ⟨_, same, deadEnds, best⟩ |
    ⟨term, reply, evaluated, deadEnds, best⟩
  · refine ⟨[], ?_, ?_, ?_, ?_⟩
    · rw [same]
      exact booked.evaluator
    · rw [same, List.append_nil, booked.record_eq]
    · rw [List.append_nil, deadEnds]
      omega
    · rw [List.append_nil, best]
      exact booked.best
  · obtain ⟨_, record, _⟩ := Evaluator.record_of_evaluate evaluated
    have bookedNext := booked.evaluator.evaluate numeric evaluated
    rw [booked.record_eq, List.append_assoc] at record
    refine ⟨[(term, reply)], bookedNext, record, ?_, ?_⟩
    · rw [List.length_append, List.length_singleton, deadEnds]
      omega
    · rw [best]
      refine booked.best.append (.single term reply) fun entry member => ?_
      exact bookedNext.numeric entry (record ▸ List.mem_append_right base member)

theorem Sampling.Booked.rollMany (numeric : p.ask.Numeric) (count : Nat) :
    ∀ {s : Sampling (σ × Record Float) ρ Float} {entries : Record Float} {rolls : Nat},
      s.Booked base entries rolls → s.rollMany p.recorded keep count = (.ok (), next) →
      ∃ more, next.Booked base (entries ++ more) (rolls + count) := by
  induction count with
  | zero =>
      intro s entries rolls booked rolled
      obtain rfl := (Prod.mk.inj rolled).2
      exact ⟨[], by rwa [List.append_nil]⟩
  | succ count ih =>
      intro s entries rolls booked rolled
      obtain ⟨after, once, rolled⟩ := rollMany_cases rolled
      obtain ⟨first, bookedAfter⟩ := booked.rollOnce numeric once
      obtain ⟨more, bookedNext⟩ := ih bookedAfter rolled
      refine ⟨first ++ more, ?_⟩
      rw [← List.append_assoc, Nat.add_comm count 1, ← Nat.add_assoc]
      exact bookedNext

theorem evaluateLeaf_booked (numeric : p.ask.Numeric) {rollouts : Number} {tracker : Tracker}
    {e : Evaluator (σ × Record Float)} {source : ρ} {leaf : Leaf Float} (booked : e.Booked)
    (evaluated : evaluateLeaf p.recorded rollouts tracker e source = (.ok leaf, next)) :
    ∃ entries, next.Booked e.oracle.2 entries rollouts.rolls ∧ leaf.toTally = next.tally := by
  obtain ⟨count, whole, rfl, rolled⟩ := evaluateLeaf_cases evaluated
  have fresh : (Sampling.start tracker e source).Booked e.oracle.2 [] 0 :=
    ⟨booked, (List.append_nil _).symm, rfl, .nothing (by simp)⟩
  obtain ⟨entries, bookedLast⟩ := fresh.rollMany numeric count.toNat rolled
  refine ⟨entries, ?_, rfl⟩
  simpa [Number.rolls, whole] using bookedLast

end Leaves

/-! ## Playouts -/

/-- The counters and the best pair of a search are those of its record. -/
structure Progress.Booked (rolls : Nat) (s : Progress (σ × Record Float) Float) : Prop where
  evaluator : s.evaluator.Booked
  accounted : s.evaluator.oracle.2.length + s.deadEnds = s.playouts * rolls
  best : Earliest s.evaluator.oracle.2 s.best

section Playouts

variable {p : Problem σ ρ Float} {tuning : Tuning Float} {start : Nat} {source : ρ}
  {s next : Progress (σ × Record Float) Float} {leaf : Leaf Float}

theorem booked_initial (rolls : Nat) (oracle : σ) :
    (Progress.initial (oracle, []) : Progress (σ × Record Float) Float).Booked rolls where
  evaluator := ⟨rfl, rfl, fun entry member => by simp [Progress.initial] at member⟩
  accounted := (Nat.zero_mul rolls).symm
  best := .nothing (by simp [Progress.initial])

theorem playout_evaluates {α : Type} [Scalar α] {p : Problem σ ρ α} {tuning : Tuning α}
    {s next : Progress σ α} {leaf : Leaf α}
    (played : playout p tuning start source s = (.ok leaf, next)) :
    ∃ tracker sampling, evaluateLeaf p tuning.rollouts tracker s.evaluator source =
        (.ok leaf, sampling) ∧ next.evaluator = sampling.evaluator ∧
      next.deadEnds = s.deadEnds ∧ next.playouts = s.playouts ∧ next.best = s.best := by
  unfold playout at played
  split at played
  · simp at played
  · dsimp only at played
    split at played
    · simp at played
    · split at played
      · simp at played
      · rename_i sampling evaluated
        split at played
        · simp at played
        · obtain ⟨rfl, rfl⟩ : _ = leaf ∧ _ = next := by simpa using played
          exact ⟨_, sampling, evaluated, rfl, rfl, rfl, rfl⟩

theorem Progress.Booked.play (numeric : p.ask.Numeric) (booked : s.Booked tuning.rollouts.rolls)
    (played : playout p.recorded tuning start source s = (.ok leaf, next)) :
    (next.record tuning leaf).Booked tuning.rollouts.rolls := by
  obtain ⟨tracker, sampling, evaluated, evaluator, deadEnds, playouts, best⟩ :=
    playout_evaluates played
  obtain ⟨entries, bookedLeaf, same⟩ := evaluateLeaf_booked numeric booked.evaluator evaluated
  have balance := booked.accounted
  have balanceLeaf := bookedLeaf.accounted
  have numericNext := bookedLeaf.evaluator.numeric
  rw [bookedLeaf.record_eq] at numericNext
  refine ⟨?_, ?_, ?_⟩
  · rw [evaluator_record, evaluator]
    exact bookedLeaf.evaluator
  · rw [evaluator_record, evaluator, bookedLeaf.record_eq, deadEnds_record, deadEnds, same,
      playouts_record, playouts, List.length_append, Nat.add_one_mul]
    omega
  · rw [evaluator_record, evaluator, bookedLeaf.record_eq, best_record, best, same]
    exact booked.best.append bookedLeaf.best numericNext

end Playouts

end EGraphSearch
