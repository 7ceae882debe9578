import EGraphSearch.Proofs.Number.Counts
import EGraphSearch.Proofs.Search.FinalTerm
import EGraphSearch.Proofs.Search.Success
import EGraphSearch.Search.Extraction

/-!
# A search in rounds

Under a paced plan every round claims at least one playout, so that what is left of the budget is
enough fuel: a search ends because its playouts are spent or because it has committed to a complete
term, and never for another reason.
-/

set_option autoImplicit false

namespace EGraphSearch

variable {σ ρ α : Type} [Scalar α]

/-- A plan whose playouts are all that its budget counts: one worker, a whole number of playouts, no
limit on the time, and no round without a playout. -/
structure Plan.Paced (plan : Plan σ ρ α) (most : Nat) : Prop where
  alone : Number.below 1 plan.tuning.workers = false
  limit : ∃ n, plan.maxPlayouts = some n ∧ n.int? = some (most : Int)
  timeless : plan.timeLimit = none
  perRound : ∀ n, plan.tuning.perRound = some n → Number.below 0 n = true

/-- A paced plan under which no playout fails: the search can compute with its settings. -/
structure Plan.Steady (plan : Plan σ ρ α) (most : Nat) : Prop
    extends Problem.Playable plan.toProblem, plan.Paced most where
  usable : plan.tuning.Usable

/-- A paced plan under which nothing fails: the search can compute with its settings. -/
structure Plan.Regular (plan : Plan σ ρ α) (most : Nat) : Prop
    extends Problem.Regular plan.toProblem, plan.Paced most where
  usable : plan.tuning.Usable
  attempts : ∃ count, plan.tuning.completionAttempts.int? = some count

omit [Scalar α] in
theorem Plan.Regular.steady {plan : Plan σ ρ α} {most : Nat} (regular : plan.Regular most) :
    plan.Steady most :=
  { regular, regular.toRegular.playable with }

/-! ## Keeping what rounds keep -/

section Keeping

variable {plan : Plan σ ρ α} {perRound : Number}

theorem runBatch_alone (alone : Number.below 1 plan.tuning.workers = false) (start : Nat)
    (limit : Option Number) (budget : Budget) (s : Progress σ α) :
    plan.runBatch start limit budget s = EGraphSearch.runBatch plan start limit budget s := by
  simp [Plan.runBatch, alone]

theorem BatchEnd.closeRound_keeps {Q : Progress σ α → Prop} {batch : BatchEnd σ α}
    {goOn : Nat → Budget → Progress σ α → SearchEnd σ α}
    (commit : ∀ {s : Progress σ α} {move child : Nat}, Q s →
      s.tree.mostVisited s.committed true = .ok (some (move, child)) → Q (s.commit child))
    (onward : ∀ {n : Nat} {budget : Budget} {s : Progress σ α}, Q s →
      (goOn n budget s).result = .ok () → Q (goOn n budget s).progress)
    (holds : ∀ n, batch.ran = .ok n → Q batch.progress)
    (ended : (batch.closeRound goOn).result = .ok ()) : Q (batch.closeRound goOn).progress := by
  unfold BatchEnd.closeRound at ended ⊢
  cases ran : batch.ran with
  | error fault => simp [ran] at ended
  | ok n =>
      have holds := holds n ran
      rw [ran] at ended
      simp only at ended ⊢
      rcases picked : batch.progress.tree.mostVisited batch.progress.committed true with
        fault | _ | ⟨move, child⟩
      · simp [picked] at ended
      · simp only [picked] at ended ⊢
        exact onward holds ended
      · have committed := commit holds picked
        simp only [picked] at ended ⊢
        split at ended
        · rename_i terminal
          rw [if_pos terminal]
          exact committed
        · rename_i notTerminal
          rw [if_neg notTerminal]
          exact onward committed ended

/-- What every batch from the committed node keeps and every commitment keeps, a search in rounds
keeps, however it ends. -/
theorem searchRounds_keeps {Q : Progress σ α → Prop}
    (batch : ∀ {budget : Budget} {s : Progress σ α} {n : Nat}, Q s →
      (plan.runBatch s.committed (some perRound) budget s).ran = .ok n →
      Q (plan.runBatch s.committed (some perRound) budget s).progress)
    (commit : ∀ {s : Progress σ α} {move child : Nat}, Q s →
      s.tree.mostVisited s.committed true = .ok (some (move, child)) → Q (s.commit child))
    (bound : Nat) : ∀ {budget : Budget} {s : Progress σ α}, Q s →
      (searchRounds plan perRound bound budget s).result = .ok () →
      Q (searchRounds plan perRound bound budget s).progress := by
  induction bound with
  | zero => exact fun holds _ => holds
  | succ bound ih =>
      intro budget s holds ended
      rw [searchRounds] at ended ⊢
      split at ended
      · rename_i spent
        rw [if_pos spent]
        exact holds
      · rename_i notSpent
        rw [if_neg notSpent]
        exact BatchEnd.closeRound_keeps commit ih (fun _ => batch holds) ended

theorem search_ran (whole : plan.tuning.perRound = none) {budget : Budget} {s : Progress σ α}
    (ended : (search plan budget s).result = .ok ()) :
    ∃ count, (plan.runBatch s.committed none budget s).ran = .ok count := by
  cases ran : (plan.runBatch s.committed none budget s).ran with
  | error fault => simp [search, whole, ran, Except.map] at ended
  | ok count => exact ⟨count, rfl⟩

/-- With one worker, what every chain of playouts keeps and every commitment keeps, a search
keeps. -/
theorem search_keeps {Q : Progress σ α → Prop}
    (alone : Number.below 1 plan.tuning.workers = false)
    (batch : ∀ {index count : Nat} {s u : Progress σ α}, Q s →
      Batch plan.toProblem plan.tuning plan.stream s.committed index count s u → Q u)
    (commit : ∀ {s : Progress σ α} {move child : Nat}, Q s →
      s.tree.mostVisited s.committed true = .ok (some (move, child)) → Q (s.commit child))
    {budget : Budget} {s : Progress σ α} (holds : Q s)
    (ended : (search plan budget s).result = .ok ()) : Q (search plan budget s).progress := by
  have kept : ∀ {limit : Option Number} {budget : Budget} {s : Progress σ α} {n : Nat}, Q s →
      (plan.runBatch s.committed limit budget s).ran = .ok n →
      Q (plan.runBatch s.committed limit budget s).progress := by
    intro limit budget s n holds ran
    rw [runBatch_alone alone] at ran ⊢
    exact batch holds (runBatch_spec ran).batch
  cases rounds : plan.tuning.perRound with
  | none =>
      obtain ⟨count, ran⟩ := search_ran rounds ended
      simp only [search, rounds]
      exact kept holds ran
  | some perRound =>
      simp only [search, rounds] at ended ⊢
      exact searchRounds_keeps kept commit _ holds ended

end Keeping

section Commit

variable {p : Problem σ ρ α} {P : Term × α → Prop} {s : Progress σ α} {move child : Nat}

theorem child_lt (faithful : Faithful p.graph s.tree)
    (inside : s.committed < s.tree.size)
    (picked : s.tree.mostVisited s.committed true = .ok (some (move, child))) :
    child < s.tree.size :=
  (faithful.child s.committed inside move child (Tree.member_of_mostVisited inside picked)).2.1

theorem Sane.commit (sane : Sane p P s)
    (picked : s.tree.mostVisited s.committed true = .ok (some (move, child))) :
    Sane p P (s.commit child) where
  faithful := sane.faithful
  committed_lt := child_lt (s := s) sane.faithful sane.committed_lt picked
  best := sane.best

end Commit

/-! ## Batches under a paced plan -/

section Paced

variable {plan : Plan σ ρ α} {most start claimed count : Nat} {limit : Option Number}
  {P : Term × α → Prop} {s : Progress σ α}

omit [Scalar α] in
@[simp] theorem Budget.after_after (budget : Budget) (m n : Nat) :
    (budget.after m).after n = budget.after (m + n) := by
  simp [Budget.after, Nat.add_assoc]

omit [Scalar α] in
@[simp] theorem Budget.after_zero (budget : Budget) : budget.after 0 = budget := rfl

omit [Scalar α] in
theorem Plan.Paced.exhausted_eq (paced : plan.Paced most) (claimed : Nat) :
    (plan.budget.after claimed).exhausted = decide (most ≤ claimed) := by
  obtain ⟨n, limit, whole⟩ := paced.limit
  simp [Budget.exhausted, Plan.budget, Budget.after, limit, paced.timeless,
    Number.reachedBy_whole whole]

omit [Scalar α] in
theorem Plan.Paced.remaining_eq (paced : plan.Paced most) (claimed : Nat) :
    (plan.budget.after claimed).remaining? = some (most - claimed) := by
  obtain ⟨n, limit, whole⟩ := paced.limit
  simp [Budget.remaining?, Plan.budget, Budget.after, limit, Number.ceiling_whole whole]

omit [Scalar α] in
theorem Plan.Paced.roundBound_eq (paced : plan.Paced most) :
    roundBound plan.graph plan.budget = most := by
  have left := paced.remaining_eq 0
  rw [Budget.after_zero] at left
  simp [roundBound, left]

/-- What a batch under a paced plan did when so many playouts had been claimed before. -/
structure Ran (plan : Plan σ ρ α) (most start : Nat) (limit : Option Number) (claimed : Nat)
    (s : Progress σ α) (count : Nat) (ended : BatchEnd σ α) : Prop where
  ran : ended.ran = .ok count
  batch : Batch plan.toProblem plan.tuning plan.stream start claimed count s ended.progress
  budget_eq : ended.budget = plan.budget.after (claimed + count)
  running : ∀ j < count, ¬ Stopped limit j ∧ claimed + j < most
  stopped : Stopped limit count ∨ most ≤ claimed + count

omit [Scalar α] in
theorem stopped_of_bound (paced : plan.Paced most) (limit : Option Number) (claimed : Nat) :
    Stopped limit (batchBound limit (plan.budget.after claimed)) ∨
      most ≤ claimed + batchBound limit (plan.budget.after claimed) := by
  have left := paced.remaining_eq claimed
  cases own : limit.bind Number.ceiling? with
  | none =>
      simp only [batchBound, own, left]
      omega
  | some own' =>
      obtain ⟨n, rfl, ceiling⟩ := Option.bind_eq_some_iff.mp own
      have reached := Number.not_below_of_ceiling ceiling
      simp only [batchBound, Option.bind_some, ceiling, left, Stopped, Option.any_some]
      rcases Nat.le_total own' (most - claimed) with le | le
      · rw [Nat.min_eq_left le, reached]
        exact .inl rfl
      · rw [Nat.min_eq_right le]
        omega

theorem Plan.Paced.ran (paced : plan.Paced most)
    (ended : (plan.runBatch start limit (plan.budget.after claimed) s).ran = .ok count) :
    Ran plan most start limit claimed s count
      (plan.runBatch start limit (plan.budget.after claimed) s) := by
  rw [runBatch_alone paced.alone] at ended ⊢
  have spec := runBatch_spec ended
  have zero : plan.budget.claimed = 0 := rfl
  refine ⟨ended, ?_, ?_, ?_, ?_⟩
  · have batch := spec.batch
    simpa only [Budget.after, zero, Nat.zero_add] using batch
  · rw [spec.budget_eq, Budget.after_after]
  · intro j lt
    obtain ⟨notStopped, notSpent⟩ := spec.running j lt
    rw [Budget.after_after, paced.exhausted_eq] at notSpent
    rw [Nat.zero_add] at notStopped
    exact ⟨notStopped, Nat.lt_of_not_le (of_decide_eq_false notSpent)⟩
  · rcases spec.stopped with rfl | stopped | spent
    · exact stopped_of_bound paced limit claimed
    · rw [Nat.zero_add] at stopped
      exact .inl stopped
    · rw [Budget.after_after, paced.exhausted_eq] at spent
      exact .inr (of_decide_eq_true spent)

/-- Under a steady plan every batch comes to its end. -/
theorem Plan.Steady.runBatch_ok (steady : plan.Steady most) (limit : Option Number)
    (claimed : Nat) (sane : Sane plan.toProblem P s) (inside : start < s.tree.size) :
    ∃ count, (plan.runBatch start limit (plan.budget.after claimed) s).ran = .ok count := by
  rw [runBatch_alone steady.alone]
  exact runBatchFrom_ok steady.toPlayable steady.usable _
    ⟨sane.faithful, sane.committed_lt, best_trivial _⟩ inside

variable {ended : BatchEnd σ α}

theorem Ran.le (ran : Ran plan most start limit claimed s count ended)
    (le : claimed ≤ most) : claimed + count ≤ most := by
  cases count with
  | zero => exact le
  | succ count => exact (ran.running count (Nat.lt_succ_self _)).2

theorem Ran.pos {perRound : Number} (above : Number.below 0 perRound = true)
    (ran : Ran plan most start (some perRound) claimed s count ended) (left : claimed < most) :
    0 < count := by
  change Number.below (.int 0) perRound = true at above
  rcases Nat.eq_zero_or_pos count with rfl | pos
  · rcases ran.stopped with stopped | spent
    · simp [Stopped, above] at stopped
    · omega
  · exact pos

end Paced

/-! ## The whole search -/

section Search

variable {plan : Plan σ ρ α} {most : Nat} {P : Term × α → Prop} {s : Progress σ α}

/-- A search that came to its end: the playouts are spent, or a complete term is committed to. -/
structure Searched (plan : Plan σ ρ α) (P : Term × α → Prop) (most : Nat)
    (ended : SearchEnd σ α) : Prop where
  result : ended.result = .ok ()
  sane : Sane plan.toProblem P ended.progress
  playouts_le : ended.progress.playouts ≤ most
  spent : ended.progress.playouts = most ∨ plan.tuning.perRound.isSome ∧
    (ended.progress.tree.node ended.progress.committed).terminal = true

/-- What a round leaves after its playouts: a child is committed to, unless there are only dead
ends, and the answer says whether it is a complete term. -/
def Progress.settle (u : Progress σ α) : Progress σ α × Bool :=
  match firstBest busier u.tree.node (u.tree.admissible u.committed true) none with
  | none => (u, false)
  | some (_, child) => (u.commit child, (u.tree.node child).terminal)

theorem settle_cases {u : Progress σ α} (inside : u.committed < u.tree.size) :
    u.settle = (u, false) ∨ ∃ move child,
      u.tree.mostVisited u.committed true = .ok (some (move, child)) ∧
      u.settle = (u.commit child, (u.tree.node child).terminal) := by
  unfold Progress.settle
  rw [Tree.mostVisited_eq inside]
  split
  · exact .inl rfl
  · rename_i move child picked
    exact .inr ⟨move, child, by rw [picked], rfl⟩

theorem tree_settle {u : Progress σ α} : u.settle.1.tree = u.tree := by
  unfold Progress.settle
  split <;> rfl

theorem playouts_settle {u : Progress σ α} : u.settle.1.playouts = u.playouts := by
  unfold Progress.settle
  split <;> rfl

theorem settle_spec {p : Problem σ ρ α} {u : Progress σ α} (sane : Sane p P u) :
    Sane p P u.settle.1 ∧ u.settle.1.playouts = u.playouts ∧ u.settle.1.best = u.best ∧
      (u.settle.2 = true →
        (u.settle.1.tree.node u.settle.1.committed).terminal = true) := by
  rcases settle_cases sane.committed_lt with same | ⟨move, child, picked, same⟩
  · rw [same]
    exact ⟨sane, rfl, rfl, by simp⟩
  · rw [same]
    exact ⟨sane.commit picked, rfl, rfl, fun terminal => terminal⟩

theorem searchRounds_stop (paced : plan.Paced most) {perRound : Number} {claimed : Nat}
    (spent : most ≤ claimed) (bound : Nat) (s : Progress σ α) :
    searchRounds plan perRound bound (plan.budget.after claimed) s =
      ⟨.ok (), plan.budget.after claimed, s⟩ := by
  cases bound with
  | zero => rfl
  | succ bound => simp [searchRounds, paced.exhausted_eq, spent]

omit [Scalar α] in
theorem Plan.Paced.unspent (paced : plan.Paced most) {claimed : Nat} (left : claimed < most) :
    (plan.budget.after claimed).exhausted = false := by
  rw [paced.exhausted_eq, decide_eq_false (Nat.not_le.mpr left)]

/-- A round whose playouts are all over settles, and the search goes on from there. -/
theorem BatchEnd.closeRound_settles {n : Nat} {left : Budget} {u : Progress σ α}
    (inside : u.committed < u.tree.size) (goOn : Nat → Budget → Progress σ α → SearchEnd σ α) :
    (⟨.ok n, left, u⟩ : BatchEnd σ α).closeRound goOn =
      if u.settle.2 then ⟨.ok (), left, u.settle.1⟩ else goOn n left u.settle.1 := by
  simp only [BatchEnd.closeRound]
  rw [Tree.mostVisited_eq inside]
  unfold Progress.settle
  cases picked : firstBest busier u.tree.node (u.tree.admissible u.committed true) none with
  | none => rfl
  | some entry => rfl

theorem searchRounds_settles {perRound : Number} {budget left : Budget} {count : Nat}
    {u : Progress σ α} (unspent : budget.exhausted = false)
    (batch : plan.runBatch s.committed (some perRound) budget s = ⟨.ok count, left, u⟩)
    (inside : u.committed < u.tree.size) (bound : Nat) :
    searchRounds plan perRound (bound + 1) budget s =
      if u.settle.2 then ⟨.ok (), left, u.settle.1⟩
      else searchRounds plan perRound bound left u.settle.1 := by
  simp only [searchRounds, unspent, Bool.false_eq_true, if_false, batch]
  exact BatchEnd.closeRound_settles inside _

/-- The playouts of a round that comes to its end. -/
theorem Plan.Paced.round (paced : plan.Paced most) (wf : plan.graph.toArena.WellFormed)
    (priced : plan.toProblem.Priced P) {perRound : Number}
    (rounds : plan.tuning.perRound = some perRound) (sane : Sane plan.toProblem P s)
    (left : s.playouts < most) {count : Nat}
    (ended : (plan.runBatch s.committed (some perRound) (plan.budget.after s.playouts) s).ran =
      .ok count) :
    ∃ u, 0 < count ∧ BatchSpec plan.toProblem P count s u ∧
      Ran plan most s.committed (some perRound) s.playouts s count
        ⟨.ok count, plan.budget.after u.playouts, u⟩ ∧
      plan.runBatch s.committed (some perRound) (plan.budget.after s.playouts) s =
        ⟨.ok count, plan.budget.after u.playouts, u⟩ := by
  have ran := paced.ran ended
  have spec := ran.batch.spec wf priced sane sane.committed_lt
  rcases batch : plan.runBatch s.committed (some perRound) (plan.budget.after s.playouts) s
    with ⟨result, budget, u⟩
  rw [batch] at ran spec
  obtain rfl : result = .ok count := ran.ran
  obtain rfl : budget = plan.budget.after u.playouts := by
    rw [spec.playouts_eq]
    exact ran.budget_eq
  exact ⟨u, ran.pos (paced.perRound perRound rounds) left, spec, ran, rfl⟩

theorem searchRounds_step (paced : plan.Paced most) (wf : plan.graph.toArena.WellFormed)
    (priced : plan.toProblem.Priced P) {perRound : Number}
    (rounds : plan.tuning.perRound = some perRound) (sane : Sane plan.toProblem P s)
    (left : s.playouts < most) {count : Nat}
    (ended : (plan.runBatch s.committed (some perRound) (plan.budget.after s.playouts) s).ran =
      .ok count) (bound : Nat) :
    ∃ u, 0 < count ∧ BatchSpec plan.toProblem P count s u ∧
      Ran plan most s.committed (some perRound) s.playouts s count
        ⟨.ok count, plan.budget.after u.playouts, u⟩ ∧
      searchRounds plan perRound (bound + 1) (plan.budget.after s.playouts) s =
        if u.settle.2 then ⟨.ok (), plan.budget.after u.playouts, u.settle.1⟩
        else searchRounds plan perRound bound (plan.budget.after u.playouts) u.settle.1 := by
  obtain ⟨u, pos, spec, ran, batch⟩ := paced.round wf priced rounds sane left ended
  exact ⟨u, pos, spec, ran,
    searchRounds_settles (paced.unspent left) batch spec.sane.committed_lt bound⟩

theorem searchRounds_ok (steady : plan.Steady most) (priced : plan.toProblem.Priced P)
    {perRound : Number} (rounds : plan.tuning.perRound = some perRound) (bound : Nat) :
    ∀ {s : Progress σ α}, Sane plan.toProblem P s → s.playouts ≤ most →
      most - s.playouts ≤ bound →
      Searched plan P most (searchRounds plan perRound bound (plan.budget.after s.playouts) s) := by
  have inRounds : plan.tuning.perRound.isSome := by rw [rounds]; rfl
  induction bound with
  | zero => exact fun sane le left => ⟨rfl, sane, le, .inl (by simp only [searchRounds]; omega)⟩
  | succ bound ih =>
      intro s sane le enough
      rcases Nat.lt_or_ge s.playouts most with left | spent
      · obtain ⟨count, ended⟩ :=
          steady.runBatch_ok (some perRound) s.playouts sane sane.committed_lt
        obtain ⟨u, pos, spec, ran, step⟩ := searchRounds_step steady.toPaced
          steady.accepted.wellFormed priced rounds sane left ended bound
        obtain ⟨saneNext, samePlayouts, _, terminal⟩ := settle_spec spec.sane
        have counted := spec.playouts_eq
        have leNext := ran.le le
        rw [step]
        split
        · rename_i complete
          exact ⟨rfl, saneNext, by simp only; omega, .inr ⟨inRounds, terminal complete⟩⟩
        · rw [← samePlayouts]
          exact ih saneNext (by omega) (by omega)
      · rw [searchRounds_stop steady.toPaced spent]
        exact ⟨rfl, sane, le, .inl (Nat.le_antisymm le spent)⟩

/-- Under a steady plan the search comes to its end. -/
theorem search_ok (steady : plan.Steady most) (priced : plan.toProblem.Priced P)
    (sane : Sane plan.toProblem P s) (fresh : s.playouts = 0) :
    Searched plan P most (search plan plan.budget s) := by
  have wf := steady.accepted.wellFormed
  unfold search
  cases rounds : plan.tuning.perRound with
  | none =>
      obtain ⟨count, ended⟩ := steady.runBatch_ok none 0 sane sane.committed_lt
      have ran := steady.toPaced.ran ended
      have spec := ran.batch.spec wf priced sane sane.committed_lt
      have le := ran.le (Nat.zero_le _)
      rw [Budget.after_zero] at ran spec
      have spent : most ≤ count := by
        rcases ran.stopped with stopped | spent
        · simp [Stopped] at stopped
        · omega
      have counted := spec.playouts_eq
      exact ⟨by simp [ran.ran, Except.map], spec.sane, by simp only; omega,
        .inl (by simp only; omega)⟩
  | some perRound =>
      have searched := searchRounds_ok steady priced rounds most sane (by omega) (by omega)
      rw [fresh, Budget.after_zero] at searched
      rw [steady.toPaced.roundBound_eq]
      exact searched

end Search

end EGraphSearch
