import EGraphSearch.Proofs.Search.Prefix
import EGraphSearch.Proofs.Search.Traffic

/-!
# The history of a search

The history of a search lists its states right after each playout.  A playout depends on the state
before it and on its index only, so two searches with different limits on their playouts go through
the same history, as long as the smaller limit lasts: the round in which it is used up is cut short,
and every round before is the same.
-/

set_option autoImplicit false

namespace EGraphSearch

variable {σ ρ α : Type} [Scalar α]

/-! ## Histories -/

/-- What a search has found out: everything but the commitment and the journal. -/
structure Standing (σ α : Type) where
  tree : Tree α
  evaluator : Evaluator σ
  playouts : Nat
  deadEnds : Nat
  best : Option (Term × α)

omit [Scalar α] in
def Progress.standing (s : Progress σ α) : Standing σ α :=
  ⟨s.tree, s.evaluator, s.playouts, s.deadEnds, s.best⟩

/-- The states right after each playout of a batch, from where `ran` of its playouts are over. -/
def batchStatesFrom (plan : Plan σ ρ α) (start : Nat) (limit : Option Number) :
    Nat → Nat → Budget → Progress σ α → List (Progress σ α)
  | 0, _, _, _ => []
  | bound + 1, ran, budget, s =>
    if limit.any fun n => !Number.below (.int ran) n then []
    else
      match budget.claim with
      | none => []
      | some (index, budget) =>
        match playout plan.toProblem plan.tuning start (plan.stream index) s with
        | (.error _, _) => []
        | (.ok leaf, s) => s.record plan.tuning leaf ::
          batchStatesFrom plan start limit bound (ran + 1) budget (s.record plan.tuning leaf)

def batchStates (plan : Plan σ ρ α) (start : Nat) (limit : Option Number) (budget : Budget)
    (s : Progress σ α) : List (Progress σ α) :=
  batchStatesFrom plan start limit (batchBound limit budget) 0 budget s

section Loop

variable {plan : Plan σ ρ α} {start : Nat} {limit : Option Number} {s : Progress σ α}

theorem batchFrom_stops (plan : Plan σ ρ α) (start : Nat) {ran : Nat} {budget : Budget}
    (stop : Stopped limit ran ∨ budget.exhausted = true) (bound : Nat) (s : Progress σ α) :
    runBatchFrom plan start limit bound ran budget s = ⟨.ok ran, budget, s⟩ ∧
      batchStatesFrom plan start limit bound ran budget s = [] := by
  cases bound with
  | zero => exact ⟨rfl, rfl⟩
  | succ bound =>
      rw [runBatchFrom, batchStatesFrom]
      rcases stop with stopped | spent
      · rw [Stopped] at stopped
        exact ⟨if_pos stopped, if_pos stopped⟩
      · simp [Budget.claim, spent]

theorem batchFrom_plays (plan : Plan σ ρ α) {ran : Nat} {budget : Budget}
    {result : Except Fault (Leaf α)} {next : Progress σ α} (running : ¬ Stopped limit ran)
    (unspent : budget.exhausted = false)
    (played : playout plan.toProblem plan.tuning start (plan.stream budget.claimed) s =
      (result, next)) (bound : Nat) :
    runBatchFrom plan start limit (bound + 1) ran budget s =
        (match result with
        | .error fault => ⟨.error fault, budget.after 1, next⟩
        | .ok leaf => runBatchFrom plan start limit bound (ran + 1) (budget.after 1)
            (next.record plan.tuning leaf)) ∧
      batchStatesFrom plan start limit (bound + 1) ran budget s =
        match result with
        | .error _ => []
        | .ok leaf => next.record plan.tuning leaf ::
            batchStatesFrom plan start limit bound (ran + 1) (budget.after 1)
              (next.record plan.tuning leaf) := by
  rw [runBatchFrom, batchStatesFrom]
  rw [Stopped] at running
  rw [if_neg running, if_neg running]
  simp only [Budget.claim, unspent, Bool.false_eq_true, if_false, played]
  cases result with
  | error fault => exact ⟨rfl, rfl⟩
  | ok leaf => exact ⟨rfl, rfl⟩

theorem runBatchFrom_add (first more : Nat) :
    ∀ {ran : Nat} {budget left : Budget} {s u : Progress σ α},
      runBatchFrom plan start limit first ran budget s = ⟨.ok (ran + first), left, u⟩ →
      runBatchFrom plan start limit (first + more) ran budget s =
        runBatchFrom plan start limit more (ran + first) left u := by
  induction first with
  | zero =>
      intro ran budget left s u ended
      cases ended
      rw [Nat.zero_add]
      rfl
  | succ first ih =>
      intro ran budget left s u ended
      by_cases stop : Stopped limit ran ∨ budget.exhausted = true
      · rw [(batchFrom_stops plan start stop _ s).1] at ended
        cases congrArg BatchEnd.ran ended
      · obtain ⟨running, unspent⟩ := not_or.mp stop
        have unspent := Bool.eq_false_iff.mpr unspent
        rcases played : playout plan.toProblem plan.tuning start (plan.stream budget.claimed) s
          with ⟨fault | leaf, next⟩
        · rw [(batchFrom_plays plan running unspent played first).1] at ended
          cases congrArg BatchEnd.ran ended
        · rw [(batchFrom_plays plan running unspent played first).1] at ended
          rw [Nat.add_right_comm, (batchFrom_plays plan running unspent played _).1]
          rw [show ran + (first + 1) = ran + 1 + first by omega] at ended ⊢
          exact ih ended

end Loop

def Plan.roundFrom (plan : Plan σ ρ α) (perRound : Number) (s : Progress σ α) :
    List (Progress σ α) :=
  batchStates plan s.committed (some perRound) (plan.budget.after s.playouts) s

def roundStates (plan : Plan σ ρ α) (perRound : Number) :
    Nat → Budget → Progress σ α → List (Progress σ α)
  | 0, _, _ => []
  | bound + 1, budget, s =>
    if budget.exhausted then []
    else
      let batch := plan.runBatch s.committed (some perRound) budget s
      batchStates plan s.committed (some perRound) budget s ++
        match batch.ran with
        | .error _ => []
        | .ok _ =>
          match batch.progress.tree.mostVisited batch.progress.committed true with
          | .error _ => []
          | .ok none => roundStates plan perRound bound batch.budget batch.progress
          | .ok (some (_, child)) =>
            let s := batch.progress.commit child
            if (s.tree.node child).terminal then []
            else roundStates plan perRound bound batch.budget s

/-- The states right after each playout of a search by one worker that goes on from a progress. -/
def Plan.statesFrom (plan : Plan σ ρ α) (s : Progress σ α) : List (Progress σ α) :=
  match plan.tuning.perRound with
  | none => batchStates plan s.committed none plan.budget s
  | some perRound => roundStates plan perRound (roundBound plan.graph plan.budget) plan.budget s

def Plan.states (plan : Plan σ ρ α) (oracle : σ) : List (Progress σ α) :=
  plan.statesFrom (plan.opened oracle)

def Plan.historyFrom (plan : Plan σ ρ α) (s : Progress σ α) : List (Progress σ α) :=
  s :: plan.statesFrom s

/-- The states of a search, before its first playout and right after each one. -/
def Plan.history (plan : Plan σ ρ α) (oracle : σ) : List (Progress σ α) :=
  plan.historyFrom (plan.opened oracle)

/-- A round whose playouts are all over settles, and the history goes on from there. -/
theorem roundStates_settles {plan : Plan σ ρ α} {perRound : Number} {budget left : Budget}
    {count : Nat} {s u : Progress σ α} (unspent : budget.exhausted = false)
    (batch : plan.runBatch s.committed (some perRound) budget s = ⟨.ok count, left, u⟩)
    (inside : u.committed < u.tree.size) (bound : Nat) :
    roundStates plan perRound (bound + 1) budget s =
      batchStates plan s.committed (some perRound) budget s ++
        if u.settle.2 then [] else roundStates plan perRound bound left u.settle.1 := by
  simp only [roundStates, unspent, Bool.false_eq_true, if_false, batch]
  rw [Tree.mostVisited_eq inside]
  unfold Progress.settle
  cases picked : firstBest busier u.tree.node (u.tree.admissible u.committed true) none with
  | none => rfl
  | some entry => rfl

theorem roundStates_append (plan : Plan σ ρ α) (perRound : Number) {budget : Budget}
    (unspent : budget.exhausted = false) (bound : Nat) (s : Progress σ α) :
    ∃ rest, roundStates plan perRound (bound + 1) budget s =
      batchStates plan s.committed (some perRound) budget s ++ rest := by
  rw [roundStates, unspent]
  exact ⟨_, rfl⟩

/-! ## Where a history ends -/

theorem getLastD_append {β : Type} (xs ys : List β) (x : β) :
    (xs ++ ys).getLastD x = ys.getLastD (xs.getLastD x) := by
  simp [List.getLastD_eq_getLast?]

theorem getLastD_take_append {β : Type} (xs ys : List β) (x : β) (k : Nat) :
    ((xs ++ ys).take (xs.length + k)).getLastD x = (ys.take k).getLastD (xs.getLastD x) := by
  rw [List.take_length_add_append, getLastD_append]

section End

variable {plan : Plan σ ρ α} {start : Nat} {limit : Option Number}

theorem batchStatesFrom_last (bound : Nat) : ∀ {ran n : Nat} {budget : Budget} {s : Progress σ α},
    (runBatchFrom plan start limit bound ran budget s).ran = .ok n →
    (runBatchFrom plan start limit bound ran budget s).progress =
      (batchStatesFrom plan start limit bound ran budget s).getLastD s := by
  induction bound with
  | zero => exact fun _ => rfl
  | succ bound ih =>
      intro ran n budget s ended
      rw [runBatchFrom] at ended ⊢
      rw [batchStatesFrom]
      split at ended
      · rename_i full
        rw [if_pos full, if_pos full]
        rfl
      · rename_i notFull
        rw [if_neg notFull, if_neg notFull]
        cases claimed : budget.claim with
        | none => rfl
        | some claim =>
            obtain ⟨index, budget⟩ := claim
            rw [claimed] at ended
            rcases played : playout plan.toProblem plan.tuning start (plan.stream index) s with
              ⟨fault | leaf, next⟩
            · simp [played] at ended
            · simp only [played] at ended ⊢
              rw [List.getLastD_cons]
              exact ih ended

theorem batchStates_last {n : Nat} {budget : Budget} {s : Progress σ α}
    (ended : (runBatch plan start limit budget s).ran = .ok n) :
    (runBatch plan start limit budget s).progress =
      (batchStates plan start limit budget s).getLastD s :=
  batchStatesFrom_last _ ended

/-- A search in rounds leaves what its last playout left; commitments do not matter. -/
theorem roundStates_last (alone : Number.below 1 plan.tuning.workers = false) {perRound : Number}
    (bound : Nat) : ∀ {budget : Budget} {s : Progress σ α},
      (searchRounds plan perRound bound budget s).result = .ok () →
      (searchRounds plan perRound bound budget s).progress.standing =
        ((roundStates plan perRound bound budget s).map Progress.standing).getLastD
          s.standing := by
  induction bound with
  | zero => exact fun _ => rfl
  | succ bound ih =>
      intro budget s ended
      rw [searchRounds, BatchEnd.closeRound] at ended ⊢
      rw [roundStates]
      split at ended
      · rename_i spent
        rw [if_pos spent, if_pos spent]
        rfl
      · rename_i left
        rw [if_neg left, if_neg left]
        simp only [runBatch_alone alone] at ended ⊢
        have last : ∀ n, (runBatch plan s.committed (some perRound) budget s).ran = .ok n → _ :=
          fun _ => batchStates_last
        generalize runBatch plan s.committed (some perRound) budget s = batch at ended last ⊢
        cases ran : batch.ran with
        | error fault => simp [ran] at ended
        | ok n =>
            have reached : batch.progress.standing = ((batchStates plan s.committed (some perRound)
                budget s).map Progress.standing).getLastD s.standing := by
              rw [last n ran, List.getLastD_map]
            rw [ran] at ended
            simp only at ended ⊢
            rw [List.map_append, getLastD_append, ← reached]
            rcases picked : batch.progress.tree.mostVisited batch.progress.committed true with
              fault | _ | ⟨move, child⟩
            · simp [picked] at ended
            · simp only [picked] at ended ⊢
              exact ih ended
            · simp only [picked] at ended ⊢
              split at ended
              · rename_i complete
                rw [if_pos complete, if_pos complete]
                rfl
              · rename_i incomplete
                rw [if_neg incomplete, if_neg incomplete]
                exact ih ended

theorem states_last (alone : Number.below 1 plan.tuning.workers = false) {oracle : σ}
    (ended : (plan.searched oracle).result = .ok ()) :
    (plan.searched oracle).progress.standing =
      ((plan.states oracle).map Progress.standing).getLastD (plan.opened oracle).standing := by
  unfold Plan.searched at ended ⊢
  unfold Plan.states Plan.statesFrom
  cases rounds : plan.tuning.perRound with
  | none =>
      obtain ⟨count, ran⟩ := search_ran rounds ended
      rw [runBatch_alone alone] at ran
      simp only [search, rounds, runBatch_alone alone]
      rw [List.getLastD_map]
      exact congrArg Progress.standing (batchStates_last ran)
  | some perRound =>
      simp only [search, rounds] at ended ⊢
      exact roundStates_last alone _ ended

end End

/-! ## Numbers of states -/

section Numbers

variable {plan : Plan σ ρ α} {start : Nat} {limit : Option Number}

theorem playouts_batchStatesFrom (bound : Nat) : ∀ {ran : Nat} {budget : Budget} {s : Progress σ α},
    (batchStatesFrom plan start limit bound ran budget s).map Progress.playouts =
      List.range' (s.playouts + 1)
        (batchStatesFrom plan start limit bound ran budget s).length := by
  induction bound with
  | zero => exact rfl
  | succ bound ih =>
      intro ran budget s
      rw [batchStatesFrom]
      split
      · rfl
      · split
        · rfl
        · split
          · rfl
          · rename_i leaf next played
            obtain ⟨_, _, _, _, _, counted, _⟩ := playout_cases played
            rw [List.map_cons, List.length_cons, List.range'_succ, ih, playouts_record, counted]

theorem playouts_batchStates (budget : Budget) (s : Progress σ α) :
    (batchStates plan start limit budget s).map Progress.playouts =
      List.range' (s.playouts + 1) (batchStates plan start limit budget s).length :=
  playouts_batchStatesFrom _

theorem getLastD_range' (first length : Nat) :
    (List.range' (first + 1) length).getLastD first = first + length := by
  rw [List.getLastD_eq_getLast?, List.getLast?_range']
  split
  · simp_all
  · simp only [Option.getD_some]
    omega

theorem playouts_runBatchFrom {bound ran n : Nat} {budget : Budget} {s : Progress σ α}
    (ended : (runBatchFrom plan start limit bound ran budget s).ran = .ok n) :
    (runBatchFrom plan start limit bound ran budget s).progress.playouts =
      s.playouts + (batchStatesFrom plan start limit bound ran budget s).length := by
  rw [batchStatesFrom_last _ ended, ← List.getLastD_map (f := Progress.playouts),
    playouts_batchStatesFrom, getLastD_range']

theorem playouts_runBatch {n : Nat} {budget : Budget} {s : Progress σ α}
    (ended : (runBatch plan start limit budget s).ran = .ok n) :
    (runBatch plan start limit budget s).progress.playouts =
      s.playouts + (batchStates plan start limit budget s).length :=
  playouts_runBatchFrom ended

theorem playouts_roundStates (alone : Number.below 1 plan.tuning.workers = false)
    {perRound : Number} (bound : Nat) : ∀ {budget : Budget} {s : Progress σ α},
      (roundStates plan perRound bound budget s).map Progress.playouts =
        List.range' (s.playouts + 1) (roundStates plan perRound bound budget s).length := by
  induction bound with
  | zero => exact rfl
  | succ bound ih =>
      intro budget s
      rw [roundStates]
      split
      · rfl
      · simp only [runBatch_alone alone]
        have counted : (batchStates plan s.committed (some perRound) budget s).map
            Progress.playouts = _ := playouts_batchStates budget s
        have reached : ∀ n, (runBatch plan s.committed (some perRound) budget s).ran = .ok n → _ :=
          fun _ => playouts_runBatch
        generalize batchStates plan s.committed (some perRound) budget s = states
          at counted reached ⊢
        generalize runBatch plan s.committed (some perRound) budget s = batch at reached ⊢
        have append : ∀ rest : List (Progress σ α), (∀ n, batch.ran = .ok n →
            rest.map Progress.playouts =
              List.range' (batch.progress.playouts + 1) rest.length) →
            (∀ fault, batch.ran = .error fault → rest = []) →
            (states ++ rest).map Progress.playouts =
              List.range' (s.playouts + 1) (states ++ rest).length := by
          intro rest continued stopped
          cases ran : batch.ran with
          | error fault => rw [stopped fault ran, List.append_nil, counted]
          | ok n =>
              rw [List.map_append, counted, continued n ran, reached n ran, List.length_append,
                Nat.add_right_comm, List.range'_append_1]
        refine append _ (fun n ran => ?_) (fun fault ran => by rw [ran])
        rw [ran]
        simp only
        split
        · rfl
        · exact ih
        · split
          · rfl
          · exact ih

/-- The states of a history that begins without playouts stand at the number of their playouts. -/
theorem playouts_historyFrom (alone : Number.below 1 plan.tuning.workers = false)
    {s : Progress σ α} (fresh : s.playouts = 0) :
    (plan.historyFrom s).map Progress.playouts = List.range (plan.historyFrom s).length := by
  have counted : (plan.statesFrom s).map Progress.playouts =
      List.range' (s.playouts + 1) (plan.statesFrom s).length := by
    unfold Plan.statesFrom
    split
    · exact playouts_batchStates _ _
    · exact playouts_roundStates alone _
  rw [Plan.historyFrom, List.map_cons, counted, List.length_cons, List.range_eq_range',
    List.range'_succ, fresh]

end Numbers

/-- What a round under a paced plan leaves when its playouts are over. -/
theorem Plan.Paced.round_played {plan : Plan σ ρ α} {most : Nat} {perRound : Number}
    {s : Progress σ α} (paced : plan.Paced most) (wf : plan.graph.toArena.WellFormed)
    (above : Number.below 0 perRound = true) (sane : Sane plan.toProblem (fun _ => True) s)
    (left : s.playouts < most) {count : Nat} {budget : Budget} {u : Progress σ α}
    (batch : plan.runBatch s.committed (some perRound) (plan.budget.after s.playouts) s =
      ⟨.ok count, budget, u⟩) :
    Sane plan.toProblem (fun _ => True) u ∧ s.playouts < u.playouts ∧
      budget = plan.budget.after u.playouts ∧
      u.playouts = s.playouts +
        (batchStates plan s.committed (some perRound) (plan.budget.after s.playouts) s).length := by
  have ran := paced.ran (by rw [batch])
  have counted := playouts_runBatch (by rw [← runBatch_alone paced.alone, batch])
  rw [batch] at ran
  rw [← runBatch_alone paced.alone, batch] at counted
  have spec := ran.batch.spec wf priced_trivial sane sane.committed_lt
  have pos := ran.pos above left
  have grown := spec.playouts_eq
  refine ⟨spec.sane, by simp only at grown; omega, ?_, counted⟩
  rw [grown]
  exact ran.budget_eq

end EGraphSearch
