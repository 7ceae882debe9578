import EGraphSearch.Proofs.Search.Accounting
import EGraphSearch.Proofs.Search.Success

/-!
# A worker on its own

A worker without colleagues reserves its path with virtual loss, and takes the loss back before
anybody looks at it.  So nothing that it selects depends on the loss or on the value charged for it,
and a batch that is run by one worker under the lock is the batch that is run without one: it ends
in the same state, with the same count or with the same fault.

Limits of batches are whole numbers by declaration.  What is used of that is that a limit is a
number: not-a-number would end the loop at once, and would never stop a worker.
-/

set_option autoImplicit false

namespace EGraphSearch

/-! ## Trees without virtual loss -/

section Alone

variable {σ ρ α : Type} [Scalar α]

/-- A playout that nobody else can see leaves every virtual loss as it was, also if it fails. -/
theorem virtualLoss_playout (p : Problem σ ρ α) (tuning : Tuning α) (start : Nat) (source : ρ)
    (s : Progress σ α) (j : Nat) :
    ((playout p tuning start source s).2.tree.node j).virtualLoss =
      (s.tree.node j).virtualLoss := by
  unfold playout
  split
  · rfl
  · rename_i tracker _
    have walked : ((selectAndExpand p.graph (tuning.constants Scalar.zero) s.tree tracker
        start).tree.node j).virtualLoss = (s.tree.node j).virtualLoss :=
      congrArg (·.2.2) (statistics_selectAndExpand _ s.tree tracker start j)
    dsimp only
    split
    · exact walked
    · split
      · exact walked
      · rename_i path _ _ leaf sampling _
        have credited := Tree.field_updatePath SearchNode.virtualLoss
          (f := SearchNode.credit leaf.value) (fun _ => rfl) path
          (selectAndExpand p.graph (tuning.constants Scalar.zero) s.tree tracker start).tree j
        split
        · rename_i fault tree ended
          rw [← Tree.creditPath, ended] at credited
          exact credited.trans walked
        · rename_i tree ended
          rw [← Tree.creditPath, ended] at credited
          exact credited.trans walked

end Alone

theorem SearchNode.removeLoss_addLoss {n : SearchNode ℝ} (lossless : n.virtualLoss = 0)
    (amount : ℝ) : (n.addLoss amount).removeLoss amount = n := by
  obtain ⟨_, _, _, _, _, _, _, _, loss, _, _⟩ := n
  obtain rfl : loss = 0 := lossless
  simp [removeLoss, addLoss, scalar_max_real, scalar_zero_real]

def Tree.Lossless (t : Tree ℝ) : Prop := ∀ i, (t.node i).virtualLoss = 0

variable {σ ρ : Type} {g : EGraph} {tree : Tree ℝ} {tuning : Tuning ℝ}

theorem Tree.Lossless.noteMoves (lossless : tree.Lossless) (i : Nat) (tracker : Tracker) :
    (tree.noteMoves g i tracker).Lossless :=
  fun j => (congrArg (·.2.2) (stats_noteMoves j).1).trans (lossless j)

theorem Tree.Lossless.selectAndExpand (lossless : tree.Lossless)
    (constants : Option (ScoreConstants ℝ)) (tracker : Tracker) (start : Nat) :
    (selectAndExpand g constants tree tracker start).tree.Lossless :=
  fun j => (congrArg (·.2.2) (statistics_selectAndExpand constants tree tracker start j)).trans
    (lossless j)

/-- What is reserved and taken back at once leaves no trace. -/
theorem Tree.Lossless.reserve (lossless : tree.Lossless) (amount : ℝ) {path : List Nat}
    (distinct : path.Nodup) (inside : ∀ j ∈ path, j < tree.size) :
    ∃ reserved, tree.addLoss amount path = (.ok (), reserved) ∧
      reserved.removeLoss amount path = (.ok (), tree) := by
  obtain ⟨reserved, added, sizeAdded, nodesAdded⟩ :=
    updatePath_spec (f := SearchNode.addLoss amount) path distinct inside
  obtain ⟨restored, removed, sizeRestored, nodesRestored⟩ :=
    updatePath_spec (f := SearchNode.removeLoss amount) path distinct
      fun j member => sizeAdded ▸ inside j member
  have same : restored = tree := by
    refine ext_node (sizeRestored.trans sizeAdded) fun j => ?_
    rw [nodesRestored j, nodesAdded j]
    split
    · exact SearchNode.removeLoss_addLoss (lossless j) amount
    · rfl
  exact ⟨reserved, added, by rw [removeLoss, removed, same]⟩

/-! ## The value charged for a loss -/

theorem SearchNode.score?_eq {n : SearchNode ℝ} (lossless : n.virtualLoss = 0)
    (tuning : Tuning ℝ) (x y parentVisits : ℝ) :
    n.score? (tuning.constants x) parentVisits = n.score? (tuning.constants y) parentVisits := by
  cases explores : tuning.exploration with
  | none => simp only [Tuning.constants, explores, Option.map_none]
  | some exploration =>
      simp only [Tuning.constants, explores, Option.map_some, score?, score, lossless, zero_mul]

theorem Tree.Lossless.selectMove_eq (lossless : tree.Lossless) (tuning : Tuning ℝ) (x y : ℝ)
    (i : Nat) (moves : List Nat) :
    tree.selectMove (tuning.constants x) i moves =
      tree.selectMove (tuning.constants y) i moves := by
  have scores : ∀ parentVisits, (fun child => (tree.node child).score? (tuning.constants x)
      parentVisits) = fun child => (tree.node child).score? (tuning.constants y) parentVisits :=
    fun parentVisits => funext fun child =>
      SearchNode.score?_eq (lossless child) tuning x y parentVisits
  have able : ∀ n, canScore (tuning.constants x) tree n moves =
      canScore (tuning.constants y) tree n moves := by
    intro n
    simp only [canScore, congrFun (scores n.presence)]
  unfold selectMove
  simp only [congrFun (scores _), able]

theorem descend_eq (tuning : Tuning ℝ) (x y : ℝ) (k : Nat) :
    ∀ {tree : Tree ℝ} {tracker : Tracker} {i : Nat}, tracker.openCount < k → tree.Lossless →
      descend g (tuning.constants x) tree tracker i =
        descend g (tuning.constants y) tree tracker i := by
  induction k with
  | zero => exact fun small => absurd small (Nat.not_lt_zero _)
  | succ k ih =>
      intro tree tracker i small lossless
      have noted : (tree.noteMoves g i tracker).Lossless := lossless.noteMoves i tracker
      rw [descend, descend]
      simp only [noted.selectMove_eq tuning x y]
      split
      · rfl
      · split
        · rfl
        · split
          · rfl
          · rename_i moved applied
            split
            · rfl
            · have fewer := Tracker.apply_openCount applied
              rw [ih (by omega) noted]

/-- Where nothing is in flight, the value charged for playouts in flight does not matter. -/
theorem selectAndExpand_eq (lossless : tree.Lossless) (tuning : Tuning ℝ) (x y : ℝ)
    (tracker : Tracker) (start : Nat) :
    selectAndExpand g (tuning.constants x) tree tracker start =
      selectAndExpand g (tuning.constants y) tree tracker start := by
  simp only [selectAndExpand, descend_eq tuning x y _ (Nat.lt_succ_self _) lossless]

/-! ## One playout -/

variable {plan : Plan σ ρ ℝ} {start index : Nat} {limit : Option Number} {amount : ℝ}
  {s : Progress σ ℝ}

theorem fly_eq (wf : plan.graph.toArena.WellFormed) (loss : plan.tuning.virtualLoss = some amount)
    (faithful : Faithful plan.graph s.tree) (lossless : s.tree.Lossless)
    (inside : start < s.tree.size) (budget : Budget) (started : Nat) (lossValue : ℝ) :
    Shared.fly plan (plan.tuning.constants lossValue) start index ⟨budget, started, s⟩ =
      (match playout plan.toProblem plan.tuning start (plan.stream index) s with
        | (.error fault, next) => (.error fault, ⟨budget, started, next⟩)
        | (.ok leaf, next) => (.ok (), ⟨budget, started, next.record plan.tuning leaf⟩)) := by
  obtain ⟨tracker, replayed⟩ := faithful.replayed start inside
  obtain ⟨before, path, _, _⟩ := faithful.toLinked.exists_path start inside
  have same := selectAndExpand_eq (g := plan.graph) lossless plan.tuning lossValue Scalar.zero
    tracker start
  have walkLossless := lossless.selectAndExpand (g := plan.graph)
    (plan.tuning.constants Scalar.zero) tracker start
  simp only [Shared.fly, Shared.launch, playout, replayed, same]
  rcases descend_spec wf (plan.tuning.constants Scalar.zero) _ (Nat.lt_succ_self _) faithful inside
      replayed with ⟨below, descent⟩ | ⟨_, fault, failed⟩
  · obtain ⟨distinct, insideAll⟩ := descent.nodup_path faithful inside path
    have returned : (selectAndExpand plan.graph (plan.tuning.constants Scalar.zero) s.tree tracker
        start).path = .ok (before ++ [start] ++ below) := by
      simp only [selectAndExpand, path, descent.path, Except.map]
    have grown : (selectAndExpand plan.graph (plan.tuning.constants Scalar.zero) s.tree tracker
        start).tree = (descend plan.graph (plan.tuning.constants Scalar.zero) s.tree tracker
          start).tree := by
      simp only [selectAndExpand, path]
    rw [← grown] at insideAll
    obtain ⟨reserved, added, removed⟩ := walkLossless.reserve amount distinct insideAll
    simp only [returned, loss, added, land, Shared.withTree]
    rcases evaluateLeaf plan.toProblem plan.tuning.rollouts _ s.evaluator (plan.stream index) with
      ⟨fault | leaf, sampling⟩
    · simp only [Shared.abandon, loss, Progress.afterSampling, Progress.report, removed,
        Shared.withTree]
    · obtain ⟨credited, ok, _⟩ := Tree.updatePath_spec (f := SearchNode.credit leaf.value) _
        distinct insideAll
      simp only [Shared.finish, Shared.abandon, loss, Progress.afterSampling, Progress.report,
        removed, Shared.withTree, Tree.creditPath, ok]
  · have returned : (selectAndExpand plan.graph (plan.tuning.constants Scalar.zero) s.tree tracker
        start).path = .error fault := by
      simp only [selectAndExpand, path, failed, Except.map]
    simp only [returned, Shared.withTree]

/-! ## A whole batch -/

/-- What a lone worker does is what the loop without workers does. -/
structure SameEnd (worked : Except Fault Unit × Shared σ ℝ) (ended : BatchEnd σ ℝ) : Prop where
  result : worked.1 = ended.ran.map fun _ => ()
  budget : worked.2.budget = ended.budget
  progress : worked.2.progress = ended.progress
  started : ∀ n, ended.ran = .ok n → worked.2.started = n
  lossless : ended.progress.tree.Lossless

theorem work_sameEnd (wf : plan.graph.toArena.WellFormed)
    (loss : plan.tuning.virtualLoss = some amount) (proper : ∀ n, limit = some n → n.Proper)
    (lossValue : ℝ) (bound : Nat) :
    ∀ {ran : Nat} {budget : Budget} {s : Progress σ ℝ}, Faithful plan.graph s.tree →
      s.tree.Lossless → start < s.tree.size →
      SameEnd (work plan (plan.tuning.constants lossValue) start limit bound ⟨budget, ran, s⟩)
        (runBatchFrom plan start limit bound ran budget s) := by
  -- the loops test the limit differently, which agrees for every number but a double that is none
  have limited : ∀ count, limit.any (·.reachedBy count) =
      limit.any fun n => !Number.below (.int count) n := by
    intro count
    cases limit with
    | none => rfl
    | some n => exact Number.reachedBy_eq_not_below (proper n rfl) count
  induction bound with
  | zero =>
      intro ran budget s _ lossless _
      exact ⟨rfl, rfl, rfl, fun n same => Except.ok.inj same, lossless⟩
  | succ bound ih =>
      intro ran budget s faithful lossless inside
      rw [work_step, runBatchFrom, limited]
      split
      · exact ⟨rfl, rfl, rfl, fun n same => Except.ok.inj same, lossless⟩
      · cases budget.claim with
        | none => exact ⟨rfl, rfl, rfl, fun n same => Except.ok.inj same, lossless⟩
        | some claimed =>
            obtain ⟨index, budget⟩ := claimed
            have kept := virtualLoss_playout plan.toProblem plan.tuning start (plan.stream index) s
            simp only [fly_eq wf loss faithful lossless inside]
            rcases played : playout plan.toProblem plan.tuning start (plan.stream index) s with
              ⟨fault | leaf, next⟩
            · rw [played] at kept
              exact ⟨rfl, rfl, rfl, fun n same => by simp at same,
                fun j => (kept j).trans (lossless j)⟩
            · rw [played] at kept
              obtain ⟨_, _, grown⟩ :=
                (playout_spec wf priced_trivial faithful inside played).played
              have sameTree : (next.record plan.tuning leaf).tree = next.tree := tree_record
              refine ih ?_ ?_ ?_
              · rw [sameTree]
                exact grown.faithful
              · rw [sameTree]
                exact fun j => (kept j).trans (lossless j)
              · rw [sameTree]
                exact Nat.lt_of_lt_of_le inside grown.kept.size_le

/-- One worker under the lock runs the batch that the loop without workers runs: they return the
same count or the same fault, and leave the same budget and the same progress, in which every
virtual loss is gone. -/
theorem lone_worker_runs_loop {budget : Budget}
    (ready : Ready plan.graph plan.tuning start amount ⟨budget, 0, s⟩) {lossValue : ℝ}
    (charged : plan.valuation.failure = .ok lossValue)
    (proper : ∀ n, limit = some n → n.Proper) :
    runShared plan 1 start limit budget s = runBatch plan start limit budget s ∧
      ∀ i, ((runBatch plan start limit budget s).progress.tree.node i).virtualLoss = 0 := by
  have wf := ready.accepted.wellFormed
  obtain ⟨charted, _⟩ := ready.explored.charted wf charted_initial
  have same : SameEnd _ (runBatch plan start limit budget s) :=
    work_sameEnd wf ready.loss proper lossValue (batchBound limit budget) charted.toFaithful
      ready.settled ready.inside
  refine ⟨?_, same.lossless⟩
  have shifted : shift plan start limit ⟨budget, 0, s⟩ = work plan
      (plan.tuning.constants lossValue) start limit (batchBound limit budget) ⟨budget, 0, s⟩ := by
    simp only [shift, charged]
  have lone : (1 : Number).int? = some 1 := rfl
  simp only [runShared, lone, Int.toNat_one, shifts, shifted]
  rcases worked : work plan (plan.tuning.constants lossValue) start limit (batchBound limit budget)
    ⟨budget, 0, s⟩ with ⟨result, ⟨budgetEnd, ran, progressEnd⟩⟩
  rcases ended : runBatch plan start limit budget s with ⟨count, budgetLoop, progressLoop⟩
  rw [worked, ended] at same
  obtain rfl : result = count.map fun _ => () := same.result
  obtain rfl : budgetEnd = budgetLoop := same.budget
  obtain rfl : progressEnd = progressLoop := same.progress
  cases count with
  | error fault => rfl
  | ok n =>
      obtain rfl : ran = n := same.started n rfl
      rfl

section Loop

/-- Three playouts on the graph with a cycle, where every term costs the same. -/
noncomputable def loopPlan : Plan Unit Script ℝ where
  graph := EGraph.loopGraph
  ask _ state := (.ok (.cost 2), state)
  choose := Policy.uniform.choose
  valuation := ⟨reciprocalValue, .ok 0⟩
  tuning := loopTuning
  maxPlayouts := some 3
  timeLimit := none
  stream _ := ⟨[0, 1], 0⟩
  lastStream := ⟨[0], 0⟩
  summarised := false

theorem lone_worker_runs_loop_loop :
    Ready loopPlan.graph loopPlan.tuning 0 1 loopBatch ∧
      (∀ n, some (2 : Number) = some n → n.Proper) ∧
      runShared loopPlan 1 0 (some 2) loopBatch.budget loopBatch.progress =
        runBatch loopPlan 0 (some 2) loopBatch.budget loopBatch.progress ∧
      ∀ i, ((runBatch loopPlan 0 (some 2) loopBatch.budget
        loopBatch.progress).progress.tree.node i).virtualLoss = 0 := by
  have proper : ∀ n, some (2 : Number) = some n → n.Proper := by
    rintro n ⟨⟩
    exact trivial
  have charged : loopPlan.valuation.failure = .ok 0 := rfl
  exact ⟨loopBatch_ready, proper, lone_worker_runs_loop loopBatch_ready charged proper⟩

end Loop

end EGraphSearch
