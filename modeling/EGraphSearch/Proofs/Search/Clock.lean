import EGraphSearch.Proofs.Search.History
import EGraphSearch.Search.Clock

/-!
# What the clock does to a search

The clock cuts a batch of playouts and keeps the next round from its beginning, and it does nothing
else.  So a search under a clock keeps what every search of one worker keeps, it stands where the
search without a clock stood after as many playouts, and with enough looks it is that search.
-/

set_option autoImplicit false

namespace EGraphSearch

variable {σ ρ α : Type} [Scalar α]

/-- How the search of a plan ends after so many looks at the clock. -/
def Plan.searchedWithin (plan : Plan σ ρ α) (looks : Nat) (oracle : σ) : SearchEnd σ α :=
  searchWithin plan.untimed looks plan.untimed.budget (plan.opened oracle)

theorem extractWithin_eq (plan : Plan σ ρ α) (looks : Nat) (oracle : σ) :
    extractWithin plan looks oracle =
      match (plan.searchedWithin looks oracle).result with
      | .error fault => (.error fault, (plan.searchedWithin looks oracle).progress)
      | .ok () => conclude plan (plan.searchedWithin looks oracle).progress := rfl

theorem extractWithin_cases {plan : Plan σ ρ α} {looks : Nat} {oracle : σ} {outcome : Outcome α}
    {after : Progress σ α} (extracted : extractWithin plan looks oracle = (.ok outcome, after)) :
    (plan.searchedWithin looks oracle).result = .ok () ∧
      conclude plan (plan.searchedWithin looks oracle).progress = (.ok outcome, after) := by
  rw [extractWithin_eq] at extracted
  cases searched : (plan.searchedWithin looks oracle).result with
  | error fault => simp [searched] at extracted
  | ok _ =>
      rw [searched] at extracted
      exact ⟨rfl, extracted⟩

/-! ## Keeping what searches keep -/

section Keeping

variable {plan : Plan σ ρ α} {perRound : Number}

theorem searchRoundsWithin_zero (budget : Budget) (s : Progress σ α) :
    searchRoundsWithin plan perRound 0 budget s = ⟨.ok (), budget, s⟩ := by
  rw [searchRoundsWithin.eq_def]

theorem searchRoundsWithin_succ (looks : Nat) (budget : Budget) (s : Progress σ α) :
    searchRoundsWithin plan perRound (looks + 1) budget s =
      if budget.exhausted then ⟨.ok (), budget, s⟩
      else
        (runBatchFrom plan s.committed (some perRound) looks 0 budget s).closeRound fun ran =>
          searchRoundsWithin plan perRound (looks - ran) := by
  rw [searchRoundsWithin.eq_def]

theorem searchRoundsWithin_keeps {Q : Progress σ α → Prop}
    (batch : ∀ {looks n : Nat} {budget : Budget} {s : Progress σ α}, Q s →
      (runBatchFrom plan s.committed (some perRound) looks 0 budget s).ran = .ok n →
      Q (runBatchFrom plan s.committed (some perRound) looks 0 budget s).progress)
    (commit : ∀ {s : Progress σ α} {move child : Nat}, Q s →
      s.tree.mostVisited s.committed true = .ok (some (move, child)) → Q (s.commit child))
    (looks : Nat) : ∀ {budget : Budget} {s : Progress σ α}, Q s →
      (searchRoundsWithin plan perRound looks budget s).result = .ok () →
      Q (searchRoundsWithin plan perRound looks budget s).progress := by
  induction looks using Nat.strong_induction_on with
  | h looks ih =>
      intro budget s holds ended
      cases looks with
      | zero =>
          rw [searchRoundsWithin_zero]
          exact holds
      | succ looks =>
          rw [searchRoundsWithin_succ] at ended ⊢
          split at ended
          · rename_i spent
            rw [if_pos spent]
            exact holds
          · rename_i notSpent
            rw [if_neg notSpent]
            exact BatchEnd.closeRound_keeps commit (ih _ (by omega)) (fun _ => batch holds) ended

/-- What every chain of playouts keeps and every commitment keeps, a search under a clock keeps. -/
theorem searchedWithin_keeps {Q : Progress σ α → Prop}
    (batch : ∀ {index count : Nat} {s u : Progress σ α}, Q s →
      Batch plan.toProblem plan.tuning plan.stream s.committed index count s u → Q u)
    (commit : ∀ {s : Progress σ α} {move child : Nat}, Q s →
      s.tree.mostVisited s.committed true = .ok (some (move, child)) → Q (s.commit child))
    {looks : Nat} {oracle : σ} (opened : Q (plan.opened oracle))
    (ended : (plan.searchedWithin looks oracle).result = .ok ()) :
    Q (plan.searchedWithin looks oracle).progress := by
  have kept : ∀ {limit : Option Number} {looks n : Nat} {budget : Budget} {s : Progress σ α}, Q s →
      (runBatchFrom plan.untimed s.committed limit looks 0 budget s).ran = .ok n →
      Q (runBatchFrom plan.untimed s.committed limit looks 0 budget s).progress := by
    intro limit looks n budget s holds ran
    obtain ⟨_, _, spec⟩ := runBatchFrom_spec _ ran
    exact batch holds spec.batch
  unfold Plan.searchedWithin searchWithin at ended ⊢
  split at ended
  · dsimp only at ended ⊢
    cases ran : (runBatchFrom plan.untimed (plan.opened oracle).committed none looks 0
        plan.untimed.budget (plan.opened oracle)).ran with
    | error fault => simp [ran, Except.map] at ended
    | ok n => exact kept opened ran
  · exact searchRoundsWithin_keeps kept commit _ opened ended

end Keeping

/-! ## A batch that is cut -/

section Cut

variable {plan : Plan σ ρ α} {start most : Nat} {limit : Option Number}

theorem batchStatesFrom_take (looks : Nat) :
    ∀ {bound ran : Nat} {budget : Budget} {s : Progress σ α}, looks ≤ bound →
      batchStatesFrom plan start limit looks ran budget s =
        (batchStatesFrom plan start limit bound ran budget s).take looks := by
  induction looks with
  | zero => exact fun _ => rfl
  | succ looks ih =>
      intro bound ran budget s le
      obtain ⟨bound, rfl⟩ : ∃ smaller, bound = smaller + 1 := ⟨bound - 1, by omega⟩
      rw [batchStatesFrom, batchStatesFrom]
      split
      · rfl
      · split
        · rfl
        · split
          · rfl
          · rw [List.take_succ_cons, ih (Nat.le_of_succ_le_succ le)]

theorem batchFrom_enough (paced : plan.Paced most) (bound : Nat) :
    ∀ {more ran claimed : Nat} {s : Progress σ α},
      Stopped limit (ran + bound) ∨ most ≤ claimed + bound → bound ≤ more →
      runBatchFrom plan start limit more ran (plan.budget.after claimed) s =
          runBatchFrom plan start limit bound ran (plan.budget.after claimed) s ∧
        batchStatesFrom plan start limit more ran (plan.budget.after claimed) s =
          batchStatesFrom plan start limit bound ran (plan.budget.after claimed) s := by
  have stops : ∀ {fuel fuel' ran claimed : Nat} {s : Progress σ α},
      Stopped limit ran ∨ most ≤ claimed →
      runBatchFrom plan start limit fuel ran (plan.budget.after claimed) s =
          runBatchFrom plan start limit fuel' ran (plan.budget.after claimed) s ∧
        batchStatesFrom plan start limit fuel ran (plan.budget.after claimed) s =
          batchStatesFrom plan start limit fuel' ran (plan.budget.after claimed) s := by
    intro fuel fuel' ran claimed s full
    have full : Stopped limit ran ∨ (plan.budget.after claimed).exhausted = true := by
      rw [paced.exhausted_eq, decide_eq_true_iff]
      exact full
    obtain ⟨runs, states⟩ := batchFrom_stops plan start full fuel s
    obtain ⟨runs', states'⟩ := batchFrom_stops plan start full fuel' s
    exact ⟨runs.trans runs'.symm, states.trans states'.symm⟩
  induction bound with
  | zero => exact fun full _ => stops full
  | succ bound ih =>
      intro more ran claimed s enough le
      obtain ⟨more, rfl⟩ : ∃ smaller, more = smaller + 1 := ⟨more - 1, by omega⟩
      by_cases full : Stopped limit ran ∨ most ≤ claimed
      · exact stops full
      obtain ⟨running, left⟩ := not_or.mp full
      have unspent := paced.unspent (Nat.lt_of_not_le left)
      rcases played : playout plan.toProblem plan.tuning start
        (plan.stream (plan.budget.after claimed).claimed) s with ⟨result, next⟩
      obtain ⟨runs, states⟩ := batchFrom_plays plan running unspent played more
      obtain ⟨runs', states'⟩ := batchFrom_plays plan running unspent played bound
      rw [runs, states, runs', states']
      cases result with
      | error fault => exact ⟨rfl, rfl⟩
      | ok leaf =>
          dsimp only
          rw [Budget.after_after]
          rw [← Nat.add_assoc, ← Nat.add_assoc, Nat.add_right_comm ran,
            Nat.add_right_comm claimed] at enough
          obtain ⟨sameRun, sameStates⟩ := ih (s := next.record plan.tuning leaf) enough
            (Nat.le_of_succ_le_succ le)
          exact ⟨sameRun, congrArg _ sameStates⟩

omit [Scalar α] in
theorem enough_of_bound (paced : plan.Paced most) (limit : Option Number) (claimed : Nat) :
    Stopped limit (0 + batchBound limit (plan.budget.after claimed)) ∨
      most ≤ claimed + batchBound limit (plan.budget.after claimed) := by
  rw [Nat.zero_add]
  exact stopped_of_bound paced limit claimed

theorem runBatchFrom_enough (paced : plan.Paced most) (start : Nat) (limit : Option Number)
    {looks claimed : Nat} (s : Progress σ α) (enough : most ≤ claimed + looks) :
    runBatchFrom plan start limit looks 0 (plan.budget.after claimed) s =
      runBatch plan start limit (plan.budget.after claimed) s := by
  rcases Nat.le_total (batchBound limit (plan.budget.after claimed)) looks with le | le
  · exact (batchFrom_enough paced _ (enough_of_bound paced limit claimed) le).1
  · exact (batchFrom_enough paced looks (.inr enough) le).1.symm

/-- A batch under a clock is the whole batch, or it has used all looks and its states are the first
ones of the whole batch. -/
theorem batch_within (paced : plan.Paced most) {looks claimed n : Nat} {s : Progress σ α}
    (ended : (runBatchFrom plan start limit looks 0 (plan.budget.after claimed) s).ran = .ok n) :
    runBatchFrom plan start limit looks 0 (plan.budget.after claimed) s =
        runBatch plan start limit (plan.budget.after claimed) s ∨
      n = looks ∧ batchStatesFrom plan start limit looks 0 (plan.budget.after claimed) s =
        (batchStates plan start limit (plan.budget.after claimed) s).take n := by
  rcases Nat.le_total (batchBound limit (plan.budget.after claimed)) looks with le | le
  · exact .inl (batchFrom_enough paced _ (enough_of_bound paced limit claimed) le).1
  obtain ⟨count, same, spec⟩ := runBatchFrom_spec _ ended
  obtain rfl : n = count := by omega
  rcases spec.stopped with rfl | own
  · exact .inr ⟨rfl, batchStatesFrom_take _ le⟩
  · -- the batch has come to its own end, so neither fuel was used up
    left
    rw [Budget.after_after, paced.exhausted_eq, decide_eq_true_iff] at own
    have le' := Nat.le_trans spec.count_le le
    exact (batchFrom_enough paced n own spec.count_le).1.trans
      (batchFrom_enough paced n own le').1.symm

theorem batch_within_last (paced : plan.Paced most) (claimed : Nat) {looks n : Nat}
    {s : Progress σ α}
    (ended : (runBatchFrom plan start limit looks 0 (plan.budget.after claimed) s).ran = .ok n) :
    ∃ k, (runBatchFrom plan start limit looks 0 (plan.budget.after claimed) s).progress =
      ((batchStates plan start limit (plan.budget.after claimed) s).take k).getLastD s := by
  rcases batch_within paced ended with whole | ⟨-, states⟩
  · refine ⟨(batchStates plan start limit (plan.budget.after claimed) s).length, ?_⟩
    rw [List.take_length, whole]
    exact batchStates_last (whole ▸ ended)
  · exact ⟨n, by rw [← states, batchStatesFrom_last _ ended]⟩

end Cut

/-! ## Rounds under a clock -/

section Rounds

variable {plan : Plan σ ρ α} {most looks : Nat} {perRound : Number} {s : Progress σ α}

/-- What the playouts of a round come to when there is time for some of them. -/
structure RoundWithin (plan : Plan σ ρ α) (perRound : Number) (looks n : Nat)
    (s u : Progress σ α) : Prop where
  batch : runBatchFrom plan s.committed (some perRound) looks 0 (plan.budget.after s.playouts) s =
    ⟨.ok n, plan.budget.after u.playouts, u⟩
  played : Batch plan.toProblem plan.tuning plan.stream s.committed s.playouts n s u
  spec : BatchSpec plan.toProblem (fun _ => True) n s u
  le : n ≤ (plan.roundFrom perRound s).length
  last : u = ((plan.roundFrom perRound s).take n).getLastD s
  /-- Before its end a round stops only when there is no look left. -/
  whole : plan.runBatch s.committed (some perRound) (plan.budget.after s.playouts) s =
      ⟨.ok n, plan.budget.after u.playouts, u⟩ ∧ n = (plan.roundFrom perRound s).length ∨ n = looks

theorem Plan.Paced.round_within (paced : plan.Paced most) (wf : plan.graph.toArena.WellFormed)
    (sane : Sane plan.toProblem (fun _ => True) s) {n : Nat}
    (ended : (runBatchFrom plan s.committed (some perRound) looks 0 (plan.budget.after s.playouts)
      s).ran = .ok n) : ∃ u, RoundWithin plan perRound looks n s u := by
  obtain ⟨count, same, loop⟩ := runBatchFrom_spec _ ended
  obtain rfl : n = count := by omega
  have cut := batch_within paced ended
  have last := batchStatesFrom_last _ ended
  have counted := playouts_runBatchFrom ended
  have played := loop.batch
  rw [show (plan.budget.after s.playouts).claimed = s.playouts from Nat.zero_add _] at played
  have spec := played.spec wf priced_trivial sane sane.committed_lt
  have left := loop.budget_eq
  rcases run : runBatchFrom plan s.committed (some perRound) looks 0 (plan.budget.after s.playouts)
    s with ⟨result, budget, u⟩
  rw [run] at ended cut last counted played spec left
  obtain rfl : result = .ok n := ended
  obtain rfl : budget = plan.budget.after u.playouts := by
    rw [spec.playouts_eq, ← Budget.after_after]
    exact left
  have length : n = _ := Nat.add_left_cancel (spec.playouts_eq.symm.trans counted)
  rcases cut with whole | ⟨spent, states⟩
  · have last := batchStates_last (congrArg BatchEnd.ran whole).symm
    have counted := playouts_runBatch (congrArg BatchEnd.ran whole).symm
    rw [← whole] at last counted
    have length : n = (plan.roundFrom perRound s).length :=
      Nat.add_left_cancel (spec.playouts_eq.symm.trans counted)
    refine ⟨u, run, played, spec, Nat.le_of_eq length, ?_, .inl ⟨?_, length⟩⟩
    · rw [List.take_of_length_le (Nat.le_of_eq length.symm)]
      exact last
    · rw [runBatch_alone paced.alone, ← whole]
  · rw [states] at last length
    rw [List.length_take] at length
    exact ⟨u, run, played, spec, by rw [length]; exact Nat.min_le_right _ _, last, .inr spent⟩

theorem BatchEnd.closeRound_ran {batch : BatchEnd σ α}
    {goOn : Nat → Budget → Progress σ α → SearchEnd σ α}
    (ended : (batch.closeRound goOn).result = .ok ()) : ∃ n, batch.ran = .ok n := by
  unfold BatchEnd.closeRound at ended
  cases ran : batch.ran with
  | error fault => simp [ran] at ended
  | ok n => exact ⟨n, rfl⟩

theorem RoundWithin.searchRoundsWithin_eq {n : Nat} {u : Progress σ α}
    (round : RoundWithin plan perRound looks n s u)
    (unspent : (plan.budget.after s.playouts).exhausted = false) :
    searchRoundsWithin plan perRound (looks + 1) (plan.budget.after s.playouts) s =
      if u.settle.2 then ⟨.ok (), plan.budget.after u.playouts, u.settle.1⟩
      else searchRoundsWithin plan perRound (looks - n) (plan.budget.after u.playouts)
        u.settle.1 := by
  rw [searchRoundsWithin_succ, unspent, round.batch, if_neg Bool.false_ne_true]
  exact BatchEnd.closeRound_settles round.spec.sane.committed_lt _

theorem searchRoundsWithin_stop (paced : plan.Paced most) {claimed : Nat} (spent : most ≤ claimed)
    (looks : Nat) (s : Progress σ α) :
    searchRoundsWithin plan perRound looks (plan.budget.after claimed) s =
      ⟨.ok (), plan.budget.after claimed, s⟩ := by
  cases looks with
  | zero => exact searchRoundsWithin_zero _ _
  | succ looks => rw [searchRoundsWithin_succ, paced.exhausted_eq, decide_eq_true spent, if_pos rfl]

theorem Plan.Paced.round_of_ended (paced : plan.Paced most) (wf : plan.graph.toArena.WellFormed)
    (sane : Sane plan.toProblem (fun _ => True) s) (left : s.playouts < most)
    (ended : (searchRoundsWithin plan perRound (looks + 1) (plan.budget.after s.playouts)
      s).result = .ok ()) : ∃ n u, RoundWithin plan perRound looks n s u := by
  rw [searchRoundsWithin_succ, paced.unspent left] at ended
  obtain ⟨n, ran⟩ := BatchEnd.closeRound_ran ended
  exact ⟨n, paced.round_within wf sane ran⟩

theorem standing_settle (u : Progress σ α) : u.settle.1.standing = u.standing := by
  unfold Progress.settle
  split <;> rfl

/-- A search under a clock stands where the search without one stood after as many playouts. -/
theorem searchRoundsWithin_stands (paced : plan.Paced most) (wf : plan.graph.toArena.WellFormed)
    (above : Number.below 0 perRound = true) (looks : Nat) :
    ∀ {bound : Nat} {s : Progress σ α}, Sane plan.toProblem (fun _ => True) s →
      most - s.playouts ≤ bound →
      (searchRoundsWithin plan perRound looks (plan.budget.after s.playouts) s).result = .ok () →
      ∃ k, (searchRoundsWithin plan perRound looks (plan.budget.after s.playouts)
          s).progress.standing =
        (((roundStates plan perRound bound (plan.budget.after s.playouts) s).map
          Progress.standing).take k).getLastD s.standing := by
  induction looks using Nat.strong_induction_on with
  | h looks ih =>
      intro bound s sane enough ended
      rcases Nat.lt_or_ge s.playouts most with left | spent
      swap
      · rw [searchRoundsWithin_stop paced spent]
        exact ⟨0, rfl⟩
      cases looks with
      | zero =>
          rw [searchRoundsWithin_zero]
          exact ⟨0, rfl⟩
      | succ looks =>
          have unspent := paced.unspent left
          obtain ⟨bound, rfl⟩ : ∃ smaller, bound = smaller + 1 := ⟨bound - 1, by omega⟩
          obtain ⟨n, u, round⟩ := paced.round_of_ended wf sane left ended
          obtain ⟨saneNext, samePlayouts, _, _⟩ := settle_spec round.spec.sane
          have states : ∀ rest : List (Progress σ α),
              (((plan.roundFrom perRound s ++ rest).map Progress.standing).take n).getLastD
                s.standing = u.settle.1.standing := by
            intro rest
            rw [← List.map_take, List.getLastD_map, List.take_append_of_le_length round.le,
              ← round.last, standing_settle]
          rw [round.searchRoundsWithin_eq unspent] at ended ⊢
          rcases round.whole with ⟨whole, length⟩ | rfl
          · rw [roundStates_settles unspent whole round.spec.sane.committed_lt]
            cases complete : u.settle.2 with
            | true => exact ⟨n, (states _).symm⟩
            | false =>
                have counted := round.spec.playouts_eq
                have grown := (paced.round_played wf above sane left whole).2.1
                simp only [complete, Bool.false_eq_true, if_false] at ended ⊢
                rw [← samePlayouts] at ended ⊢
                obtain ⟨k, stands⟩ := ih (looks - n) (by omega) saneNext
                  (show most - u.settle.1.playouts ≤ bound by omega) ended
                have reached := states []
                rw [List.append_nil, length, ← List.length_map (f := Progress.standing),
                  List.take_length] at reached
                refine ⟨((plan.roundFrom perRound s).map Progress.standing).length + k, ?_⟩
                rw [stands, List.map_append, ← reached]
                exact (getLastD_take_append _ _ _ _).symm
          · obtain ⟨rest, split⟩ := roundStates_append plan perRound unspent bound s
            rw [split, Nat.sub_self, searchRoundsWithin_zero]
            refine ⟨n, Eq.trans ?_ (states rest).symm⟩
            split <;> rfl

theorem searchRoundsWithin_enough (paced : plan.Paced most) (wf : plan.graph.toArena.WellFormed)
    (above : Number.below 0 perRound = true) (looks : Nat) :
    ∀ {bound : Nat} {s : Progress σ α}, Sane plan.toProblem (fun _ => True) s →
      2 * (most - s.playouts) ≤ looks → most - s.playouts ≤ bound →
      searchRoundsWithin plan perRound looks (plan.budget.after s.playouts) s =
        searchRounds plan perRound bound (plan.budget.after s.playouts) s := by
  induction looks using Nat.strong_induction_on with
  | h looks ih =>
      intro bound s sane enough enough'
      rcases Nat.lt_or_ge s.playouts most with left | spent
      swap
      · rw [searchRoundsWithin_stop paced spent, searchRounds_stop paced spent]
      have unspent := paced.unspent left
      obtain ⟨looks, rfl⟩ : ∃ smaller, looks = smaller + 1 := ⟨looks - 1, by omega⟩
      obtain ⟨bound, rfl⟩ : ∃ smaller, bound = smaller + 1 := ⟨bound - 1, by omega⟩
      have same := runBatchFrom_enough paced s.committed (some perRound) s
        (show most ≤ s.playouts + looks by omega)
      rw [← runBatch_alone paced.alone] at same
      rcases batch : plan.runBatch s.committed (some perRound) (plan.budget.after s.playouts) s
        with ⟨fault | n, budget, u⟩
      · rw [searchRoundsWithin_succ, same, searchRounds, unspent, batch]
        rfl
      · obtain ⟨saneU, grown, rfl, counted⟩ := paced.round_played wf above sane left batch
        obtain ⟨saneNext, samePlayouts, _, _⟩ := settle_spec saneU
        have ran := (paced.ran (congrArg BatchEnd.ran batch)).batch
        rw [batch] at ran
        have length := (ran.spec wf priced_trivial sane sane.committed_lt).playouts_eq
        simp only at length
        rw [searchRounds_settles unspent batch saneU.committed_lt, searchRoundsWithin_succ, same,
          batch, unspent, if_neg Bool.false_ne_true,
          BatchEnd.closeRound_settles saneU.committed_lt]
        split
        · rfl
        · rw [← samePlayouts]
          exact ih (looks - n) (by omega) saneNext (by omega) (by omega)

/-- Under a steady plan a batch comes to its end, however early the clock cuts it. -/
theorem Plan.Steady.batch_within_ok (steady : plan.Steady most) (limit : Option Number)
    (looks : Nat) (budget : Budget) (sane : Sane plan.toProblem (fun _ => True) s) :
    ∃ n, (runBatchFrom plan s.committed limit looks 0 budget s).ran = .ok n :=
  runBatchFrom_ok steady.toPlayable steady.usable looks sane sane.committed_lt

theorem searchRoundsWithin_ok (steady : plan.Steady most) (looks : Nat) :
    ∀ {s : Progress σ α}, Sane plan.toProblem (fun _ => True) s →
      (searchRoundsWithin plan perRound looks (plan.budget.after s.playouts) s).result =
        .ok () := by
  induction looks using Nat.strong_induction_on with
  | h looks ih =>
      intro s sane
      rcases Nat.lt_or_ge s.playouts most with left | spent
      swap
      · rw [searchRoundsWithin_stop steady.toPaced spent]
      cases looks with
      | zero => rw [searchRoundsWithin_zero]
      | succ looks =>
          obtain ⟨n, ended⟩ := steady.batch_within_ok (some perRound) looks
            (plan.budget.after s.playouts) sane
          obtain ⟨u, round⟩ := steady.toPaced.round_within steady.accepted.wellFormed sane ended
          rw [round.searchRoundsWithin_eq (steady.toPaced.unspent left)]
          split
          · rfl
          · rw [← playouts_settle]
            exact ih (looks - n) (by omega) (settle_spec round.spec.sane).1

end Rounds

/-! ## The whole search -/

section Search

variable {plan : Plan σ ρ α} {most looks : Nat}

omit [Scalar α] in
theorem Plan.untimed_eq (timeless : plan.timeLimit = none) : plan.untimed = plan := by
  cases plan
  cases timeless
  rfl

theorem searchedWithin_enough (paced : plan.Paced most) (wf : plan.graph.toArena.WellFormed)
    (enough : 2 * most ≤ looks) (oracle : σ) :
    plan.searchedWithin looks oracle = plan.searched oracle := by
  have sane : Sane plan.toProblem (fun _ => True) (plan.opened oracle) :=
    (sane_initial oracle).report _
  unfold Plan.searchedWithin Plan.searched searchWithin search
  rw [Plan.untimed_eq paced.timeless]
  cases rounds : plan.tuning.perRound with
  | none =>
      have same := runBatchFrom_enough paced (plan.opened oracle).committed none
        (plan.opened oracle) (show most ≤ 0 + looks by omega)
      rw [Budget.after_zero, ← runBatch_alone paced.alone] at same
      simp only [same]
  | some perRound =>
      have same := searchRoundsWithin_enough paced wf (paced.perRound perRound rounds) looks
        sane enough (Nat.le_refl most)
      rw [paced.roundBound_eq]
      exact same

theorem searchedWithin_ok (steady : plan.Steady most) (looks : Nat) (oracle : σ) :
    (plan.searchedWithin looks oracle).result = .ok () := by
  have sane : Sane plan.toProblem (fun _ => True) (plan.opened oracle) :=
    (sane_initial oracle).report _
  unfold Plan.searchedWithin searchWithin
  rw [Plan.untimed_eq steady.timeless]
  cases plan.tuning.perRound with
  | none =>
      obtain ⟨n, ended⟩ := steady.batch_within_ok none looks plan.budget sane
      simp only [ended, Except.map]
  | some perRound => exact searchRoundsWithin_ok steady looks sane

theorem extractWithin_ok (regular : plan.Regular most) (looks : Nat) (oracle : σ) :
    ∃ outcome after, extractWithin plan looks oracle = (.ok outcome, after) := by
  have wf := regular.accepted.wellFormed
  have searched := searchedWithin_ok regular.steady looks oracle
  have sane : Sane plan.toProblem (fun _ => True) (plan.searchedWithin looks oracle).progress :=
    searchedWithin_keeps
      (fun sane batch => (batch.spec wf priced_trivial sane sane.committed_lt).sane)
      (fun sane picked => sane.commit picked) ((sane_initial oracle).report _) searched
  obtain ⟨count, whole⟩ := regular.attempts
  obtain ⟨term, found⟩ := finalTerm_ok plan.lastStream regular.accepted regular.checkable
    regular.reliable sane.faithful whole
  obtain ⟨reply, replied⟩ := regular.answers term
    (plan.searchedWithin looks oracle).progress.evaluator.oracle
  obtain ⟨outcome, after, concluded, _⟩ := conclude_of_reply found replied
  exact ⟨outcome, after, by rw [extractWithin_eq, searched, concluded]⟩

end Search

end EGraphSearch
