import EGraphSearch.Proofs.Extractor
import EGraphSearch.Proofs.Search.Clock
import EGraphSearch.Proofs.Search.Prefix

/-!
# A shorter search is the beginning of a longer one

Two searches with different limits on their playouts go in lockstep: the same playouts from states
that are alike, until the smaller limit cuts a batch of the shorter search.  That search then
settles its last round and is over, and settling changes nothing but the commitment.
-/

set_option autoImplicit false

namespace EGraphSearch

variable {σ ρ α : Type} [Scalar α]

/-! ## One batch -/

section Batch

variable {plan : Plan σ ρ α} {start fewer more : Nat} {limit : Option Number}
  {s t : Progress σ α}

omit [Scalar α] in
theorem Alike.standing (alike : Alike s t) : t.standing = s.standing := by
  obtain ⟨journal, rfl⟩ := alike
  rfl

/-- A batch with so many playouts left, next to the batch under a larger limit: either nothing was
cut and they end alike, or the playouts are spent and the longer batch began in the same way. -/
inductive Lockstep (left : Nat) (shorts longs : List (Progress σ α)) (short long : BatchEnd σ α) :
    Prop
  | whole (same : longs.map Progress.standing = shorts.map Progress.standing)
      (le : shorts.length ≤ left) (ran_eq : long.ran = short.ran)
      (alike : Alike short.progress long.progress)
  | cut (same : shorts.map Progress.standing = (longs.map Progress.standing).take left)
      (length : shorts.length = left) (returned : ∃ count, short.ran = .ok count)

omit [Scalar α] in
theorem Lockstep.play {left : Nat} {u v : Progress σ α} {shorts longs : List (Progress σ α)}
    {short long : BatchEnd σ α} (lockstep : Lockstep left shorts longs short long)
    (alike : Alike u v) : Lockstep (left + 1) (u :: shorts) (v :: longs) short long := by
  cases lockstep with
  | whole same le ran_eq alikeEnds =>
      exact .whole (by rw [List.map_cons, List.map_cons, same, alike.standing])
        (Nat.succ_le_succ le) ran_eq alikeEnds
  | cut same length returned =>
      exact .cut (by rw [List.map_cons, List.map_cons, List.take_succ_cons, same, alike.standing])
        (congrArg (· + 1) length) returned

theorem lockstep_stopped {bound bound' ran left : Nat} {budget budget' : Budget}
    (stopped : Stopped limit ran) (alike : Alike s t) :
    Lockstep left
      (batchStatesFrom (plan.limited fewer) start limit bound ran budget s)
      (batchStatesFrom (plan.limited more) start limit bound' ran budget' t)
      (runBatchFrom (plan.limited fewer) start limit bound ran budget s)
      (runBatchFrom (plan.limited more) start limit bound' ran budget' t) := by
  obtain ⟨runShort, statesShort⟩ :=
    batchFrom_stops (plan.limited fewer) start (.inl stopped) bound s
  obtain ⟨runLong, statesLong⟩ := batchFrom_stops (plan.limited more) start (.inl stopped) bound' t
  rw [runShort, statesShort, runLong, statesLong]
  exact .whole rfl (Nat.zero_le _) rfl alike

theorem lockstep_spent {bound ran claimed : Nat} {longs : List (Progress σ α)}
    {long : BatchEnd σ α} (paced : (plan.limited fewer).Paced fewer) (spent : fewer ≤ claimed) :
    Lockstep (fewer - claimed)
      (batchStatesFrom (plan.limited fewer) start limit bound ran
        ((plan.limited fewer).budget.after claimed) s) longs
      (runBatchFrom (plan.limited fewer) start limit bound ran
        ((plan.limited fewer).budget.after claimed) s) long := by
  have exhausted := paced.exhausted_eq claimed
  rw [decide_eq_true spent] at exhausted
  obtain ⟨ran, states⟩ := batchFrom_stops (plan.limited fewer) start (.inr exhausted) bound s
  rw [ran, states, Nat.sub_eq_zero_of_le spent]
  exact .cut rfl rfl ⟨_, rfl⟩

/-- By induction on the fuel of the shorter batch; both have enough to come to their ends. -/
theorem batchFrom_lockstep (short : (plan.limited fewer).Paced fewer)
    (long : (plan.limited more).Paced more) (le : fewer ≤ more) (bound : Nat) :
    ∀ {bound' ran claimed : Nat} {s t : Progress σ α}, Alike s t →
      Stopped limit (ran + bound) ∨ fewer ≤ claimed + bound →
      Stopped limit (ran + bound') ∨ more ≤ claimed + bound' →
      Lockstep (fewer - claimed)
        (batchStatesFrom (plan.limited fewer) start limit bound ran
          ((plan.limited fewer).budget.after claimed) s)
        (batchStatesFrom (plan.limited more) start limit bound' ran
          ((plan.limited more).budget.after claimed) t)
        (runBatchFrom (plan.limited fewer) start limit bound ran
          ((plan.limited fewer).budget.after claimed) s)
        (runBatchFrom (plan.limited more) start limit bound' ran
          ((plan.limited more).budget.after claimed) t) := by
  induction bound with
  | zero =>
      intro bound' ran claimed s t alike enough _
      rcases enough with stopped | spent
      · rw [Nat.add_zero] at stopped
        exact lockstep_stopped stopped alike
      · exact lockstep_spent short spent
  | succ bound ih =>
      intro bound' ran claimed s t alike enough enough'
      by_cases stopped : Stopped limit ran
      · exact lockstep_stopped stopped alike
      rcases Nat.lt_or_ge claimed fewer with left | spent
      · have leftLong : claimed < more := Nat.lt_of_lt_of_le left le
        obtain ⟨bound', rfl⟩ : ∃ smaller, bound' = smaller + 1 := by
          refine ⟨bound' - 1, ?_⟩
          rcases Nat.eq_zero_or_pos bound' with rfl | pos
          · exact absurd (enough'.resolve_left stopped) (by omega)
          · omega
        obtain ⟨sameLeaf, alikeNext⟩ := alike.playout plan.toProblem plan.tuning start
          (plan.stream (0 + claimed))
        rcases playedShort : playout plan.toProblem plan.tuning start (plan.stream (0 + claimed)) s
          with ⟨result, u⟩
        rcases playedLong : playout plan.toProblem plan.tuning start (plan.stream (0 + claimed)) t
          with ⟨result', v⟩
        rw [playedShort, playedLong] at sameLeaf alikeNext
        obtain rfl : result' = result := sameLeaf
        obtain ⟨runShort, statesShort⟩ := batchFrom_plays (plan.limited fewer) stopped
          (short.unspent left) playedShort bound
        obtain ⟨runLong, statesLong⟩ := batchFrom_plays (plan.limited more) stopped
          (long.unspent leftLong) playedLong bound'
        rw [runShort, statesShort, runLong, statesLong]
        cases result' with
        | error fault => exact .whole rfl (Nat.zero_le _) rfl alikeNext
        | ok leaf =>
            have recorded : Alike (u.record plan.tuning leaf) (v.record plan.tuning leaf) :=
              alikeNext.record leaf
            rw [← Nat.add_assoc, ← Nat.add_assoc, Nat.add_right_comm ran,
              Nat.add_right_comm claimed] at enough enough'
            rw [show fewer - claimed = fewer - (claimed + 1) + 1 by omega]
            exact (ih recorded enough enough').play recorded
      · exact lockstep_spent short spent

theorem batch_lockstep (short : (plan.limited fewer).Paced fewer)
    (long : (plan.limited more).Paced more) (le : fewer ≤ more) (claimed : Nat)
    (alike : Alike s t) :
    Lockstep (fewer - claimed)
      (batchStates (plan.limited fewer) start limit ((plan.limited fewer).budget.after claimed) s)
      (batchStates (plan.limited more) start limit ((plan.limited more).budget.after claimed) t)
      (runBatch (plan.limited fewer) start limit ((plan.limited fewer).budget.after claimed) s)
      (runBatch (plan.limited more) start limit ((plan.limited more).budget.after claimed) t) := by
  refine batchFrom_lockstep short long le _ alike ?_ ?_
  · rw [Nat.zero_add]
    exact stopped_of_bound short limit claimed
  · rw [Nat.zero_add]
    exact stopped_of_bound long limit claimed

end Batch

/-! ## The whole search -/

/-- What a search with so many playouts left is to the search under a larger limit: if it returns,
its states are the first ones of the other search; and a fault ends both in the same way. -/
structure Begins (left : Nat) (shorts longs : List (Progress σ α)) (short long : SearchEnd σ α) :
    Prop where
  states : short.result = .ok () →
    shorts.map Progress.standing = (longs.map Progress.standing).take left
  faults : ∀ fault, short.result = .error fault →
    long.result = .error fault ∧ long.progress.standing = short.progress.standing

section Begins

variable {left : Nat} {shorts longs rest rest' : List (Progress σ α)} {short long : SearchEnd σ α}

omit [Scalar α] in
theorem Begins.at_once (ended : short.result = .ok ())
    (none_left : left = 0 ∨ longs = []) : Begins left [] longs short long where
  states _ := by rcases none_left with rfl | rfl <;> simp
  faults fault failed := by simp [ended] at failed

omit [Scalar α] in
theorem Begins.after_whole (later : Begins (left - shorts.length) rest rest' short long)
    (same : longs.map Progress.standing = shorts.map Progress.standing)
    (le : shorts.length ≤ left) : Begins left (shorts ++ rest) (longs ++ rest') short long where
  states ended := by
    have length : longs.length = shorts.length := by simpa using congrArg List.length same
    have whole : (longs.map Progress.standing).length ≤ left := by
      rw [List.length_map, length]
      exact le
    rw [List.map_append, List.map_append, List.take_append, List.take_of_length_le whole, same,
      List.length_map, later.states ended]
  faults := later.faults

omit [Scalar α] in
theorem Begins.after_cut (ended : short.result = .ok ())
    (same : shorts.map Progress.standing = (longs.map Progress.standing).take left)
    (length : shorts.length = left) : Begins left shorts (longs ++ rest) short long where
  states _ := by
    have enough : left ≤ (longs.map Progress.standing).length := by
      have := congrArg List.length same
      rw [List.length_map, List.length_take] at this
      omega
    rw [List.map_append, List.take_append_of_le_length enough, same]
  faults fault failed := by simp [ended] at failed

end Begins

section Rounds

variable {plan : Plan σ ρ α} {fewer more most : Nat} {perRound : Number} {s t : Progress σ α}

theorem searchRounds_fails {budget left : Budget} {fault : Fault} {u : Progress σ α}
    (unspent : budget.exhausted = false)
    (batch : plan.runBatch s.committed (some perRound) budget s = ⟨.error fault, left, u⟩)
    (bound : Nat) : searchRounds plan perRound (bound + 1) budget s = ⟨.error fault, left, u⟩ := by
  simp [searchRounds, BatchEnd.closeRound, unspent, batch]

theorem roundStates_stop (paced : plan.Paced most) {claimed : Nat} (spent : most ≤ claimed)
    (bound : Nat) (s : Progress σ α) :
    roundStates plan perRound bound (plan.budget.after claimed) s = [] := by
  cases bound with
  | zero => rfl
  | succ bound => simp [roundStates, paced.exhausted_eq, spent]

theorem begins_spent (short : (plan.limited fewer).Paced fewer) (spent : fewer ≤ s.playouts)
    (bound : Nat) (longs : List (Progress σ α)) (long : SearchEnd σ α) :
    Begins (fewer - s.playouts)
      (roundStates (plan.limited fewer) perRound bound
        ((plan.limited fewer).budget.after s.playouts) s) longs
      (searchRounds (plan.limited fewer) perRound bound
        ((plan.limited fewer).budget.after s.playouts) s) long := by
  rw [roundStates_stop short spent, searchRounds_stop short spent]
  exact .at_once rfl (.inl (Nat.sub_eq_zero_of_le spent))

section Round

variable {budget budget' left left' : Budget} {playoutsLeft : Nat}
  {shorts longs : List (Progress σ α)} {ran ran' : Except Fault Nat} {u v : Progress σ α}

theorem Lockstep.begins_failed {fault : Fault}
    (lockstep : Lockstep playoutsLeft shorts longs ⟨.error fault, left, u⟩ ⟨ran', left', v⟩)
    (unspent : budget.exhausted = false) (unspent' : budget'.exhausted = false)
    (batch : (plan.limited fewer).runBatch s.committed (some perRound) budget s =
      ⟨.error fault, left, u⟩)
    (batch' : (plan.limited more).runBatch t.committed (some perRound) budget' t =
      ⟨ran', left', v⟩) (bound bound' : Nat) (states states' : List (Progress σ α)) :
    Begins playoutsLeft states states'
      (searchRounds (plan.limited fewer) perRound (bound + 1) budget s)
      (searchRounds (plan.limited more) perRound (bound' + 1) budget' t) := by
  rw [searchRounds_fails unspent batch]
  cases lockstep with
  | whole _ _ failed alike =>
      obtain rfl : ran' = .error fault := failed
      rw [searchRounds_fails unspent' batch']
      exact ⟨nofun, fun _ same => ⟨same, alike.standing⟩⟩
  | cut _ _ returned => simp at returned

end Round

/-- By induction on the fuel of the shorter search: its next round fails, is the whole round of the
longer search too, or is cut and the last one. -/
theorem searchRounds_begins (short : (plan.limited fewer).Paced fewer)
    (long : (plan.limited more).Paced more) (wf : plan.graph.toArena.WellFormed)
    (le : fewer ≤ more) (above : Number.below 0 perRound = true) (bound : Nat) :
    ∀ {bound' : Nat} {s t : Progress σ α}, Alike s t →
      Sane plan.toProblem (fun _ => True) s →
      fewer - s.playouts ≤ bound → more - s.playouts ≤ bound' →
      Begins (fewer - s.playouts)
        (roundStates (plan.limited fewer) perRound bound
          ((plan.limited fewer).budget.after s.playouts) s)
        (roundStates (plan.limited more) perRound bound'
          ((plan.limited more).budget.after s.playouts) t)
        (searchRounds (plan.limited fewer) perRound bound
          ((plan.limited fewer).budget.after s.playouts) s)
        (searchRounds (plan.limited more) perRound bound'
          ((plan.limited more).budget.after s.playouts) t) := by
  induction bound with
  | zero =>
      exact fun _ _ enough _ =>
        begins_spent short (Nat.sub_eq_zero_iff_le.mp (Nat.le_zero.mp enough)) _ _ _
  | succ bound ih =>
      intro bound' s t alike sane enough enough'
      rcases Nat.lt_or_ge s.playouts fewer with left | spent
      · obtain ⟨bound', rfl⟩ : ∃ smaller, bound' = smaller + 1 := ⟨bound' - 1, by omega⟩
        have leftLong : s.playouts < more := Nat.lt_of_lt_of_le left le
        have lockstep : Lockstep (fewer - s.playouts) (batchStates (plan.limited fewer) s.committed
            (some perRound) ((plan.limited fewer).budget.after s.playouts) s) _ _ _ :=
          batch_lockstep short long le s.playouts alike
        obtain ⟨journal, rfl⟩ := alike
        rw [← runBatch_alone short.alone, ← runBatch_alone long.alone] at lockstep
        rcases batchShort : (plan.limited fewer).runBatch s.committed (some perRound)
          ((plan.limited fewer).budget.after s.playouts) s with ⟨ran, budget, u⟩
        rcases batchLong : (plan.limited more).runBatch s.committed (some perRound)
          ((plan.limited more).budget.after s.playouts) { s with journal := journal }
          with ⟨ran', budget', v⟩
        rw [batchShort, batchLong] at lockstep
        cases ran with
        | error fault =>
            exact lockstep.begins_failed (short.unspent left) (long.unspent leftLong) batchShort
              batchLong _ _ _ _
        | ok count =>
            obtain ⟨saneU, grown, rfl, counted⟩ :=
              short.round_played wf above sane left batchShort
            obtain ⟨saneNext, samePlayouts, _, _⟩ := settle_spec saneU
            rw [searchRounds_settles (short.unspent left) batchShort saneU.committed_lt,
              roundStates_settles (short.unspent left) batchShort saneU.committed_lt]
            cases lockstep with
            | whole same notMore returned alikeEnds =>
                obtain rfl : ran' = .ok count := returned
                have saneT : Sane plan.toProblem (fun _ => True) { s with journal := journal } :=
                  ⟨sane.faithful, sane.committed_lt, sane.best⟩
                obtain ⟨saneV, _, rfl, _⟩ := long.round_played wf above saneT leftLong batchLong
                obtain ⟨sameEnd, alikeNext⟩ := alikeEnds.settle
                have sameCount : v.playouts = u.playouts :=
                  congrArg Standing.playouts alikeEnds.standing
                rw [searchRounds_settles (long.unspent leftLong) batchLong saneV.committed_lt,
                  roundStates_settles (long.unspent leftLong) batchLong saneV.committed_lt,
                  sameEnd, sameCount]
                refine .after_whole ?_ same notMore
                cases u.settle.2 with
                | true => exact .at_once rfl (.inr rfl)
                | false =>
                    have leftNext : fewer - s.playouts - (batchStates (plan.limited fewer)
                        s.committed (some perRound) ((plan.limited fewer).budget.after s.playouts)
                        s).length = fewer - u.settle.1.playouts := by omega
                    rw [leftNext, ← samePlayouts]
                    exact ih alikeNext saneNext (by omega) (by omega)
            | cut same length _ =>
                have spent : fewer ≤ u.playouts := by omega
                obtain ⟨rest, longStates⟩ := roundStates_append (plan.limited more) perRound
                  (long.unspent leftLong) bound' { s with journal := journal }
                rw [longStates, roundStates_stop short spent, searchRounds_stop short spent,
                  ite_self, List.append_nil]
                refine .after_cut ?_ same length
                split <;> rfl
      · exact begins_spent short spent _ _ _

theorem searchRounds_idle (plan : Plan σ ρ α)
    (alone : Number.below 1 plan.tuning.workers = false)
    (idle : Number.below 0 perRound = false) (bound : Nat) :
    ∀ (budget : Budget) {s : Progress σ α}, Sane plan.toProblem (fun _ => True) s →
      roundStates plan perRound bound budget s = [] ∧
        (searchRounds plan perRound bound budget s).result = .ok () := by
  have stopped : Stopped (some perRound) 0 := by
    change Number.below (.int 0) perRound = false at idle
    simp [Stopped, idle]
  induction bound with
  | zero => exact fun _ _ _ => ⟨rfl, rfl⟩
  | succ bound ih =>
      intro budget s sane
      cases spent : budget.exhausted with
      | true => simp [roundStates, searchRounds, spent]
      | false =>
          obtain ⟨ended, states⟩ : runBatch plan s.committed (some perRound) budget s = _ ∧
              batchStates plan s.committed (some perRound) budget s = [] :=
            batchFrom_stops plan s.committed (.inl stopped) _ s
          rw [← runBatch_alone alone] at ended
          rw [roundStates_settles spent ended sane.committed_lt,
            searchRounds_settles spent ended sane.committed_lt, states]
          cases s.settle.2 with
          | true => exact ⟨rfl, rfl⟩
          | false => exact ih budget (settle_spec sane).1

end Rounds

section Search

variable {plan : Plan σ ρ α} {fewer more : Nat}

omit [Scalar α] in
theorem Lockstep.begins {left : Nat} {shorts longs : List (Progress σ α)}
    {short long : BatchEnd σ α} (lockstep : Lockstep left shorts longs short long) :
    Begins left shorts longs ⟨short.ran.map fun _ => (), short.budget, short.progress⟩
      ⟨long.ran.map fun _ => (), long.budget, long.progress⟩ := by
  cases lockstep with
  | whole same le ran_eq alike =>
      refine ⟨fun _ => ?_, fun fault failed => ⟨?_, alike.standing⟩⟩
      · rw [same, List.take_of_length_le (by rwa [List.length_map])]
      · rw [ran_eq]
        exact failed
  | cut same _ returned =>
      obtain ⟨count, returned⟩ := returned
      refine ⟨fun _ => same, fun fault failed => ?_⟩
      simp [returned, Except.map] at failed

theorem searched_begins (wf : plan.graph.toArena.WellFormed)
    (alone : Number.below 1 plan.tuning.workers = false) (timeless : plan.timeLimit = none)
    (le : fewer ≤ more) (oracle : σ) :
    Begins fewer ((plan.limited fewer).states oracle) ((plan.limited more).states oracle)
      ((plan.limited fewer).searched oracle) ((plan.limited more).searched oracle) := by
  have alike : Alike ((plan.limited fewer).opened oracle) ((plan.limited more).opened oracle) :=
    ⟨_, rfl⟩
  have sane : ∀ most, Sane plan.toProblem (fun _ => True) ((plan.limited most).opened oracle) :=
    fun _ => (sane_initial oracle).report _
  unfold Plan.searched Plan.states Plan.statesFrom search
  have limited : ∀ most, (plan.limited most).tuning.perRound = plan.tuning.perRound := fun _ => rfl
  simp only [limited]
  by_cases pacing : ∀ n, plan.tuning.perRound = some n → Number.below 0 n = true
  · have paced : ∀ most, (plan.limited most).Paced most :=
      fun most => ⟨alone, ⟨_, rfl, rfl⟩, timeless, pacing⟩
    cases rounds : plan.tuning.perRound with
    | none =>
        simp only [runBatch_alone (paced _).alone]
        exact (batch_lockstep (paced fewer) (paced more) le 0 alike).begins
    | some perRound =>
        simp only [(paced _).roundBound_eq]
        exact searchRounds_begins (paced fewer) (paced more) wf le (pacing _ rounds) fewer alike
          (sane fewer) (Nat.le_refl _) (Nat.le_refl _)
  · obtain ⟨perRound, rounds, idle⟩ := not_forall₂.mp pacing
    have idle := Bool.eq_false_iff.mpr idle
    simp only [rounds]
    have idles := fun most => searchRounds_idle (plan.limited most) alone idle
      (roundBound (plan.limited most).graph (plan.limited most).budget) (plan.limited most).budget
      (sane most)
    rw [(idles fewer).1, (idles more).1]
    exact .at_once (idles fewer).2 (.inr rfl)

theorem getElem?_min {β : Type} (xs : List β) : ∀ (x : β) (n : Nat),
    (x :: xs)[min n xs.length]? = some ((xs.take n).getLastD x) := by
  induction xs with
  | nil => exact fun x n => by simp
  | cons y rest ih =>
      intro x n
      cases n with
      | zero => simp
      | succ n => rw [List.take_succ_cons, List.getLastD_cons, ← ih y n, List.length_cons,
          Nat.add_min_add_right, List.getElem?_cons_succ]

/-- A search that the clock stops stands where it would have stood without the clock. -/
theorem searchedWithin_stands (wf : plan.graph.toArena.WellFormed)
    (alone : Number.below 1 plan.tuning.workers = false) {looks : Nat} {oracle : σ}
    (ended : ((plan.limited more).searchedWithin looks oracle).result = .ok ()) :
    ∃ k, ((plan.limited more).searchedWithin looks oracle).progress.standing =
      ((((plan.untimed.limited more).statesFrom ((plan.limited more).opened oracle)).map
        Progress.standing).take k).getLastD ((plan.limited more).opened oracle).standing := by
  have sane : Sane plan.toProblem (fun _ => True) ((plan.limited more).opened oracle) :=
    (sane_initial oracle).report _
  have tuned : (plan.limited more).untimed.tuning = plan.tuning := rfl
  have tuned' : (plan.untimed.limited more).tuning = plan.tuning := rfl
  unfold Plan.searchedWithin searchWithin at ended ⊢
  unfold Plan.statesFrom
  rw [tuned] at ended ⊢
  rw [tuned']
  by_cases pacing : ∀ n, plan.tuning.perRound = some n → Number.below 0 n = true
  · have paced : (plan.untimed.limited more).Paced more := ⟨alone, ⟨_, rfl, rfl⟩, rfl, pacing⟩
    cases rounds : plan.tuning.perRound with
    | none =>
        simp only [rounds] at ended ⊢
        cases ran : (runBatchFrom (plan.limited more).untimed
            ((plan.limited more).opened oracle).committed none looks 0
            (plan.limited more).untimed.budget ((plan.limited more).opened oracle)).ran with
        | error fault => simp [ran, Except.map] at ended
        | ok n =>
            obtain ⟨k, states⟩ := batch_within_last paced 0 ran
            refine ⟨k, (congrArg Progress.standing states).trans ?_⟩
            rw [← List.map_take, List.getLastD_map]
            rfl
    | some perRound =>
        simp only [rounds] at ended ⊢
        rw [paced.roundBound_eq]
        exact searchRoundsWithin_stands paced wf (pacing _ rounds) looks sane (Nat.le_refl _) ended
  · obtain ⟨perRound, rounds, idle⟩ := not_forall₂.mp pacing
    have stopped : Stopped (some perRound) 0 := by
      have idle : Number.below (.int 0) perRound = false := Bool.eq_false_iff.mpr idle
      simp [Stopped, idle]
    simp only [rounds] at ended ⊢
    refine ⟨0, searchRoundsWithin_keeps (Q := fun s => s.standing =
      ((plan.limited more).opened oracle).standing) ?_ (fun stands _ => stands) looks rfl ended⟩
    intro looks n budget s stands _
    rw [(batchFrom_stops _ _ (.inl stopped) looks s).1]
    exact stands

/-- With the larger limit a search stands, after as many playouts as the smaller limit allows or
after all that it has, where the search with the smaller limit ends.  A search with the smaller
limit that fails does so just like the other one.  And a search that the clock stops stands where it
would have stood without the clock. -/
theorem shorter_run_is_prefix (accepted : plan.graph.Accepted)
    (alone : Number.below 1 plan.tuning.workers = false) (le : fewer ≤ more) (oracle : σ) :
    (plan.timeLimit = none →
      (((plan.limited fewer).searched oracle).result = .ok () →
        ∃ s, ((plan.limited more).history oracle)[
            min fewer ((plan.limited more).states oracle).length]? = some s ∧
          s.playouts = min fewer ((plan.limited more).states oracle).length ∧
          s.standing = ((plan.limited fewer).searched oracle).progress.standing) ∧
      ∀ fault, ((plan.limited fewer).searched oracle).result = .error fault →
        ((plan.limited more).searched oracle).result = .error fault ∧
          ((plan.limited more).searched oracle).progress.standing =
            ((plan.limited fewer).searched oracle).progress.standing) ∧
    ∀ looks, ((plan.limited more).searchedWithin looks oracle).result = .ok () →
      ∃ k, ∃ s : Progress σ α,
        ((plan.untimed.limited more).historyFrom ((plan.limited more).opened oracle))[k]? = some s ∧
        s.playouts = k ∧
        s.standing = ((plan.limited more).searchedWithin looks oracle).progress.standing := by
  have aloneBoth : ∀ most, Number.below 1 (plan.limited most).tuning.workers = false :=
    fun _ => alone
  have numbered : ∀ (limited : Plan σ ρ α) (opened : Progress σ α) (k : Nat),
      Number.below 1 limited.tuning.workers = false → opened.playouts = 0 →
      ∀ s, (limited.historyFrom opened)[min k (limited.statesFrom opened).length]? = some s →
        s.playouts = min k (limited.statesFrom opened).length := by
    intro limited opened k alone fresh s place
    have numbers := congrArg (·[min k (limited.statesFrom opened).length]?)
      (playouts_historyFrom alone fresh)
    have inside : min k (limited.statesFrom opened).length < (limited.historyFrom opened).length :=
      Nat.lt_succ_of_le (Nat.min_le_right _ _)
    simp only [List.getElem?_map, place, List.getElem?_range inside] at numbers
    exact Option.some.inj numbers
  refine ⟨fun timeless => ?_, fun looks ended => ?_⟩
  · have begins := searched_begins accepted.wellFormed alone timeless le oracle
    refine ⟨fun ended => ?_, begins.faults⟩
    have place : ((plan.limited more).history oracle)[_]? = _ :=
      getElem?_min ((plan.limited more).states oracle) ((plan.limited more).opened oracle) fewer
    refine ⟨_, place, numbered _ _ fewer (aloneBoth more) rfl _ place, ?_⟩
    rw [states_last (aloneBoth fewer) ended, begins.states ended, ← List.map_take]
    exact List.getLastD_map.symm
  · obtain ⟨k, stands⟩ := searchedWithin_stands accepted.wellFormed alone ended
    have place : ((plan.untimed.limited more).historyFrom ((plan.limited more).opened oracle))[_]? =
      _ := getElem?_min ((plan.untimed.limited more).statesFrom ((plan.limited more).opened oracle))
        ((plan.limited more).opened oracle) k
    refine ⟨_, _, place, numbered (plan.untimed.limited more) _ k alone rfl _ place, ?_⟩
    rw [stands, ← List.map_take]
    exact List.getLastD_map.symm

end Search

/-- Three playouts as the beginning of five, and five that the clock stops after two. -/
theorem shorter_run_is_prefix_small :
    EGraph.loopGraph.Accepted ∧ Number.below 1 (smallPlan 3 1).tuning.workers = false ∧
    (smallPlan 3 1).timeLimit = none ∧ 3 ≤ 5 ∧
    (∃ s, ((smallPlan 5 1).history ())[min 3 ((smallPlan 5 1).states ()).length]? = some s ∧
      s.playouts = min 3 ((smallPlan 5 1).states ()).length ∧
      s.standing = ((smallPlan 3 1).searched ()).progress.standing) ∧
    ∃ k, ∃ s : Progress Unit Float, ((smallPlan 5 1).history ())[k]? = some s ∧ s.playouts = k ∧
      s.standing = ((smallPlan 5 1).searchedWithin 2 ()).progress.standing := by
  have accepted : (smallPlan 3 1).graph.Accepted := EGraph.loopGraph_accepted
  have regular := smallPlan_regular
  obtain ⟨_, _, _, searched, _⟩ := extract_ok regular priced_trivial ()
  obtain ⟨untimed, timed⟩ := shorter_run_is_prefix accepted regular.alone (show 3 ≤ 5 by decide) ()
  have steady : (smallPlan 5 1).Steady 5 :=
    { regular.steady with limit := ⟨_, rfl, rfl⟩ }
  exact ⟨accepted, regular.alone, regular.timeless, by decide,
    (untimed regular.timeless).1 searched.result, timed 2 (searchedWithin_ok steady 2 ())⟩

end EGraphSearch
