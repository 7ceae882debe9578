import EGraphSearch.Proofs.Search.FinalTerm
import EGraphSearch.Proofs.Search.Matched
import Mathlib.Data.List.Forall2

/-!
# Final terms of matched e-graphs

Greedy paths in trees that are counterparts run through twin trackers.  Completion tries
corresponding moves in the same order, shallowest first, so that it finds twins, gives up at the
same places, and the final terms correspond.
-/

set_option autoImplicit false

namespace EGraphSearch

open Tracker (Twin)

variable {g g' : EGraph} {M : Matching g g'}

/-! ## Backtracking -/

/-- Searches among completions that have ended alike. -/
inductive Matching.Searches (M : Matching g g') : Search → Search → Prop
  | found {t t' : Tracker} (twin : Twin M t t') : Searches M (.found t) (.found t')
  | exhausted (explored : Nat) : Searches M (.exhausted explored) (.exhausted explored)
  | gaveUp : Searches M .gaveUp .gaveUp

namespace Completion

variable {t t' : Tracker} {limit : Option Nat}

theorem orderedMoves_eq (leveled : g.Leveled) (leveled' : g'.Leveled) (twin : Twin M t t') :
    orderedMoves g' t' = (orderedMoves g t).map M.node := by
  obtain ⟨c, offers⟩ := twin.inv.offers_legalMoves leveled.wellFormed
  rw [orderedMoves, orderedMoves, twin.legalMoves_eq leveled leveled']
  refine (List.map_mergeSort fun m listed n listed' => ?_).symm
  rw [M.nodeLevel_eq leveled leveled' (offers m listed),
    M.nodeLevel_eq leveled leveled' (offers n listed')]

theorem exploreMoves_matched (leveled : g.Leveled) (leveled' : g'.Leveled) (twin : Twin M t t')
    (smaller : ∀ {u u' : Tracker} (explored : Nat), u.openCount < t.openCount → Twin M u u' →
      M.Searches (explore g limit u explored) (explore g' limit u' explored)) (moves : List Nat)
    (legal : ∀ n ∈ moves, n ∈ t.legalMoves g) :
    ∀ explored, M.Searches (exploreMoves g limit t moves explored)
      (exploreMoves g' limit t' (moves.map M.node) explored) := by
  induction moves with
  | nil =>
      intro explored
      rw [List.map_nil, exploreMoves, exploreMoves]
      exact .exhausted explored
  | cons n rest ih =>
      intro explored
      obtain ⟨moved, applied, _⟩ := Tracker.apply_of_mem_legalMoves leveled.wellFormed twin.inv
        (legal n List.mem_cons_self)
      obtain ⟨moved', applied', twinMoved⟩ := twin.apply leveled leveled' applied
      have ended := smaller explored (Tracker.apply_openCount applied) twinMoved
      have later := ih fun m listed => legal m (List.mem_cons_of_mem _ listed)
      rw [List.map_cons, exploreMoves_cons applied, exploreMoves_cons applied']
      generalize explore g limit moved explored = first at ended
      generalize explore g' limit moved' explored = first' at ended
      cases ended with
      | found twinEnd => exact .found twinEnd
      | exhausted explored => exact later explored
      | gaveUp => exact .gaveUp

theorem explore_matched (leveled : g.Leveled) (leveled' : g'.Leveled) (limit : Option Nat)
    (k : Nat) : ∀ {t t' : Tracker} (explored : Nat), t.openCount < k → Twin M t t' →
      M.Searches (explore g limit t explored) (explore g' limit t' explored) := by
  induction k with
  | zero => exact fun _ small => absurd small (Nat.not_lt_zero _)
  | succ k ih =>
      intro t t' explored small twin
      rw [explore, explore, twin.isTerminal_eq, orderedMoves_eq leveled leveled' twin]
      split
      · exact .found twin
      · split
        · exact .gaveUp
        · exact exploreMoves_matched leveled leveled' twin
            (fun explored fewer twinNext => ih explored (by omega) twinNext) _
            (fun n => mem_orderedMoves.mp) _

end Completion

/-! ## Completing a tracker -/

section Completing

variable {σ σ' ρ α : Type} {p : Problem σ ρ α} {p' : Problem σ' ρ α}
  {M : Matching p.graph p'.graph} {R : σ → σ' → Prop} {t t' : Tracker}

structure Matching.Completions (M : Matching g g') (completed completed' : Completed ρ α) :
    Prop where
  result : Agree (Option.Rel (Twin M)) completed.result completed'.result
  source_eq : completed'.source = completed.source

theorem Problem.Matched.attempt (matched : Problem.Matched M R) (limit : Option Nat)
    (twin : Twin M t t') (attempts : Nat) : ∀ source : ρ,
      M.Completions (attempt p limit t attempts source) (attempt p' limit t' attempts source) := by
  have leveled := matched.accepted.leveled
  have leveled' := matched.accepted'.leveled
  induction attempts with
  | zero =>
      intro source
      have ended := Completion.explore_matched leveled leveled' limit _ 0 (Nat.lt_succ_self _) twin
      unfold EGraphSearch.attempt searchCompletion
      generalize Completion.explore p.graph limit t 0 = first at ended
      generalize Completion.explore p'.graph limit t' 0 = first' at ended
      cases ended with
      | found twinEnd => exact ⟨.value (.some twinEnd), rfl⟩
      | exhausted explored => exact ⟨.value .none, rfl⟩
      | gaveUp => exact ⟨.value .none, rfl⟩
  | succ attempts ih =>
      intro source
      have rolled := twin.rollout leveled leveled' matched.choosers _ source (Nat.lt_succ_self _)
      unfold EGraphSearch.attempt
      generalize rollout p.graph p.choose t source = ended at rolled
      generalize rollout p'.graph p'.choose t' source = ended' at rolled
      dsimp only
      rw [rolled.result_eq, rolled.source_eq]
      rcases ended.result with fault | _ | _
      · exact ⟨.fault fault, rfl⟩
      · exact ih ended.source
      · exact ⟨.value (.some rolled.twin), rfl⟩

theorem Problem.Matched.complete (matched : Problem.Matched M R) (attempts : Number)
    (limit : Option Nat) (twin : Twin M t t') (source : ρ) :
    M.Completions (complete p attempts limit t source) (complete p' attempts limit t' source) := by
  unfold EGraphSearch.complete
  rw [twin.isTerminal_eq]
  split
  · exact ⟨.value (.some twin), rfl⟩
  · cases attempts.int? with
    | none => exact ⟨.fault _, rfl⟩
    | some count => exact matched.attempt limit twin count.toNat source

/-- Twin trackers, completed from the same depth. -/
def Matching.Deepest (M : Matching g g') (found found' : Tracker × Nat) : Prop :=
  Twin M found.1 found'.1 ∧ found'.2 = found.2

theorem Problem.Matched.completeDeepest (matched : Problem.Matched M R) (attempts : Number)
    {trackers trackers' : List Tracker} (twins : List.Forall₂ (Twin M) trackers trackers') :
    ∀ source : ρ, Agree M.Deepest (completeDeepest p attempts trackers source).1
      (completeDeepest p' attempts trackers' source).1 := by
  induction twins with
  | nil => exact fun _ => .fault _
  | @cons t t' outer outer' twin rest ih =>
      intro source
      have sameLength := rest.length_eq
      have sameLimit : outer'.isEmpty = outer.isEmpty := by
        rw [Bool.eq_iff_iff, List.isEmpty_iff_length_eq_zero, List.isEmpty_iff_length_eq_zero,
          sameLength]
      simp only [EGraphSearch.completeDeepest, sameLimit]
      have completions := matched.complete attempts
        (if outer.isEmpty then none else some completionLimit) twin source
      generalize EGraphSearch.complete p attempts
        (if outer.isEmpty then none else some completionLimit) t source = first at completions
      generalize EGraphSearch.complete p' attempts
        (if outer.isEmpty then none else some completionLimit) t' source = second at completions
      obtain ⟨result, next, journal⟩ := first
      obtain ⟨result', next', journal'⟩ := second
      obtain ⟨agree, sameNext⟩ := completions
      obtain rfl : next' = next := sameNext
      cases agree with
      | fault fault => exact .fault fault
      | value found =>
          cases found with
          | none => exact ih next'
          | some twinEnd => exact .value ⟨twinEnd, sameLength.symm⟩

end Completing

/-! ## The greedy path -/

section Greedy

variable {α : Type} [Scalar α] {tree tree' : Tree α}

theorem Matching.Trees.greedyPath (trees : M.Trees tree tree') (leveled : g.Leveled)
    (leveled' : g'.Leveled) (faithful : Faithful g tree) (k : Nat) :
    ∀ {t t' : Tracker} {i : Nat}, t.openCount < k → i < tree.size → replay g tree i = .ok t →
      Twin M t t' → ∃ path path', greedyPath g tree t i = .ok path ∧
        greedyPath g' tree' t' i = .ok path' ∧ List.Forall₂ (Twin M) path path' := by
  induction k with
  | zero => exact fun small => absurd small (Nat.not_lt_zero _)
  | succ k ih =>
      intro t t' i small inside replayed twin
      have picks := trees.mostVisited_eq i false
      cases terminal : t.isTerminal with
      | true =>
          exact ⟨[t], [t'], greedyPath_terminal terminal i,
            greedyPath_terminal (twin.isTerminal_eq.trans terminal) i, .cons twin .nil⟩
      | false =>
      rcases picked : tree.mostVisited i false with fault | _ | ⟨move, child⟩
      · rw [Tree.mostVisited_eq inside] at picked
        cases picked
      · rw [picked] at picks
        exact ⟨[t], [t'], greedyPath_leaf picked, greedyPath_leaf picks, .cons twin .nil⟩
      · rw [picked] at picks
        obtain ⟨insideChild, u, applied, replayedChild⟩ :=
          faithful.apply_child inside replayed (Tree.member_of_mostVisited inside picked)
        obtain ⟨u', applied', twinNext⟩ := twin.apply leveled leveled' applied
        have fewer := Tracker.apply_openCount applied
        obtain ⟨path, path', walked, walked', twins⟩ :=
          ih (by omega) insideChild replayedChild twinNext
        refine ⟨t :: path, t' :: path', ?_, ?_, .cons twin twins⟩
        · rw [greedyPath_step terminal picked applied, walked]
          rfl
        · have picks : tree'.mostVisited i false = .ok (some (M.node move, child)) := picks
          rw [greedyPath_step (twin.isTerminal_eq.trans terminal) picks applied', walked']
          rfl

end Greedy

/-! ## The final term -/

section FinalTerm

variable {σ σ' ρ α : Type} [Scalar α] {p : Problem σ ρ α} {p' : Problem σ' ρ α}
  {M : Matching p.graph p'.graph} {R : σ → σ' → Prop} {tree tree' : Tree α}

/-- The final terms are those of twin trackers. -/
theorem Problem.Matched.finalTerm (matched : Problem.Matched M R) (trees : M.Trees tree tree')
    (faithful : Faithful p.graph tree) (attempts : Number) (source : ρ) :
    Agree (fun term term' => ∃ t t', Twin M t t' ∧ t.isTerminal = true ∧
        term = ⟨t.assignment p.graph⟩ ∧ term' = ⟨t'.assignment p'.graph⟩)
      (finalTerm p attempts tree source).1 (finalTerm p' attempts tree' source).1 := by
  have wf := matched.accepted.wellFormed
  have wf' := matched.accepted'.wellFormed
  have replayed := replay_root (g := p.graph) faithful.toLinked
  obtain ⟨path, path', walked, walked', twins⟩ := trees.greedyPath matched.accepted.leveled
    matched.accepted'.leveled faithful _ (Nat.lt_succ_self _) faithful.nonempty replayed
    (Tracker.twin_start wf wf')
  obtain ⟨rest, path_eq, reached⟩ := greedyPath_spec wf faithful _ (Nat.lt_succ_self _)
    faithful.nonempty replayed
  obtain rfl := Except.ok.inj (walked.symm.trans path_eq)
  have agree := matched.completeDeepest attempts (List.forall₂_reverse_iff.mpr twins) source
  have invs : ∀ u ∈ (Tracker.start p.graph :: rest).reverse, Tracker.Inv p.graph u :=
    fun u listed => (reached u (List.mem_reverse.mp listed)).1
  simp only [EGraphSearch.finalTerm, walked, walked']
  rcases completed : EGraphSearch.completeDeepest p attempts
    (Tracker.start p.graph :: rest).reverse source with ⟨result, journal⟩
  rcases completed' : EGraphSearch.completeDeepest p' attempts path'.reverse source with
    ⟨result', journal'⟩
  rw [completed, completed'] at agree
  cases agree with
  | fault fault => exact .fault fault
  | @value found found' deepest =>
      obtain ⟨terminal, depth⟩ := found
      obtain ⟨terminal', depth'⟩ := found'
      obtain ⟨twin, _⟩ := deepest
      obtain ⟨_, _, _, _, _, _, isTerminal, _⟩ := completeDeepest_spec wf _ invs (by rw [completed])
      have isTerminal' := twin.isTerminal_eq.trans isTerminal
      have valid := (twin.inv.validate_toTerm wf matched.checkable
        (Tracker.pending_of_terminal isTerminal)).2
      have valid' := (twin.inv'.validate_toTerm wf' matched.checkable'
        (Tracker.pending_of_terminal isTerminal')).2
      simp only [Tracker.toTerm_of_terminal isTerminal, Tracker.toTerm_of_terminal isTerminal',
        valid, valid', Except.map]
      exact .value ⟨terminal, terminal', twin, isTerminal, rfl, rfl⟩

end FinalTerm

end EGraphSearch
