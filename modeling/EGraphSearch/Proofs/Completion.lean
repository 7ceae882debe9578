import EGraphSearch.Completion
import EGraphSearch.Proofs.Term.Heights
import EGraphSearch.Proofs.Tracker.Runs

/-!
# What backtracking finds

A search among completions is right about what it reports: a found tracker completes the given one,
and an exhausted search means that nothing does.  It gives up only where it has a limit.  Every
accepted e-graph has a term, so that from the start there is something to find.
-/

set_option autoImplicit false

namespace EGraphSearch

variable {g : EGraph} {limit : Option Nat} {t : Tracker}

/-- Whether legal moves can complete a tracker. -/
def Tracker.Completable (g : EGraph) (t : Tracker) : Prop :=
  ∃ moves u, Leads g t moves u ∧ u.isTerminal = true

/-- What the end of a search says about a tracker. -/
def Search.Right (g : EGraph) (limit : Option Nat) (t : Tracker) : Search → Prop
  | found u => ∃ moves, Tracker.Leads g t moves u ∧ u.isTerminal = true
  | exhausted _ => ¬ t.Completable g
  | gaveUp => limit.isSome

namespace Completion

theorem mem_orderedMoves {n : Nat} : n ∈ orderedMoves g t ↔ n ∈ t.legalMoves g :=
  List.mem_mergeSort

/-- What the end of a search behind some of the moves says. -/
def RightBehind (g : EGraph) (limit : Option Nat) (t : Tracker) (moves : List Nat) :
    Search → Prop
  | .found u => ∃ moves, Tracker.Leads g t moves u ∧ u.isTerminal = true
  | .exhausted _ => ∀ n ∈ moves, ∀ u, t.apply g n = .ok u → ¬ u.Completable g
  | .gaveUp => limit.isSome

theorem exploreMoves_cons {n : Nat} {rest : List Nat} {explored : Nat} {moved : Tracker}
    (applied : t.apply g n = .ok moved) :
    exploreMoves g limit t (n :: rest) explored =
      match explore g limit moved explored with
      | .found terminal => .found terminal
      | .gaveUp => .gaveUp
      | .exhausted explored => exploreMoves g limit t rest explored := by
  rw [exploreMoves]
  split
  · rename_i fault failed
    simp [applied] at failed
  · rename_i moved' again
    cases Except.ok.inj (applied.symm.trans again)
    rfl

theorem exploreMoves_skip {n explored : Nat} {rest : List Nat} {fault : Fault}
    (failed : t.apply g n = .error fault) :
    exploreMoves g limit t (n :: rest) explored = exploreMoves g limit t rest explored := by
  rw [exploreMoves]
  split
  · rfl
  · rename_i moved applied
    simp [applied] at failed

theorem exploreMoves_spec (wf : g.toArena.WellFormed) (inv : Tracker.Inv g t)
    (smaller : ∀ u, u.openCount < t.openCount → Tracker.Inv g u → ∀ explored,
      (explore g limit u explored).Right g limit u) (moves : List Nat)
    (legal : ∀ n ∈ moves, n ∈ t.legalMoves g) :
    ∀ explored, RightBehind g limit t moves (exploreMoves g limit t moves explored) := by
  induction moves with
  | nil =>
      intro explored
      rw [exploreMoves]
      simp [RightBehind]
  | cons n rest ih =>
      intro explored
      obtain ⟨moved, applied, invMoved⟩ :=
        Tracker.apply_of_mem_legalMoves wf inv (legal n (by simp))
      have right := smaller moved (Tracker.apply_openCount applied) invMoved explored
      have later := ih fun m hm => legal m (by simp [hm])
      rw [exploreMoves_cons applied]
      cases ended : explore g limit moved explored with
      | found u =>
          rw [ended] at right
          obtain ⟨moves, run, terminal⟩ := right
          exact ⟨n :: moves, .move (legal n (by simp)) applied run, terminal⟩
      | gaveUp =>
          rw [ended] at right
          exact right
      | exhausted explored =>
          rw [ended] at right
          have behind := later explored
          simp only
          cases endedLater : exploreMoves g limit t rest explored with
          | found u => rwa [endedLater] at behind
          | gaveUp => rwa [endedLater] at behind
          | exhausted explored =>
              rw [endedLater] at behind
              intro m hm u appliedHere
              rcases List.mem_cons.mp hm with rfl | hm
              · cases Except.ok.inj (applied.symm.trans appliedHere)
                exact right
              · exact behind m hm u appliedHere

theorem explore_spec (wf : g.toArena.WellFormed) (k : Nat) :
    ∀ {t : Tracker}, t.openCount < k → Tracker.Inv g t → ∀ explored,
      (explore g limit t explored).Right g limit t := by
  induction k with
  | zero => exact fun small => absurd small (Nat.not_lt_zero _)
  | succ k ih =>
      intro t small inv explored
      rw [explore]
      split
      · rename_i terminal
        exact ⟨[], .stay t, terminal⟩
      · rename_i notTerminal
        split
        · rename_i reached
          cases limit with
          | none => simp at reached
          | some m => rfl
        · have behind := exploreMoves_spec wf inv
            (fun u fewer invNext => ih (by omega) invNext) (orderedMoves g t)
            (fun n => mem_orderedMoves.mp) (explored + 1)
          cases ended : exploreMoves g limit t (orderedMoves g t) (explored + 1) with
          | found u => rwa [ended] at behind
          | gaveUp => rwa [ended] at behind
          | exhausted explored =>
              rw [ended] at behind
              rintro ⟨moves, u, run, terminal⟩
              cases run with
              | stay => exact notTerminal terminal
              | move legal applied later =>
                  exact behind _ (mem_orderedMoves.mpr legal) _ applied ⟨_, _, later, terminal⟩

end Completion

theorem complete?_eq_some {u : Tracker} :
    complete? g limit t = some u ↔ searchCompletion g limit t = .found u := by
  unfold complete?
  split <;> simp_all

theorem searchCompletion_right (limit : Option Nat) (wf : g.toArena.WellFormed)
    (inv : Tracker.Inv g t) :
    (searchCompletion g limit t).Right g limit t :=
  Completion.explore_spec wf _ (Nat.lt_succ_self _) inv 0

theorem searchCompletion_deadEnd (deadEnd : t.isDeadEnd g = true) {most : Nat} (pos : 0 < most) :
    searchCompletion g (some most) t = .exhausted 1 := by
  simp only [Tracker.isDeadEnd, Bool.and_eq_true, Bool.not_eq_true', List.isEmpty_iff] at deadEnd
  have stuck : Completion.orderedMoves g t = [] := by
    simp [Completion.orderedMoves, deadEnd.2]
  rw [searchCompletion, Completion.explore, stuck, Completion.exploreMoves,
    if_neg (by simp [deadEnd.1]), if_neg (by simp; omega)]

/-! ## From the start -/

/-- Every accepted e-graph has a term. -/
theorem EGraph.Accepted.exists_isTerm (accepted : g.Accepted) : ∃ f, Picks.IsTerm g f := by
  obtain ⟨h, finite⟩ := accepted.root_finite
  obtain ⟨f, term, _⟩ :=
    accepted.leveled.exists_falling_term accepted.wellFormed.root_lt finite
  exact ⟨f, Picks.isTerm_iff.mpr term⟩

/-- From the start, a search without a limit finds a completion. -/
theorem searchCompletion_start (accepted : g.Accepted) :
    ∃ moves u, searchCompletion g none (Tracker.start g) = .found u ∧
      Tracker.Leads g (Tracker.start g) moves u ∧ u.isTerminal = true := by
  have wf := accepted.wellFormed
  obtain ⟨f, term⟩ := accepted.exists_isTerm
  obtain ⟨moves, u, run, terminal, _⟩ := Tracker.exists_run_of_isTerm accepted term
    (Tracker.inv_start wf) (fun c n chosen => by simp [Tracker.choice_start] at chosen)
  have right := searchCompletion_right none wf (Tracker.inv_start wf)
  cases ended : searchCompletion g none (Tracker.start g) with
  | found v =>
      rw [ended] at right
      obtain ⟨moves, run, terminal⟩ := right
      exact ⟨moves, v, rfl, run, terminal⟩
  | exhausted explored =>
      rw [ended] at right
      exact absurd ⟨moves, u, run, by simp [Tracker.isTerminal, terminal]⟩ right
  | gaveUp =>
      rw [ended] at right
      simp [Search.Right] at right

end EGraphSearch
