import EGraphSearch.Proofs.Completion
import EGraphSearch.Proofs.Rollout
import EGraphSearch.Proofs.Search.Descent
import EGraphSearch.Proofs.Tracker.Terms
import EGraphSearch.Search.FinalTerm

/-!
# Where the final term comes from

The greedy path is a chain of trackers, each a legal move after the one before.  The final term
completes the innermost of them that can be completed, and the start can always be.
-/

set_option autoImplicit false

namespace EGraphSearch

variable {σ ρ α : Type} [Scalar α] {g : EGraph} {tree : Tree α} {t u : Tracker}

/-! ## The greedy path -/

theorem greedyPath_terminal (terminal : t.isTerminal = true) (i : Nat) :
    greedyPath g tree t i = .ok [t] := by
  rw [greedyPath, if_pos terminal]

theorem greedyPath_leaf {i : Nat} (picked : tree.mostVisited i false = .ok none) :
    greedyPath g tree t i = .ok [t] := by
  rw [greedyPath]
  split
  · rfl
  · simp [picked]

theorem greedyPath_step {i move child : Nat} (notTerminal : t.isTerminal = false)
    (picked : tree.mostVisited i false = .ok (some (move, child)))
    (applied : t.apply g move = .ok u) :
    greedyPath g tree t i = (greedyPath g tree u child).map (t :: ·) := by
  rw [greedyPath, if_neg (by simp [notTerminal])]
  simp only [picked]
  split
  · rename_i fault failed
    simp [applied] at failed
  · rename_i moved applied'
    cases Except.ok.inj (applied.symm.trans applied')
    rfl

theorem not_terminal_of_apply {move : Nat} (applied : t.apply g move = .ok u) :
    t.isTerminal = false := by
  unfold Tracker.apply at applied
  split at applied
  · split at applied
    · rename_i p pending
      simp [Tracker.isTerminal, pending]
    · simp at applied
  · simp at applied

theorem Faithful.apply_child (faithful : Faithful g tree) {i move child : Nat}
    (inside : i < tree.size) (replayed : replay g tree i = .ok t)
    (member : (move, child) ∈ (tree.node i).children) :
    child < tree.size ∧ ∃ u, t.apply g move = .ok u ∧ replay g tree child = .ok u := by
  obtain ⟨_, insideChild, _⟩ := faithful.child i inside move child member
  obtain ⟨u, replayedChild⟩ := faithful.replayed child insideChild
  have same := replay_child (g := g) faithful.toLinked inside member
  rw [replayed, replayedChild] at same
  exact ⟨insideChild, u, same.symm, replayedChild⟩

/-- The greedy path exists; it starts where it should, and legal moves lead from its start to
everything on it. -/
theorem greedyPath_spec (wf : g.toArena.WellFormed) (faithful : Faithful g tree) (k : Nat) :
    ∀ {t : Tracker} {i : Nat}, t.openCount < k → i < tree.size → replay g tree i = .ok t →
      ∃ rest, greedyPath g tree t i = .ok (t :: rest) ∧
        ∀ u ∈ t :: rest, Tracker.Inv g u ∧ ∃ moves, Tracker.Leads g t moves u := by
  induction k with
  | zero => exact fun small => absurd small (Nat.not_lt_zero _)
  | succ k ih =>
      intro t i small inside replayed
      have inv := inv_of_replay wf replayed
      have alone : ∀ u ∈ [t], Tracker.Inv g u ∧ ∃ moves, Tracker.Leads g t moves u := by
        intro u hu
        rw [List.mem_singleton.mp hu]
        exact ⟨inv, [], .stay t⟩
      cases terminal : t.isTerminal with
      | true => exact ⟨[], greedyPath_terminal terminal i, alone⟩
      | false =>
      cases picked : firstBest busier tree.node (tree.admissible i false) none with
      | none =>
          exact ⟨[], greedyPath_leaf (by rw [Tree.mostVisited_eq inside, picked]), alone⟩
      | some entry =>
          obtain ⟨move, child⟩ := entry
          have picked : tree.mostVisited i false = .ok (some (move, child)) := by
            rw [Tree.mostVisited_eq inside, picked]
          obtain ⟨insideChild, u, applied, replayedChild⟩ :=
            faithful.apply_child inside replayed (Tree.member_of_mostVisited inside picked)
          have fewer := Tracker.apply_openCount applied
          obtain ⟨rest, path, reached⟩ := ih (by omega) insideChild replayedChild
          refine ⟨u :: rest, ?_, ?_⟩
          · rw [greedyPath_step terminal picked applied, path]
            rfl
          · intro v hv
            rcases List.mem_cons.mp hv with rfl | later
            · exact ⟨inv, [], .stay v⟩
            · obtain ⟨invHere, moves, run⟩ := reached v later
              exact ⟨invHere, move :: moves,
                .move (Tracker.mem_legalMoves_of_apply wf inv applied) applied run⟩

/-! ## Completing a tracker -/

section Completing

variable {p : Problem σ ρ α} {limit : Option Nat}

omit [Scalar α] in
/-- An attempt that succeeds completes the tracker; one that does not has run out of trackers or
into its limit. -/
theorem attempt_spec (wf : p.graph.toArena.WellFormed) (inv : Tracker.Inv p.graph t)
    (attempts : Nat) : ∀ {source : ρ} {result : Option Tracker},
      (attempt p limit t attempts source).result = .ok result →
      (∀ u, result = some u → (∃ moves, Tracker.Leads p.graph t moves u) ∧ u.isTerminal = true) ∧
      (result = none → searchCompletion p.graph limit t = .gaveUp ∨ ¬ t.Completable p.graph) := by
  induction attempts with
  | zero =>
      intro source result attempted
      have right := searchCompletion_right limit wf inv
      unfold attempt at attempted
      cases ended : searchCompletion p.graph limit t with
      | found u =>
          rw [ended] at right
          simp only [ended, Except.ok.injEq] at attempted
          subst attempted
          obtain ⟨moves, run, terminal⟩ := right
          exact ⟨fun v same => Option.some.inj same ▸ ⟨⟨moves, run⟩, terminal⟩, by simp⟩
      | exhausted explored =>
          rw [ended] at right
          simp only [ended, Except.ok.injEq] at attempted
          subst attempted
          exact ⟨by simp, fun _ => .inr right⟩
      | gaveUp =>
          simp only [ended, Except.ok.injEq] at attempted
          subst attempted
          exact ⟨by simp, fun _ => .inl rfl⟩
  | succ attempts ih =>
      intro source result attempted
      obtain ⟨⟨moves, run⟩, terminal, _⟩ := rollout_spec p.choose wf _ source
        (Nat.lt_succ_self _) inv
      unfold attempt at attempted
      dsimp only at attempted
      split at attempted
      · simp at attempted
      · rename_i ended
        simp only [Except.ok.injEq] at attempted
        subst attempted
        exact ⟨fun u same => Option.some.inj same ▸ ⟨⟨moves, run⟩, terminal ended⟩, by simp⟩
      · exact ih attempted

omit [Scalar α] in
theorem attempt_deadEnd (deadEnd : t.isDeadEnd p.graph = true) {most : Nat} (pos : 0 < most)
    (attempts : Nat) (source : ρ) :
    attempt p (some most) t attempts source = ⟨.ok none, source, []⟩ := by
  induction attempts with
  | zero => rw [attempt, searchCompletion_deadEnd deadEnd pos]
  | succ attempts ih => simp only [attempt, rollout_deadEnd deadEnd, ih]

omit [Scalar α] in
theorem complete_spec (wf : p.graph.toArena.WellFormed) (inv : Tracker.Inv p.graph t)
    {attempts : Number} {source : ρ} {result : Option Tracker}
    (completed : (complete p attempts limit t source).result = .ok result) :
    (∀ u, result = some u → (∃ moves, Tracker.Leads p.graph t moves u) ∧ u.isTerminal = true) ∧
    (result = none → searchCompletion p.graph limit t = .gaveUp ∨ ¬ t.Completable p.graph) := by
  unfold complete at completed
  split at completed
  · rename_i terminal
    cases completed
    exact ⟨fun u same => Option.some.inj same ▸ ⟨⟨[], .stay t⟩, terminal⟩, by simp⟩
  · split at completed
    · simp at completed
    · exact attempt_spec wf inv _ completed

omit [Scalar α] in
theorem attempt_ok (wf : p.graph.toArena.WellFormed) (reliable : p.choose.Reliable p.graph)
    (inv : Tracker.Inv p.graph t) (attempts : Nat) :
    ∀ source : ρ, ∃ result, (attempt p limit t attempts source).result = .ok result := by
  induction attempts with
  | zero =>
      intro source
      unfold attempt
      cases searchCompletion p.graph limit t <;> exact ⟨_, rfl⟩
  | succ attempts ih =>
      intro source
      obtain ⟨b, ended⟩ := rollout_ok wf reliable _ source (Nat.lt_succ_self _) inv
      unfold attempt
      simp only [ended]
      cases b with
      | true => exact ⟨_, rfl⟩
      | false => exact ih _

omit [Scalar α] in
theorem complete_ok (limit : Option Nat) (wf : p.graph.toArena.WellFormed)
    (reliable : p.choose.Reliable p.graph) (inv : Tracker.Inv p.graph t) {attempts : Number}
    {count : Int} (whole : attempts.int? = some count) (source : ρ) :
    ∃ result, (complete p attempts limit t source).result = .ok result := by
  unfold complete
  split
  · exact ⟨_, rfl⟩
  · simp only [whole]
    exact attempt_ok wf reliable inv _ source

/-! ## The innermost tracker that can be completed -/

omit [Scalar α] in
/-- The answer completes one of the trackers, and none of those further in could be completed
within the limit. -/
theorem completeDeepest_spec (wf : p.graph.toArena.WellFormed) {attempts : Number}
    (trackers : List Tracker) (invs : ∀ t ∈ trackers, Tracker.Inv p.graph t) :
    ∀ {source : ρ} {terminal : Tracker} {depth : Nat},
      (completeDeepest p attempts trackers source).1 = .ok (terminal, depth) →
      ∃ inner t outer, trackers = inner ++ t :: outer ∧ depth = outer.length ∧
        (∃ moves, Tracker.Leads p.graph t moves terminal) ∧ terminal.isTerminal = true ∧
        ∀ u ∈ inner, searchCompletion p.graph (some completionLimit) u = .gaveUp ∨
          ¬ u.Completable p.graph := by
  induction trackers with
  | nil =>
      intro source terminal depth completed
      simp [completeDeepest] at completed
  | cons t outer ih =>
      intro source terminal depth completed
      simp only [completeDeepest] at completed
      cases result : (complete p attempts (if outer.isEmpty then none else some completionLimit) t
          source).result with
      | error fault =>
          simp only [result] at completed
          simp at completed
      | ok found =>
          have spec := complete_spec wf (invs t (by simp)) result
          cases found with
          | some u =>
              simp only [result, Except.ok.injEq, Prod.mk.injEq] at completed
              obtain ⟨rfl, rfl⟩ := completed
              obtain ⟨run, isTerminal⟩ := spec.1 u rfl
              exact ⟨[], t, outer, rfl, rfl, run, isTerminal, by simp⟩
          | none =>
              simp only [result] at completed
              obtain ⟨inner, v, rest, split, same, run, isTerminal, failed⟩ :=
                ih (fun w hw => invs w (by simp [hw])) completed
              refine ⟨t :: inner, v, rest, by simp [split], same, run, isTerminal, ?_⟩
              intro w hw
              rcases List.mem_cons.mp hw with rfl | later
              · have notEmpty : outer.isEmpty = false := by simp [split]
                simpa [notEmpty] using spec.2 rfl
              · exact failed w later

omit [Scalar α] in
theorem completeDeepest_ok (accepted : p.graph.Accepted) (reliable : p.choose.Reliable p.graph)
    {attempts : Number} {count : Int} (whole : attempts.int? = some count) (inner : List Tracker)
    (invs : ∀ t ∈ inner, Tracker.Inv p.graph t) :
    ∀ source : ρ, ∃ terminal depth,
      (completeDeepest p attempts (inner ++ [Tracker.start p.graph]) source).1 =
        .ok (terminal, depth) := by
  have wf := accepted.wellFormed
  induction inner with
  | nil =>
      intro source
      have inv := Tracker.inv_start wf
      obtain ⟨result, completed⟩ := complete_ok none wf reliable inv whole source
      have spec := complete_spec wf inv completed
      simp only [List.nil_append, completeDeepest, List.isEmpty_nil, if_true, completed]
      cases result with
      | some u => exact ⟨u, 0, rfl⟩
      | none =>
          obtain ⟨moves, u, found, run, terminal⟩ := searchCompletion_start accepted
          rcases spec.2 rfl with gaveUp | impossible
          · simp [found] at gaveUp
          · exact absurd ⟨moves, u, run, terminal⟩ impossible
  | cons t inner ih =>
      intro source
      obtain ⟨result, completed⟩ := complete_ok (some completionLimit) wf reliable
        (invs t (by simp)) whole source
      have notEmpty : (inner ++ [Tracker.start p.graph]).isEmpty = false := by simp
      simp only [List.cons_append, completeDeepest, notEmpty, Bool.false_eq_true, if_false,
        completed]
      cases result with
      | some u => exact ⟨u, _, rfl⟩
      | none => exact ih (fun w hw => invs w (by simp [hw])) _

end Completing

/-! ## The final term -/

/-- The final term is that of a terminal tracker, which completes the innermost tracker of the
greedy path that can be completed. -/
structure Recommended (p : Problem σ ρ α) (tree : Tree α) (term : Term) : Prop where
  completes : ∃ trackers outer t inner terminal moves,
    greedyPath p.graph tree (Tracker.start p.graph) 0 = .ok trackers ∧
    trackers = outer ++ t :: inner ∧ Tracker.Leads p.graph t moves terminal ∧
    terminal.isTerminal = true ∧ term = ⟨terminal.assignment p.graph⟩ ∧
    ∀ u ∈ inner, searchCompletion p.graph (some completionLimit) u = .gaveUp ∨
      ¬ u.Completable p.graph
  valid : term.validate p.graph = .ok ()

section FinalTerm

variable {p : Problem σ ρ α} {attempts : Number} {source : ρ}

theorem finalTerm_spec (wf : p.graph.toArena.WellFormed) (faithful : Faithful p.graph tree)
    {term : Term} (found : (finalTerm p attempts tree source).1 = .ok term) :
    Recommended p tree term := by
  obtain ⟨rest, path, reached⟩ := greedyPath_spec wf faithful _ (Nat.lt_succ_self _)
    faithful.nonempty (replay_root faithful.toLinked)
  simp only [finalTerm, path] at found
  rcases deepest : completeDeepest p attempts (Tracker.start p.graph :: rest).reverse source with
    ⟨fault | ⟨terminal, depth⟩, journal⟩
  · simp only [deepest] at found
    simp at found
  · simp only [deepest] at found
    obtain ⟨inner, t, outer, split, _, ⟨moves, run⟩, isTerminal, failed⟩ :=
      completeDeepest_spec wf _ (fun u hu => (reached u (List.mem_reverse.mp hu)).1)
        (by rw [deepest])
    have termOf : terminal.toTerm p.graph = .ok ⟨terminal.assignment p.graph⟩ :=
      Tracker.toTerm_of_terminal isTerminal
    simp only [termOf] at found
    cases valid : Term.validate p.graph ⟨terminal.assignment p.graph⟩ with
    | error fault => simp [valid, Except.map] at found
    | ok checked =>
        simp only [valid, Except.map, Except.ok.injEq] at found
        subst found
        refine ⟨⟨_, outer.reverse, t, inner.reverse, terminal, moves, path, ?_, run, isTerminal,
          rfl, fun u hu => failed u (List.mem_reverse.mp hu)⟩, valid⟩
        rw [← List.reverse_reverse (Tracker.start p.graph :: rest), split]
        simp

theorem Recommended.of_tracker (wf : p.graph.toArena.WellFormed) (faithful : Faithful p.graph tree)
    {term : Term} (recommended : Recommended p tree term) :
    ∃ t, Tracker.Inv p.graph t ∧ t.toTerm p.graph = .ok term := by
  obtain ⟨_, outer, t, inner, terminal, moves, path, split, run, complete, rfl, _⟩ :=
    recommended.completes
  obtain ⟨rest, path', reached⟩ := greedyPath_spec wf faithful _ (Nat.lt_succ_self _)
    faithful.nonempty (replay_root faithful.toLinked)
  have member : t ∈ Tracker.start p.graph :: rest := by
    rw [Except.ok.inj (path'.symm.trans path), split]
    simp
  exact ⟨terminal, run.inv wf (reached t member).1, Tracker.toTerm_of_terminal complete⟩

theorem finalTerm_ok (source : ρ) (accepted : p.graph.Accepted) (checkable : p.graph.Checkable)
    (reliable : p.choose.Reliable p.graph) (faithful : Faithful p.graph tree) {count : Int}
    (whole : attempts.int? = some count) :
    ∃ term, (finalTerm p attempts tree source).1 = .ok term := by
  have wf := accepted.wellFormed
  obtain ⟨rest, path, reached⟩ := greedyPath_spec wf faithful _ (Nat.lt_succ_self _)
    faithful.nonempty (replay_root faithful.toLinked)
  obtain ⟨terminal, depth, completed⟩ := completeDeepest_ok accepted reliable whole rest.reverse
    (fun u hu => (reached u (List.mem_cons_of_mem _ (List.mem_reverse.mp hu))).1) source
  rw [← List.reverse_cons] at completed
  obtain ⟨_, t, _, split, _, ⟨moves, run⟩, isTerminal, _⟩ :=
    completeDeepest_spec wf _ (fun u hu => (reached u (List.mem_reverse.mp hu)).1) completed
  have member : t ∈ Tracker.start p.graph :: rest := by
    rw [← List.mem_reverse, split]
    simp
  obtain ⟨termOf, valid⟩ := (run.inv wf (reached t member).1).validate_toTerm wf checkable
    (Tracker.pending_of_terminal isTerminal)
  rcases deepest : completeDeepest p attempts (Tracker.start p.graph :: rest).reverse source with
    ⟨result, journal⟩
  rw [deepest] at completed
  obtain rfl : result = .ok (terminal, depth) := completed
  exact ⟨⟨terminal.assignment p.graph⟩,
    by simp only [finalTerm, path, deepest, termOf, valid, Except.map]⟩

end FinalTerm

end EGraphSearch
