import EGraphSearch.Proofs.Search.Clock
import EGraphSearch.Proofs.Tree.Following

/-!
# Commitments and the final term

Every commitment goes to the most visited child that is not a dead end, and it stays that child: all
later playouts pass through it and not through its siblings.  The final term is read off by another
rule, which does not leave out dead ends.  Where the two rules agree along the committed path, the
final term keeps every choice on it.
-/

set_option autoImplicit false

namespace EGraphSearch

variable {σ ρ α : Type} [Scalar α] {g : EGraph} {tree after : Tree α}

/-! ## Playouts keep the committed path -/

omit [Scalar α] in
theorem status_eq_deadEnd {n : SearchNode α} :
    n.status = .deadEnd ↔ n.numMoves = some 0 ∧ n.terminal = false := by
  unfold SearchNode.status
  rcases n.numMoves with _ | _ | k
  · simp
  · cases n.terminal <;> simp
  · simp only [Option.some.injEq, Nat.add_one_ne_zero, false_and, iff_false]
    split
    · simp
    · split <;> simp

section Played

variable {start : Nat} {path below : List Nat}

theorem Played.status_eq (faithful : Faithful g tree)
    (played : Played g tree after start path below) {c : Nat} (pos : 0 < c)
    (inside : c < tree.size) :
    (after.node c).status = .deadEnd ↔ (tree.node c).status = .deadEnd := by
  obtain ⟨moves, terminal⟩ := played.notes_eq c (faithful.known c pos inside)
  rw [status_eq_deadEnd, status_eq_deadEnd, moves, terminal]

/-- The pick above a node of the path stays, since only the picked child gets another visit. -/
theorem Played.mostVisited_eq (faithful : Faithful g tree)
    (played : Played g tree after start path below) (spec : tree.PathSpec start path)
    {i move c : Nat} (onPath : c ∈ path)
    (picked : tree.mostVisited i true = .ok (some (move, c))) :
    after.mostVisited i true = .ok (some (move, c)) := by
  have inside := Tree.inside_of_mostVisited picked
  obtain ⟨member, lt, insideChild, parent, moved⟩ :=
    Tree.child_of_mostVisited faithful.toLinked picked
  obtain ⟨admissible, most⟩ := Tree.mostVisited_spec inside picked
  have above : i < start := Nat.lt_of_lt_of_le lt (spec.le c onPath)
  have apart : i ∉ start :: below := by
    intro listed
    rcases List.mem_cons.mp listed with rfl | listed
    · exact Nat.lt_irrefl _ above
    · exact absurd (played.below_parent i listed).1 (by omega)
  have children := played.children_eq i apart
  have offPath : ∀ entry ∈ (tree.node i).children, entry ≠ (move, c) → entry.2 ∉ path ++ below := by
    rintro ⟨move', c'⟩ member' other listed
    obtain ⟨_, insideOther, parent', moved'⟩ := faithful.child i inside move' c' member'
    rcases List.mem_append.mp listed with listed | listed
    · obtain rfl := spec.only c onPath c' listed i parent parent'
      cases moved.symm.trans moved'
      exact other rfl
    · obtain ⟨_, p, hp, parentAfter⟩ := played.below_parent c' listed
      rw [played.kept.parent_eq c' insideOther, parent', Option.some.injEq] at parentAfter
      exact apart (parentAfter ▸ hp)
  refine Tree.mostVisited_of_lt (Nat.lt_of_lt_of_le inside played.kept.size_le) ?_ ?_
  · refine Tree.mem_admissible.mpr ⟨children ▸ member, fun _ dead => ?_⟩
    exact (Tree.mem_admissible.mp admissible).2 rfl
      ((played.status_eq faithful (by omega) insideChild).mp dead)
  · intro entry listed other
    obtain ⟨memberAfter, alive⟩ := Tree.mem_admissible.mp listed
    have member' : entry ∈ (tree.node i).children := children ▸ memberAfter
    obtain ⟨ltOther, insideOther, _⟩ := faithful.child i inside entry.1 entry.2 member'
    have fewer := most entry (Tree.mem_admissible.mpr ⟨member', fun _ dead =>
      alive rfl ((played.status_eq faithful (by omega) insideOther).mpr dead)⟩)
    rw [played.visits_eq, played.visits_eq, if_neg (offPath entry member' other),
      if_pos (List.mem_append_left _ onPath)]
    omega

theorem Played.follows (faithful : Faithful g tree) (played : Played g tree after start path below)
    (spec : tree.PathSpec start path) {j : Nat} (follows : tree.Follows true j)
    (onPath : j ∈ path) : after.Follows true j := by
  induction follows with
  | root => exact .root
  | @child i move c above picked ih =>
      obtain ⟨_, _, _, parent, _⟩ := Tree.child_of_mostVisited faithful.toLinked picked
      exact .child (ih (spec.closed c onPath i parent))
        (played.mostVisited_eq faithful spec onPath picked)

end Played

/-! ## Searches follow their commitments -/

section Searches

variable {σ ρ : Type} {plan : Plan σ ρ α} {P : Term × α → Prop}

/-- What holds between playouts: the progress is sane, and commitments have been followed. -/
structure Committed (plan : Plan σ ρ α) (s : Progress σ α) : Prop where
  sane : Sane plan.toProblem (fun _ => True) s
  follows : s.tree.Follows true s.committed

theorem Committed.play {tuning : Tuning α} {source : ρ} {s next : Progress σ α} {leaf : Leaf α}
    (wf : plan.graph.toArena.WellFormed) (committed : Committed plan s)
    (played : playout plan.toProblem tuning s.committed source s = (.ok leaf, next)) :
    Committed plan (next.record tuning leaf) := by
  have sane := committed.sane
  have spec := playout_spec wf priced_trivial sane.faithful sane.committed_lt played
  obtain ⟨path, below, playedTree⟩ := spec.played
  obtain ⟨path', pathSpec⟩ := sane.faithful.toLinked.pathSpec s.committed sane.committed_lt
  obtain rfl : path' = path := Except.ok.inj (pathSpec.path_eq.symm.trans playedTree.path_eq)
  refine ⟨sane.play wf priced_trivial sane.committed_lt played, ?_⟩
  rw [tree_record, committed_record, spec.committed_eq]
  exact playedTree.follows sane.faithful pathSpec committed.follows pathSpec.last

theorem Committed.batch {tuning : Tuning α} {stream : Nat → ρ} {start index count : Nat}
    {s u : Progress σ α} (wf : plan.graph.toArena.WellFormed) (committed : Committed plan s)
    (here : start = s.committed)
    (batch : Batch plan.toProblem tuning stream start index count s u) : Committed plan u := by
  refine (Batch.keeps (Q := fun s => Committed plan s ∧ start = s.committed) batch ?_
    ⟨committed, here⟩).1
  rintro i s next leaf ⟨committed, rfl⟩ played
  have spec := playout_spec wf priced_trivial committed.sane.faithful committed.sane.committed_lt
    played
  exact ⟨committed.play wf played, by rw [committed_record, spec.committed_eq]⟩

theorem Committed.commit {s : Progress σ α} {move child : Nat} (committed : Committed plan s)
    (picked : s.tree.mostVisited s.committed true = .ok (some (move, child))) :
    Committed plan (s.commit child) :=
  ⟨committed.sane.commit picked, .child committed.follows picked⟩

theorem committed_opened (oracle : σ) : Committed plan (plan.opened oracle) :=
  ⟨(sane_initial oracle).report _, .root⟩

/-- At the end of a search by one worker the committed node has been followed. -/
theorem committed_searched (wf : plan.graph.toArena.WellFormed)
    (alone : Number.below 1 plan.tuning.workers = false) {oracle : σ}
    (ended : (plan.searched oracle).result = .ok ()) :
    Committed plan (plan.searched oracle).progress :=
  search_keeps alone (fun committed batch => committed.batch wf rfl batch)
    (fun committed picked => committed.commit picked) (committed_opened oracle) ended

/-- So it has when the clock has stopped the search. -/
theorem committed_searchedWithin (wf : plan.graph.toArena.WellFormed) {looks : Nat} {oracle : σ}
    (ended : (plan.searchedWithin looks oracle).result = .ok ()) :
    Committed plan (plan.searchedWithin looks oracle).progress :=
  searchedWithin_keeps (fun committed batch => committed.batch wf rfl batch)
    (fun committed picked => committed.commit picked) (committed_opened oracle) ended

end Searches

/-! ## The greedy descent -/

section Descending

variable {t : Tracker} {i : Nat}

theorem greedyPath_follows (faithful : Faithful g tree) (follows : tree.Follows false i) :
    ∀ {t : Tracker}, replay g tree i = .ok t →
      ∃ outer, greedyPath g tree (Tracker.start g) 0 =
        (greedyPath g tree t i).map (outer ++ ·) ∧
        ∀ u ∈ outer, ∃ j < i, tree.Follows false j ∧ replay g tree j = .ok u := by
  induction follows with
  | root =>
      intro t replayed
      cases Except.ok.inj (replayed.symm.trans (replay_root faithful.toLinked))
      refine ⟨[], ?_, by simp⟩
      cases greedyPath g tree (Tracker.start g) 0 <;> rfl
  | @child i move c above picked ih =>
      intro t replayed
      have inside := above.lt faithful.toLinked
      obtain ⟨member, lt, _⟩ := Tree.child_of_mostVisited faithful.toLinked picked
      obtain ⟨v, replayedAbove⟩ := faithful.replayed i inside
      obtain ⟨_, u, applied, replayedChild⟩ := faithful.apply_child inside replayedAbove member
      cases Except.ok.inj (replayed.symm.trans replayedChild)
      obtain ⟨outer, path, earlier⟩ := ih replayedAbove
      refine ⟨outer ++ [v], ?_, ?_⟩
      · rw [path, greedyPath_step (not_terminal_of_apply applied) picked applied]
        cases greedyPath g tree t c <;> simp [Except.map]
      · intro w hw
        rcases List.mem_append.mp hw with hw | hw
        · obtain ⟨j, before, rest⟩ := earlier w hw
          exact ⟨j, Nat.lt_trans before lt, rest⟩
        · rw [List.mem_singleton.mp hw]
          exact ⟨i, lt, above, replayedAbove⟩

theorem Tracker.Leads.of_stuck {moves : List Nat} {u : Tracker} (run : Tracker.Leads g t moves u)
    (stuck : t.legalMoves g = []) : u = t := by
  cases run with
  | stay => rfl
  | move legal _ _ => simp [stuck] at legal

theorem searchCompletion_terminal (limit : Option Nat) (terminal : t.isTerminal = true) :
    searchCompletion g limit t = .found t := by
  rw [searchCompletion, Completion.explore, if_pos terminal]

end Descending

section Final

variable {σ ρ : Type} {p : Problem σ ρ α} {term : Term} {i : Nat} {t : Tracker}

/-- Where the greedy path comes through a tracker that can be completed, the final term completes
it, unless backtracking gives up. -/
theorem Recommended.completes_followed (wf : p.graph.toArena.WellFormed)
    (faithful : Faithful p.graph tree) (recommended : Recommended p tree term)
    (follows : tree.Follows false i) (replayed : replay p.graph tree i = .ok t)
    (completable : t.Completable p.graph)
    (tries : searchCompletion p.graph (some completionLimit) t ≠ .gaveUp) :
    ∃ moves terminal, Tracker.Leads p.graph t moves terminal ∧ terminal.isTerminal = true ∧
      term = ⟨terminal.assignment p.graph⟩ := by
  obtain ⟨outer, path, _⟩ := greedyPath_follows faithful follows replayed
  obtain ⟨rest, pathHere, reached⟩ := greedyPath_spec wf faithful _ (Nat.lt_succ_self _)
    (follows.lt faithful.toLinked) replayed
  obtain ⟨trackers, outer', u, inner, terminal, moves, path', split, run, isTerminal, same,
    failed⟩ := recommended.completes
  rw [path, pathHere] at path'
  obtain rfl : outer ++ t :: rest = trackers := Except.ok.inj path'
  have deeper : u ∈ t :: rest := by
    rcases List.append_eq_append_iff.mp split with ⟨middle, _, here⟩ | ⟨middle, _, here⟩
    · rw [here]
      simp
    · cases middle with
      | nil =>
          rw [List.nil_append] at here
          rw [← here]
          simp
      | cons first middle =>
          have member : t ∈ inner := by
            rw [List.cons_append, List.cons.injEq] at here
            rw [here.2]
            simp
          rcases failed t member with gaveUp | impossible
          · exact absurd gaveUp tries
          · exact absurd completable impossible
  obtain ⟨_, between, first⟩ := reached u deeper
  exact ⟨_, terminal, first.append run, isTerminal, same⟩

/-- Where the greedy path picks a dead end, the final term completes a tracker above it. -/
theorem Recommended.completes_above (wf : p.graph.toArena.WellFormed)
    (faithful : Faithful p.graph tree) (recommended : Recommended p tree term)
    (follows : tree.Follows false i) {move dead : Nat}
    (picked : tree.mostVisited i false = .ok (some (move, dead)))
    (stuck : (tree.node dead).status = .deadEnd) :
    ∃ j ≤ i, tree.Follows false j ∧ ∃ u moves terminal, replay p.graph tree j = .ok u ∧
      Tracker.Leads p.graph u moves terminal ∧ terminal.isTerminal = true ∧
      term = ⟨terminal.assignment p.graph⟩ := by
  have inside := follows.lt faithful.toLinked
  obtain ⟨t, replayed⟩ := faithful.replayed i inside
  obtain ⟨member, lt, insideDead, _⟩ := Tree.child_of_mostVisited faithful.toLinked picked
  obtain ⟨_, d, applied, replayedDead⟩ := faithful.apply_child inside replayed member
  obtain ⟨numMoves, notTerminal⟩ := status_eq_deadEnd.mp stuck
  obtain ⟨none_, terminalEq⟩ := faithful.noted dead insideDead d 0 replayedDead numMoves
  have noMoves : d.legalMoves p.graph = [] := List.length_eq_zero_iff.mp none_.symm
  obtain ⟨outer, path, above⟩ := greedyPath_follows faithful follows replayed
  obtain ⟨rest, pathDead, reached⟩ := greedyPath_spec wf faithful _ (Nat.lt_succ_self _)
    insideDead replayedDead
  rw [greedyPath_step (not_terminal_of_apply applied) picked applied, pathDead] at path
  obtain ⟨trackers, outer', u, inner, terminal, moves, path', split, run, isTerminal, same, _⟩ :=
    recommended.completes
  rw [path] at path'
  obtain rfl : outer ++ t :: d :: rest = trackers := Except.ok.inj path'
  have listed : u ∈ outer ++ t :: d :: rest := by
    rw [split]
    simp
  rcases List.mem_append.mp listed with earlier | listed
  · obtain ⟨j, before, followsAbove, replayedAbove⟩ := above u earlier
    exact ⟨j, Nat.le_of_lt before, followsAbove, u, moves, terminal, replayedAbove, run, isTerminal,
      same⟩
  · rcases List.mem_cons.mp listed with rfl | listed
    · exact ⟨i, Nat.le_refl _, follows, u, moves, terminal, replayed, run, isTerminal, same⟩
    · obtain ⟨_, between, first⟩ := reached u listed
      rw [(first.append run).of_stuck noMoves, ← terminalEq, notTerminal] at isTerminal
      simp at isTerminal

theorem Recommended.eq_of_terminal (wf : p.graph.toArena.WellFormed)
    (faithful : Faithful p.graph tree) (recommended : Recommended p tree term)
    (follows : tree.Follows false i) (replayed : replay p.graph tree i = .ok t)
    (terminal : t.isTerminal = true) : term = ⟨t.assignment p.graph⟩ := by
  obtain ⟨moves, u, run, _, same⟩ := recommended.completes_followed wf faithful follows replayed
    ⟨[], t, .stay t, terminal⟩ (by simp [searchCompletion_terminal _ terminal])
  rw [same, run.of_stuck (Tracker.legalMoves_of_terminal terminal)]

theorem Tracker.Leads.assignment_mem (wf : g.toArena.WellFormed) (inv : Tracker.Inv g t)
    {moves : List Nat} {u : Tracker} (run : Tracker.Leads g t moves u) {entry : Label × Label}
    (chosen : entry ∈ t.assignment g) : entry ∈ u.assignment g :=
  (run.assignment_extends wf inv).subset chosen

end Final

end EGraphSearch
