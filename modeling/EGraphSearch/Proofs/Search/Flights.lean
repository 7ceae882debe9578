import EGraphSearch.Proofs.Search.Batches
import EGraphSearch.Proofs.Search.Exploration
import EGraphSearch.Search.Crew

/-!
# Steps under the lock

Each step that a worker takes under the lock changes the statistics along one path only: a playout
that begins adds its virtual loss there, and a playout that ends takes it back and, unless it
failed, credits its value.  The tree remains one that walks explore.
-/

set_option autoImplicit false

namespace EGraphSearch

variable {σ ρ α : Type} [Scalar α] {g : EGraph} {tree after : Tree α} {tuning : Tuning α}
  {start : Nat} {flight : Flight} {s : Shared σ α}

/-! ## Paths in flight -/

/-- The path of a flight leads from the root through the start to the node of its tracker. -/
structure Flight.Launched (g : EGraph) (tree : Tree α) (start : Nat) (flight : Flight) :
    Prop where
  arrived : ∃ last < tree.size, tree.pathFromRoot last = .ok flight.path ∧
    replay g tree last = .ok flight.tracker
  through : start ∈ flight.path

theorem Flight.Launched.later (launched : flight.Launched g tree start) (linked : tree.Linked)
    (lasts : Tree.Lasts tree after) : flight.Launched g after start := by
  obtain ⟨last, inside, path, replayed⟩ := launched.arrived
  refine ⟨⟨last, Nat.lt_of_lt_of_le inside lasts.size_le, ?_, ?_⟩, launched.through⟩
  · rw [Tree.pathFromRoot_congr lasts.kept inside, path]
  · rw [replay_congr linked lasts.kept inside, replayed]

theorem Flight.Launched.root_mem (launched : flight.Launched g tree start)
    (linked : tree.Linked) : 0 ∈ flight.path := by
  obtain ⟨last, inside, path, _⟩ := launched.arrived
  exact linked.root_mem_path last inside path

structure Updated (path : List Nat) (f : SearchNode α → SearchNode α) (tree after : Tree α) :
    Prop where
  restated : Tree.Restated tree after
  node_eq : ∀ j, after.node j = if j ∈ path then f (tree.node j) else tree.node j

theorem updated_path (linked : tree.Linked) {last : Nat} (inside : last < tree.size)
    {path : List Nat} (found : tree.pathFromRoot last = .ok path)
    {f : SearchNode α → SearchNode α} (statistical : ∀ n, ∃ visits total loss,
      f n = { n with visits := visits, total := total, virtualLoss := loss }) :
    ∃ after, Tree.updatePath f path tree = (.ok (), after) ∧ Updated path f tree after := by
  obtain ⟨before, pathLast, earlier, distinct⟩ := linked.exists_path last inside
  obtain rfl : path = before ++ [last] := Except.ok.inj (found.symm.trans pathLast)
  have insideAll : ∀ j ∈ before ++ [last], j < tree.size := by
    intro j member
    rcases List.mem_append.mp member with hj | hj
    · exact Nat.lt_trans (earlier j hj) inside
    · rw [List.mem_singleton.mp hj]
      exact inside
  obtain ⟨after, updated, _, nodes⟩ := Tree.updatePath_spec (f := f) _ distinct insideAll
  have restated := Tree.restated_updatePath statistical (before ++ [last]) tree
  rw [updated] at restated
  exact ⟨after, updated, restated, nodes⟩

theorem Flight.Launched.updated (launched : flight.Launched g tree start) (linked : tree.Linked)
    {f : SearchNode α → SearchNode α} (statistical : ∀ n, ∃ visits total loss,
      f n = { n with visits := visits, total := total, virtualLoss := loss }) :
    ∃ after, Tree.updatePath f flight.path tree = (.ok (), after) ∧
      Updated flight.path f tree after := by
  obtain ⟨_, inside, path, _⟩ := launched.arrived
  exact updated_path linked inside path statistical

/-! ## Beginning -/

theorem launch_spec (wf : g.toArena.WellFormed) (constants : ScoreConstants α) {amount : α}
    (loss : tuning.virtualLoss = some amount) (charted : Charted g s.progress.tree)
    (inside : start < s.progress.tree.size) (index : Nat) :
    ∃ flight after, s.launch g tuning (some constants) start index =
        (.ok flight, s.withTree after) ∧ flight.index = index ∧ flight.Launched g after start ∧
      Explores g s.progress.tree after ∧
      ∀ j, (after.node j).statistics = if j ∈ flight.path
        then ((s.progress.tree.node j).addLoss amount).statistics
        else (s.progress.tree.node j).statistics := by
  obtain ⟨tracker, replayed⟩ := charted.replayed start inside
  have walked := selectAndExpand_spec wf constants charted inside replayed
  have explored : Explores g s.progress.tree
      (selectAndExpand g (some constants) s.progress.tree tracker start).tree :=
    .walk constants .here inside replayed
  generalize walkEq : selectAndExpand g (some constants) s.progress.tree tracker start = walk
    at walked explored
  obtain ⟨path, last, arrives⟩ := walked.arrives
  have launched : Flight.Launched g walk.tree start ⟨index, path, walk.tracker⟩ :=
    ⟨⟨last, arrives.inside, arrives.path_eq, arrives.state_eq⟩, arrives.through⟩
  obtain ⟨after, added, updated⟩ := launched.updated walked.charted.toLinked
    (f := SearchNode.addLoss amount) fun n => ⟨_, _, _, rfl⟩
  refine ⟨_, after, ?_, rfl, launched.later walked.charted.toLinked updated.restated.lasts,
    explored.trans (.restate .here updated.restated), ?_⟩
  · simp only [Shared.launch, replayed, walkEq, arrives.returned, loss, Tree.addLoss, added]
  · intro j
    rw [updated.node_eq]
    have same := walked.statistics_eq j
    simp only [SearchNode.statistics, Prod.mk.injEq] at same
    split <;> simp [SearchNode.statistics, SearchNode.addLoss, same]

theorem begin_spec (wf : g.toArena.WellFormed) (constants : ScoreConstants α) {amount : α}
    (loss : tuning.virtualLoss = some amount) (charted : Charted g s.progress.tree)
    (inside : start < s.progress.tree.size) (limit : Option Number) :
    s.begin g tuning (some constants) start limit = (.ok none, s) ∧
      (limit.any (·.reachedBy s.started) = true ∨ s.budget.exhausted = true) ∨
    ∃ flight after, s.begin g tuning (some constants) start limit = (.ok (some flight),
        { s with
          budget := { s.budget with claimed := s.budget.claimed + 1 }
          started := s.started + 1
          progress := { s.progress with tree := after } }) ∧
      limit.any (·.reachedBy s.started) = false ∧ s.budget.exhausted = false ∧
      flight.index = s.budget.claimed ∧ flight.Launched g after start ∧
      Explores g s.progress.tree after ∧
      ∀ j, (after.node j).statistics = if j ∈ flight.path
        then ((s.progress.tree.node j).addLoss amount).statistics
        else (s.progress.tree.node j).statistics := by
  unfold Shared.begin
  cases full : limit.any (·.reachedBy s.started) with
  | true => exact .inl ⟨rfl, .inl rfl⟩
  | false =>
      cases spent : s.budget.exhausted with
      | true => exact .inl ⟨by simp [Budget.claim, spent], .inr rfl⟩
      | false =>
          obtain ⟨flight, after, launch, index, launched, explored, statistics⟩ :=
            launch_spec (s := { s with
              budget := { s.budget with claimed := s.budget.claimed + 1 }
              started := s.started + 1 }) wf constants loss charted inside s.budget.claimed
          refine .inr ⟨flight, after, ?_, rfl, rfl, index, launched, explored, statistics⟩
          simp only [Budget.claim, spent, launch, Bool.false_eq_true, if_false]
          rfl

/-! ## Ending -/

theorem abandon_spec {amount : α} (loss : tuning.virtualLoss = some amount)
    (linked : s.progress.tree.Linked) (launched : flight.Launched g s.progress.tree start) :
    ∃ after, s.abandon tuning flight = s.withTree after ∧
      Updated flight.path (SearchNode.removeLoss amount) s.progress.tree after := by
  obtain ⟨after, removed, updated⟩ := launched.updated linked
    (f := SearchNode.removeLoss amount) fun n => ⟨_, _, _, rfl⟩
  exact ⟨after, by simp only [Shared.abandon, loss, Tree.removeLoss, removed], updated⟩

theorem finish_spec {amount : α} (loss : tuning.virtualLoss = some amount)
    (charted : Charted g s.progress.tree) (launched : flight.Launched g s.progress.tree start)
    (leaf : Leaf α) :
    ∃ after, s.finish tuning flight leaf =
        { s with progress := { s.progress with tree := after }.record tuning leaf } ∧
      Updated flight.path (fun n => (n.removeLoss amount).credit leaf.value)
        s.progress.tree after := by
  obtain ⟨mid, removed, first⟩ := abandon_spec loss charted.toLinked launched
  have chartedMid := first.restated.charted charted
  obtain ⟨after, credited, second⟩ :=
    (launched.later charted.toLinked first.restated.lasts).updated chartedMid.toLinked
      (f := SearchNode.credit leaf.value) fun n => ⟨_, _, _, rfl⟩
  refine ⟨after, ?_, first.restated.trans second.restated, ?_⟩
  · simp only [Shared.finish, removed, Shared.withTree, Tree.creditPath, credited]
  · intro j
    rw [second.node_eq, first.node_eq]
    split <;> rfl

/-! ## Turns of one worker -/

/-- A playout that is launched and lands while nobody else takes a turn. -/
def Shared.fly (plan : Plan σ ρ α) (constants : Option (ScoreConstants α)) (start index : Nat)
    (shared : Shared σ α) : Except Fault Unit × Shared σ α :=
  match shared.launch plan.graph plan.tuning constants start index with
  | (.error fault, shared) => (.error fault, shared)
  | (.ok flight, shared) => land plan flight shared

theorem work_step (plan : Plan σ ρ α) (constants : Option (ScoreConstants α))
    (limit : Option Number) (bound : Nat) (shared : Shared σ α) :
    work plan constants start limit (bound + 1) shared =
      if limit.any (·.reachedBy shared.started) then (.ok (), shared)
      else match shared.budget.claim with
        | none => (.ok (), shared)
        | some (index, budget) =>
          match Shared.fly plan constants start index
            { shared with budget := budget, started := shared.started + 1 } with
          | (.error fault, shared) => (.error fault, shared)
          | (.ok (), shared) => work plan constants start limit bound shared := by
  rw [work, Shared.begin]
  by_cases full : limit.any (·.reachedBy shared.started) = true
  · simp only [full, if_true]
  · simp only [full]
    cases shared.budget.claim with
    | none => rfl
    | some claimed =>
        obtain ⟨index, budget⟩ := claimed
        simp only [Shared.fly]
        rcases Shared.launch plan.graph plan.tuning constants start index
          { shared with budget := budget, started := shared.started + 1 } with
          ⟨fault | flight, launched⟩
        · rfl
        · rcases landed : land plan flight launched with ⟨fault | _, s⟩ <;>
            simp only [Bool.false_eq_true, if_false, landed]

end EGraphSearch
