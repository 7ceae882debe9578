import EGraphSearch.Proofs.Commitments
import EGraphSearch.Proofs.Search.Forward

/-!
# Search in rounds

A search in rounds comes to its end, and its commitments go forward: from the root to a child, and
to a child of that, and never to a dead end.  What is off the committed path is not visited again,
and at the end every node on the path is at least as busy as its siblings.  A clock may stop all
this at any time; then playouts are left over.
-/

set_option autoImplicit false

namespace EGraphSearch

variable {σ ρ α : Type} [Scalar α]

/-! ## The committed path -/

section Path

variable {tree : Tree α} {i : Nat}

/-- Where dead ends are skipped, a node on the path below the root is alive and has at least as many
visits as each of its siblings that is alive. -/
theorem Tree.Follows.busiest (linked : tree.Linked) (follows : tree.Follows true i) {c p : Nat}
    (passes : tree.passes i c = true) (parent : (tree.node c).parent = some p) :
    (tree.node c).status ≠ .deadEnd ∧
      ∀ entry ∈ (tree.node p).children, (tree.node entry.2).status ≠ .deadEnd →
        (tree.node entry.2).visits ≤ (tree.node c).visits := by
  obtain ⟨path, spec⟩ := linked.pathSpec i (Tree.inside_of_passes passes)
  rw [Tree.passes_eq spec.path_eq, List.contains_iff_mem] at passes
  have above : p < c := by
    have notRoot : c ≠ 0 := by
      rintro rfl
      simp [linked.root_parent] at parent
    have inside : c < tree.size :=
      Nat.lt_of_le_of_lt (spec.le c passes) (follows.lt linked)
    obtain ⟨q, m, lt, member⟩ := linked.parent c (Nat.pos_of_ne_zero notRoot) inside
    obtain ⟨_, _, parent', _⟩ := linked.child q (Nat.lt_trans lt inside) m c member
    cases parent.symm.trans parent'
    exact lt
  have notLast : p ≠ i := Nat.ne_of_lt (Nat.lt_of_lt_of_le above (spec.le c passes))
  obtain ⟨move, c', listed, picked⟩ :=
    follows.picks linked spec p (spec.closed c passes p parent) notLast
  obtain ⟨_, _, _, parent', _⟩ := Tree.child_of_mostVisited linked picked
  obtain rfl := spec.only c passes c' listed p parent parent'
  obtain ⟨admissible, most⟩ := Tree.mostVisited_spec (Tree.inside_of_mostVisited picked) picked
  refine ⟨(Tree.mem_admissible.mp admissible).2 rfl, fun entry member alive => ?_⟩
  exact most entry (Tree.mem_admissible.mpr ⟨member, fun _ => alive⟩)

end Path

/-! ## The whole search -/

/-- How a search in rounds of so many playouts each goes on, whenever the clock stops it; its states
are those before the first round and after each one. -/
structure RunsForward (plan : Plan σ ρ α) (perRound : Number) (most : Nat)
    (states : List (Progress σ α)) (ended : SearchEnd σ α) : Prop where
  result : ended.result = .ok ()
  last : states.getLast? = some ended.progress
  root : states.head?.map Progress.committed = some 0
  /-- From one state to the next a round is played, or as much of it as there was time for, and the
  commitment stays or goes down. -/
  rounds : states.IsChain fun s t => ∃ n, Round plan perRound n s t
  alive : ∀ s ∈ states, (s.tree.node s.committed).status ≠ .deadEnd ∧
    (ended.progress.tree.node s.committed).status ≠ .deadEnd
  /-- What is neither above nor below a committed node keeps its visits for good. -/
  spared : states.Pairwise fun early late => Spared early.committed early late
  busiest : ∀ c, ended.progress.tree.passes ended.progress.committed c = true →
    ∀ p, (ended.progress.tree.node c).parent = some p →
      ∀ entry ∈ (ended.progress.tree.node p).children,
        (ended.progress.tree.node entry.2).status ≠ .deadEnd →
        (ended.progress.tree.node entry.2).visits ≤ (ended.progress.tree.node c).visits
  playouts_le : ended.progress.playouts ≤ most

theorem Forward.runsForward {plan : Plan σ ρ α} {perRound : Number} {most : Nat}
    {s : Progress σ α} {rest : List (Progress σ α)} {ended : SearchEnd σ α}
    (forward : Forward plan perRound most (s :: rest) ended) (accepted : plan.graph.Accepted)
    (root : s.committed = 0) : RunsForward plan perRound most (s :: rest) ended := by
  obtain ⟨sane, follows⟩ := (forward.poised _ (List.mem_of_getLast? forward.last)).toCommitted
  have linked := sane.faithful.toLinked
  refine ⟨forward.result, forward.last, congrArg some root, forward.rounds, ?_, forward.spared, ?_,
    forward.playouts_le⟩
  · intro s member
    refine ⟨(forward.poised s member).alive accepted, ?_⟩
    have onPath := forward.below s member
    rcases Nat.eq_zero_or_pos s.committed with root | pos
    · rw [root]
      exact root_alive accepted sane.faithful
    · have inside := Nat.lt_of_le_of_lt (linked.le_of_passes sane.committed_lt onPath)
        sane.committed_lt
      obtain ⟨p, m, lt, child⟩ := linked.parent _ pos inside
      have parent := (linked.child p (Nat.lt_trans lt inside) m _ child).2.2.1
      exact (follows.busiest linked onPath parent).1
  · exact fun c onPath p parent => (follows.busiest linked onPath parent).2

/-- Whenever the clock stops it, a search in rounds comes to its end and has run forward; with two
looks for every playout it has finished.  Without a limit on the time it is that search, however
many rounds it is allowed beyond the number of playouts. -/
theorem rounds_run_forward {plan : Plan σ ρ α} {perRound : Number} {most : Nat}
    (steady : plan.untimed.Steady most) (rounds : plan.tuning.perRound = some perRound)
    (oracle : σ) :
    (∀ looks,
      RunsForward plan.untimed perRound most (plan.roundHistory perRound looks oracle)
        (plan.searchedWithin looks oracle) ∧
      (2 * most ≤ looks → Finished plan.untimed perRound most
        (plan.roundHistory perRound looks oracle) (plan.searchedWithin looks oracle))) ∧
    (plan.timeLimit = none →
      (∀ looks, 2 * most ≤ looks → plan.searchedWithin looks oracle = plan.searched oracle) ∧
      ∀ bound, most ≤ bound → searchRounds plan perRound bound plan.budget (plan.opened oracle) =
        plan.searched oracle) := by
  have accepted : plan.untimed.graph.Accepted := steady.accepted
  have sane : Sane plan.untimed.toProblem (fun _ => True) (plan.opened oracle) :=
    (sane_initial oracle).report _
  refine ⟨fun looks => ?_, fun timeless => ?_⟩
  · have routed := routed_initial (α := α) plan.graph oracle
    have opened : Poised plan.untimed (plan.opened oracle) :=
      ⟨⟨sane, .root⟩, [], routed.ended, routed.airborne, routed.visits_eq, routed.playouts_eq⟩
    have searched : plan.searchedWithin looks oracle = searchRoundsWithin plan.untimed perRound
        looks plan.untimed.budget (plan.opened oracle) := by
      have rounds : plan.untimed.tuning.perRound = some perRound := rounds
      rw [Plan.searchedWithin, searchWithin, rounds]
    obtain ⟨forward, finishes⟩ :=
      searchRoundsWithin_forward steady rounds looks opened (Nat.zero_le most)
    rw [searched]
    exact ⟨forward.runsForward accepted rfl, fun enough => finishes enough (.inl rfl)⟩
  · rw [Plan.untimed_eq timeless] at steady
    have paced := steady.toPaced
    have wf := steady.accepted.wellFormed
    refine ⟨fun looks enough => searchedWithin_enough paced wf enough oracle,
      fun bound enough => ?_⟩
    have above := paced.perRound perRound rounds
    have within : ∀ bound, most ≤ bound →
        searchRoundsWithin plan perRound (2 * most) plan.budget (plan.opened oracle) =
          searchRounds plan perRound bound plan.budget (plan.opened oracle) := fun bound enough =>
      searchRoundsWithin_enough paced wf above (2 * most) sane (Nat.le_refl _) enough
    rw [Plan.searched, search, rounds, paced.roundBound_eq, ← within bound enough,
      within most (Nat.le_refl _)]

/-! Rounds of two playouts where one move is a dead end. -/

def roundSettings : Settings := { Settings.small 5 1 with playoutsPerRound := some 2 }

def roundPlan : Plan Unit Endless Float :=
  roundSettings.planWith EGraph.detourGraph Oracle.flat Policy.uniform Transform.reciprocal
    (fun _ => Endless.zeroes) Endless.zeroes

def hurriedPlan : Plan Unit Endless Float := { roundPlan with timeLimit := some 0 }

theorem roundPlan_steady : roundPlan.Steady 5 := by
  have bounded : roundSettings.Bounded := by
    refine ⟨by decide, by decide, ?_, .inl rfl, by decide, by decide, by decide, by decide,
      by decide, by decide⟩
    intro limit limited
    cases limited
  have typed : roundSettings.WellTyped := by
    refine ⟨⟨1, rfl⟩, ⟨1, rfl⟩, by decide, ⟨_, rfl, rfl⟩, ?_⟩
    intro rounds same
    cases same
    trivial
  exact Settings.planWith_steady _ _ bounded typed ⟨rfl, ⟨5, rfl, rfl⟩, rfl⟩
    EGraph.detourGraph_accepted (Oracle.flat_convertible _) Draws.lawful_endless rfl rfl

/-- Three looks are enough for one round and for one playout of the next. -/
theorem rounds_run_forward_detour :
    roundPlan.untimed.Steady 5 ∧ hurriedPlan.untimed.Steady 5 ∧
    RunsForward hurriedPlan.untimed 2 5 (hurriedPlan.roundHistory 2 3 ())
      (hurriedPlan.searchedWithin 3 ()) ∧
    RunsForward roundPlan.untimed 2 5 (roundPlan.roundHistory 2 10 ()) (roundPlan.searched ()) ∧
    Finished roundPlan.untimed 2 5 (roundPlan.roundHistory 2 10 ()) (roundPlan.searched ()) ∧
    ∀ bound, 5 ≤ bound → searchRounds roundPlan 2 bound roundPlan.budget (roundPlan.opened ()) =
      roundPlan.searched () := by
  have hurriedSteady : hurriedPlan.untimed.Steady 5 := roundPlan_steady
  have steady : roundPlan.untimed.Steady 5 := roundPlan_steady
  obtain ⟨hurried, _⟩ := rounds_run_forward hurriedSteady rfl ()
  obtain ⟨forward, whole⟩ := rounds_run_forward steady rfl ()
  obtain ⟨same, bounds⟩ := whole rfl
  obtain ⟨runs, finishes⟩ := forward 10
  have finished := finishes (Nat.le_refl _)
  rw [same 10 (Nat.le_refl _)] at runs finished
  exact ⟨steady, hurriedSteady, (hurried 3).1, runs, finished, bounds⟩

set_option maxRecDepth 4000 in
/-- With no time at all the checks pass, nothing is played, and nothing is committed to. -/
theorem no_time_for_rounds :
    Settings.ofOptions (Options.small 5 1 ++ [(.text "playouts_per_round", .number 2),
      (.text "time_limit", .number 0)]) = .ok { roundSettings with timeLimit := some 0 } ∧
    hurriedPlan = { roundSettings with timeLimit := some 0 }.planWith EGraph.detourGraph Oracle.flat
      Policy.uniform Transform.reciprocal (fun _ => Endless.zeroes) Endless.zeroes ∧
    hurriedPlan.untimed.Steady 5 ∧ hurriedPlan.tuning.perRound = some 2 ∧
    (hurriedPlan.searched ()).result = .ok () ∧
    (hurriedPlan.searched ()).progress.playouts ≠ 5 ∧
    ((hurriedPlan.searched ()).progress.tree.node
      (hurriedPlan.searched ()).progress.committed).terminal = false := by
  refine ⟨rfl, rfl, roundPlan_steady, rfl, rfl, ?_, ?_⟩
  · decide +kernel
  · decide +kernel

end EGraphSearch
