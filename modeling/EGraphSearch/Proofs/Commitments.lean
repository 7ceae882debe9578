import EGraphSearch.Proofs.Extractor
import EGraphSearch.Proofs.Search.Committing

/-!
# Commitments

A search in rounds commits to one child after another.  The final term is read off from the root
anew, without regard to where the search has committed, and by a rule that does not leave out dead
ends.  So it honours the commitments only where dead ends do not change the picks.
-/

set_option autoImplicit false

namespace EGraphSearch

variable {σ ρ α : Type} [Scalar α]

/-- How an extraction stands to its commitments: the tracker of the committed node, and the path to
that node from the root.  The greedy descent keeps to the path exactly if dead ends do not change
the picks on it, and then the final term honours the commitments.  Otherwise the descent leaves the
path beside a dead end that has as many visits as the committed child; if the dead end is picked,
the final term completes a tracker no further in, and nothing holds it to the path from there on. -/
structure CommitmentSpec (plan : Plan σ ρ α) (outcome : Outcome α) (after : Progress σ α)
    (t : Tracker) (path : List Nat) : Prop where
  replayed : replay plan.graph after.tree after.committed = .ok t
  path_eq : after.tree.pathFromRoot after.committed = .ok path
  keeps : after.tree.Follows false after.committed ↔ ∀ i ∈ path, i ≠ after.committed →
    after.tree.mostVisited i false = after.tree.mostVisited i true
  terminal : after.tree.Follows false after.committed →
    (after.tree.node after.committed).terminal = true → outcome.term = ⟨t.assignment plan.graph⟩
  completed : after.tree.Follows false after.committed → t.Completable plan.graph →
    searchCompletion plan.graph (some completionLimit) t ≠ .gaveUp →
    ∀ entry ∈ t.assignment plan.graph, entry ∈ outcome.term.assignment
  departs : ¬ after.tree.Follows false after.committed →
    ∃ i ∈ path, after.tree.Follows false i ∧ ∃ move c, c ∈ path ∧
      after.tree.mostVisited i true = .ok (some (move, c)) ∧
      (∃ dead ∈ (after.tree.node i).children, (after.tree.node dead.2).status = .deadEnd ∧
        (after.tree.node c).visits ≤ (after.tree.node dead.2).visits) ∧
      ∀ move' dead, after.tree.mostVisited i false = .ok (some (move', dead)) →
        (after.tree.node dead).status = .deadEnd →
        ∃ j ≤ i, after.tree.Follows false j ∧ ∃ u moves last,
          replay plan.graph after.tree j = .ok u ∧ Tracker.Leads plan.graph u moves last ∧
          last.isTerminal = true ∧ outcome.term = ⟨last.assignment plan.graph⟩

theorem Committed.concluded {plan : Plan σ ρ α} {s after : Progress σ α} {outcome : Outcome α}
    (wf : plan.graph.toArena.WellFormed) (committed : Committed plan s)
    (concluded : Concluded plan s after outcome) :
    ∃ t path, CommitmentSpec plan outcome after t path := by
  have faithful : Faithful plan.graph after.tree := concluded.tree_eq ▸ committed.sane.faithful
  have inside : after.committed < after.tree.size := by
    rw [concluded.tree_eq, concluded.committed_eq]
    exact committed.sane.committed_lt
  have followed : after.tree.Follows true after.committed := by
    rw [concluded.tree_eq, concluded.committed_eq]
    exact committed.follows
  have final := concluded.final
  rw [← concluded.tree_eq] at final
  have recommended := finalTerm_spec wf faithful final
  obtain ⟨t, replayed⟩ := faithful.replayed _ inside
  obtain ⟨path, spec⟩ := faithful.toLinked.pathSpec _ inside
  refine ⟨t, path, replayed, spec.path_eq, followed.iff_agree faithful.toLinked spec, ?_, ?_, ?_⟩
  · intro follows terminal
    exact recommended.eq_of_terminal wf faithful follows replayed
      (faithful.isTerminal_of_terminal inside replayed terminal)
  · intro follows completable tries entry chosen
    obtain ⟨moves, last, run, _, same⟩ :=
      recommended.completes_followed wf faithful follows replayed completable tries
    rw [same]
    exact run.assignment_mem wf (inv_of_replay wf replayed) chosen
  · intro apart
    rcases followed.or_departs faithful.toLinked spec with
      follows | ⟨i, onPath, follows, move, c, listed, picked, _, dead⟩
    · exact absurd follows apart
    · exact ⟨i, onPath, follows, move, c, listed, picked, dead, fun _ _ =>
        recommended.completes_above wf faithful follows⟩

/-- Every extraction of one worker stands to its commitments in this way, also one whose search the
clock has stopped. -/
theorem extract_commitments {plan : Plan σ ρ α} {oracle : σ} (accepted : plan.graph.Accepted) :
    (Number.below 1 plan.tuning.workers = false → ∀ outcome after,
      extract plan oracle = (.ok outcome, after) →
        ∃ t path, CommitmentSpec plan outcome after t path) ∧
    ∀ looks outcome after, extractWithin plan looks oracle = (.ok outcome, after) →
      ∃ t path, CommitmentSpec plan outcome after t path := by
  have wf := accepted.wellFormed
  constructor
  · intro alone outcome after extracted
    obtain ⟨ended, concluded⟩ := extract_spec extracted
    exact (committed_searched wf alone ended).concluded wf concluded
  · intro looks outcome after extracted
    obtain ⟨ended, concluded⟩ := extractWithin_cases extracted
    exact (committed_searchedWithin wf ended).concluded wf (conclude_spec concluded)

/-! ## A dead end that is picked -/

def EGraph.detourGraph : EGraph where
  classIds := #[.text "a", .text "b"]
  nodeIds := #[.text "d", .text "x", .text "y", .text "g"]
  ops := #[.text "d", .text "x", .text "y", .text "g"]
  children := #[[1], [], [], [0]]
  owner := #[0, 0, 0, 1]
  members := #[[0, 1, 2], [3]]
  root := 0
  levels := ⟨#[.finite 0, .finite 1], #[.finite 2, .finite 0, .finite 0, .finite 1]⟩

theorem EGraph.detourGraph_accepted : detourGraph.Accepted := by
  have arranged : arrange [⟨.text "a", [.text "d", .text "x", .text "y"]⟩, ⟨.text "b", [.text "g"]⟩]
      [⟨.text "d", .text "d", [.text "b"]⟩, ⟨.text "x", .text "x", []⟩,
        ⟨.text "y", .text "y", []⟩, ⟨.text "g", .text "g", [.text "a"]⟩] (.text "a") =
      .ok detourGraph.toArena := by
    with_unfolding_all rfl
  exact .of_settled arranged 3 rfl ⟨0, rfl⟩

/-- An oracle that has no cost for any term. -/
def Oracle.mute : Oracle Unit where
  ask _ _ state := (.answered .null, state)

theorem Oracle.mute_convertible (g : EGraph) : Oracle.mute.Convertible g := by
  intro term state n answered
  cases answered

def detourSettings : Settings := { Settings.small 3 1 with playoutsPerRound := some 3 }

/-- The completion of the final term draws the last node. -/
def detourPlan : Plan Unit Endless Float :=
  detourSettings.planWith EGraph.detourGraph Oracle.mute Policy.uniform Transform.reciprocal
    (fun _ => Endless.zeroes) ⟨⟨[2], 0⟩, by decide⟩

theorem extract_commitments_detour :
    EGraph.detourGraph.Accepted ∧
    (∃ outcome after t path, extract detourPlan () = (.ok outcome, after) ∧
      CommitmentSpec detourPlan outcome after t path) ∧
    ∃ outcome after t path, extractWithin detourPlan 2 () = (.ok outcome, after) ∧
      CommitmentSpec detourPlan outcome after t path := by
  have checkable : EGraph.detourGraph.Checkable :=
    EGraph.checkable_of_labels (by simp [EGraph.detourGraph, Label.key, Label.Key.isNaN])
  have bounded : detourSettings.Bounded := by
    refine ⟨by decide, by decide, ?_, .inl rfl, by decide, by decide, by decide, by decide,
      by decide, by decide⟩
    intro limit limited
    cases limited
  have typed : detourSettings.WellTyped := by
    refine ⟨⟨1, rfl⟩, ⟨1, rfl⟩, by decide, ⟨_, rfl, rfl⟩, ?_⟩
    intro rounds same
    cases same
    trivial
  have regular : detourPlan.Regular 3 :=
    Settings.planWith_regular _ _ bounded typed ⟨rfl, ⟨3, rfl, rfl⟩, rfl⟩
      EGraph.detourGraph_accepted checkable (Oracle.mute_convertible _) Draws.lawful_endless rfl rfl
  obtain ⟨outcome, after, extracted, _⟩ :=
    extract_ok regular (valid_priced EGraph.detourGraph_accepted checkable) ()
  obtain ⟨outcome', after', extracted'⟩ := extractWithin_ok regular 2 ()
  have accepted : detourPlan.graph.Accepted := EGraph.detourGraph_accepted
  obtain ⟨whole, stopped⟩ := extract_commitments accepted
  obtain ⟨t, path, spec⟩ := whole (by decide) outcome after extracted
  obtain ⟨t', path', spec'⟩ := stopped 2 outcome' after' extracted'
  exact ⟨EGraph.detourGraph_accepted, ⟨outcome, after, t, path, extracted, spec⟩,
    outcome', after', t', path', extracted', spec'⟩

/-- The search commits to the second child, and the first one is a dead end with as many visits. -/
example : (detourPlan.searched ()).progress.committed = 2 ∧
    ((detourPlan.searched ()).progress.tree.mostVisited 0 true).toOption = some (some (1, 2)) ∧
    ((detourPlan.searched ()).progress.tree.mostVisited 0 false).toOption = some (some (0, 1)) ∧
    ((detourPlan.searched ()).progress.tree.node 1).status = .deadEnd := by
  decide +kernel

end EGraphSearch
