import EGraphSearch.Proofs.Extractor
import EGraphSearch.Proofs.Search.Extraction
import EGraphSearch.Proofs.Search.VisitFlow

/-!
# Visits in whole runs

Whoever runs the playouts of a search, they are traffic on its tree: between them the search only
commits to nodes.  So the flow of visits is conserved, and at the end of a run the visits by class
are those of its playouts.  A run that the clock stops is traffic like any other.
-/

set_option autoImplicit false

namespace EGraphSearch

section Runs

variable {σ ρ α : Type} [Scalar α] {plan : Plan σ ρ α} {s u v : Progress σ α} {start index : Nat}
  {limit : Option Number} {constants : Option (ScoreConstants α)}

/-- Only playouts lie between two states of a search, and all of them have landed. -/
structure Onward (plan : Plan σ ρ α) (s u : Progress σ α) : Prop where
  traffic : Traffic plan.toProblem plan.tuning u []
  size_le : s.tree.size ≤ u.tree.size
  committed_eq : u.committed = s.committed

theorem Onward.refl (traffic : Traffic plan.toProblem plan.tuning s []) : Onward plan s s :=
  ⟨traffic, Nat.le_refl _, rfl⟩

theorem Onward.trans (first : Onward plan s u) (second : Onward plan u v) :
    Onward plan s v where
  traffic := second.traffic
  size_le := Nat.le_trans first.size_le second.size_le
  committed_eq := second.committed_eq.trans first.committed_eq

theorem onward_playout (wf : plan.graph.toArena.WellFormed)
    (traffic : Traffic plan.toProblem plan.tuning s []) (inside : start < s.tree.size)
    {source : ρ} {leaf : Leaf α}
    (played : playout plan.toProblem plan.tuning start source s = (.ok leaf, u)) :
    Onward plan s (u.record plan.tuning leaf) where
  traffic := .played traffic inside played
  size_le := by
    obtain ⟨ends, routed⟩ := traffic.routed wf
    rw [tree_record]
    exact (routed.played wf inside played).2.size_le
  committed_eq := by
    obtain ⟨_, _, _, _, _, _, committed, _⟩ := playout_cases played
    rw [committed_record, committed]

theorem finish_keeps (tuning : Tuning α) (flight : Flight) (leaf : Leaf α) (shared : Shared σ α) :
    (shared.finish tuning flight leaf).progress.tree.size = shared.progress.tree.size ∧
      (shared.finish tuning flight leaf).progress.committed = shared.progress.committed := by
  have reverted : (shared.abandon tuning flight).progress.tree.size = shared.progress.tree.size ∧
      (shared.abandon tuning flight).progress.committed = shared.progress.committed := by
    refine ⟨(abandon_visits tuning flight shared).1.size_eq, ?_⟩
    unfold Shared.abandon
    split <;> rfl
  have credited := Tree.restated_updatePath (f := SearchNode.credit leaf.value)
    (fun n => ⟨_, _, _, rfl⟩) flight.path (shared.abandon tuning flight).progress.tree
  constructor
  · simp only [Shared.finish, tree_record, Shared.withTree, Tree.creditPath]
    exact credited.size_eq.trans reverted.1
  · simp only [Shared.finish, committed_record, Shared.withTree, reverted.2]

theorem onward_fly (wf : plan.graph.toArena.WellFormed)
    (traffic : Traffic plan.toProblem plan.tuning s []) (inside : start < s.tree.size)
    {budget : Budget} {started : Nat} {after : Shared σ α}
    (flown : Shared.fly plan constants start index ⟨budget, started, s⟩ = (.ok (), after)) :
    Onward plan s after.progress := by
  unfold Shared.fly at flown
  split at flown
  · simp at flown
  · rename_i flight begun launched
    obtain ⟨ends, routed⟩ := traffic.routed wf
    have kept := (routed.launched wf inside launched).2
    obtain ⟨_, _, _, _, _, _, committed⟩ := launch_cases launched
    unfold land at flown
    split at flown
    · simp at flown
    · rename_i leaf sampling _
      obtain rfl := congrArg Prod.snd flown
      have aloft : Traffic plan.toProblem plan.tuning begun.progress [flight] :=
        .launched traffic inside launched
      obtain ⟨size, same⟩ := finish_keeps plan.tuning flight leaf
        { begun with progress := begun.progress.afterSampling sampling }
      have rolled : Traffic plan.toProblem plan.tuning
          (begun.progress.afterSampling sampling) [flight] := .aside aloft rfl rfl
      refine ⟨?_, Nat.le_trans kept.size_le (Nat.le_of_eq size.symm), same.trans committed⟩
      have finishing : [flight][0]? = some flight := rfl
      exact rolled.finished finishing

theorem onward_work (wf : plan.graph.toArena.WellFormed) (bound : Nat) :
    ∀ {shared after : Shared σ α}, Traffic plan.toProblem plan.tuning shared.progress [] →
      start < shared.progress.tree.size →
      work plan constants start limit bound shared = (.ok (), after) →
      Onward plan shared.progress after.progress := by
  induction bound with
  | zero =>
      intro shared after traffic _ worked
      obtain rfl : shared = after := congrArg Prod.snd worked
      exact .refl traffic
  | succ bound ih =>
      intro shared after traffic inside worked
      have stopped : shared = after → Onward plan shared.progress after.progress := by
        rintro rfl
        exact .refl traffic
      rw [work_step] at worked
      split at worked
      · exact stopped (congrArg Prod.snd worked)
      · split at worked
        · exact stopped (congrArg Prod.snd worked)
        · split at worked
          · simp at worked
          · rename_i landed flown
            have first := onward_fly wf traffic inside flown
            exact first.trans (ih first.traffic (Nat.lt_of_lt_of_le inside first.size_le) worked)

theorem onward_shift (wf : plan.graph.toArena.WellFormed) {shared after : Shared σ α}
    (traffic : Traffic plan.toProblem plan.tuning shared.progress [])
    (inside : start < shared.progress.tree.size)
    (worked : shift plan start limit shared = (.ok (), after)) :
    Onward plan shared.progress after.progress := by
  unfold shift at worked
  split at worked
  · exact onward_work wf _ traffic inside worked
  · exact onward_work wf _ traffic inside worked
  · simp at worked

theorem onward_shifts (wf : plan.graph.toArena.WellFormed) (workers : Nat) :
    ∀ {shared after : Shared σ α}, Traffic plan.toProblem plan.tuning shared.progress [] →
      start < shared.progress.tree.size →
      shifts plan start limit workers shared = (.ok (), after) →
      Onward plan shared.progress after.progress := by
  induction workers with
  | zero =>
      intro shared after traffic _ worked
      obtain rfl : shared = after := congrArg Prod.snd worked
      exact .refl traffic
  | succ workers ih =>
      intro shared after traffic inside worked
      unfold shifts at worked
      split at worked
      · rename_i relieved shifted
        have first := onward_shift wf traffic inside shifted
        exact first.trans (ih first.traffic (Nat.lt_of_lt_of_le inside first.size_le) worked)
      · simp at worked

/-- A batch that comes to its end consists of playouts that all have landed, whoever ran them. -/
theorem onward_batch (wf : plan.graph.toArena.WellFormed) {budget : Budget} {n : Nat}
    (traffic : Traffic plan.toProblem plan.tuning s []) (inside : start < s.tree.size)
    (ran : (plan.runBatch start limit budget s).ran = .ok n) :
    Onward plan s (plan.runBatch start limit budget s).progress := by
  unfold Plan.runBatch at ran ⊢
  split at ran
  · rename_i several
    rw [if_pos several]
    unfold runShared at ran ⊢
    split at ran
    · simp at ran
    · rename_i count whole
      rcases worked : shifts plan start limit count.toNat ⟨budget, 0, s⟩ with ⟨fault | _, shared⟩
      · simp [worked, Except.map] at ran
      · simp only
        have traffic : Traffic plan.toProblem plan.tuning
          (⟨budget, 0, s⟩ : Shared σ α).progress [] := traffic
        exact onward_shifts wf _ traffic inside worked
  · rename_i alone
    rw [if_neg alone]
    have spec := (runBatch_spec ran).batch
    generalize (EGraphSearch.runBatch plan start limit budget s).progress = u at spec
    refine spec.keeps (Q := fun v => Onward plan s v) ?_ (.refl traffic)
    intro i v next leaf before played
    exact before.trans (onward_playout wf before.traffic
      (Nat.lt_of_lt_of_le inside before.size_le) played)

theorem traffic_searched (wf : plan.graph.toArena.WellFormed) {oracle : σ}
    (ended : (plan.searched oracle).result = .ok ()) :
    Traffic plan.toProblem plan.tuning (plan.searched oracle).progress [] := by
  have opened : Traffic plan.toProblem plan.tuning (plan.opened oracle) [] :=
    .aside (.fresh oracle) rfl rfl
  have inside : (plan.opened oracle).committed < (plan.opened oracle).tree.size := Nat.one_pos
  unfold Plan.searched at ended ⊢
  cases rounds : plan.tuning.perRound with
  | none =>
      obtain ⟨count, ran⟩ := search_ran rounds ended
      simp only [search, rounds]
      exact (onward_batch wf opened inside ran).traffic
  | some perRound =>
      simp only [search, rounds] at ended ⊢
      refine (searchRounds_keeps (Q := fun s => Traffic plan.toProblem plan.tuning s [] ∧
        s.committed < s.tree.size) ?_ ?_ _ ⟨opened, inside⟩ ended).1
      · rintro budget s n ⟨traffic, inside⟩ ran
        have onward := onward_batch wf traffic inside ran
        refine ⟨onward.traffic, ?_⟩
        rw [onward.committed_eq]
        exact Nat.lt_of_lt_of_le inside onward.size_le
      · rintro s move child ⟨traffic, inside⟩ picked
        obtain ⟨ends, routed⟩ := traffic.routed wf
        exact ⟨.aside traffic rfl rfl,
          child_lt (p := plan.toProblem) (s := s) routed.ended.charted.toFaithful inside picked⟩

/-- However the playouts of a search interleave, what comes to a node with moves goes on to its
children, but for the playout that added the node.  So when all playouts have landed, and at the end
of every run, no class has more visits than there were playouts, and the root class has as many. -/
theorem visits_are_conserved (accepted : plan.graph.Accepted) :
    (∀ s flying, Traffic plan.toProblem plan.tuning s flying → FlowConserved s.tree flying) ∧
    (∀ s, Traffic plan.toProblem plan.tuning s [] →
      ClassVisits plan.graph s.tree s.playouts) ∧
    ∀ oracle outcome after, extract plan oracle = (.ok outcome, after) →
      ClassVisits plan.graph after.tree outcome.playouts := by
  have wf := accepted.wellFormed
  have landed : ∀ s, Traffic plan.toProblem plan.tuning s [] →
      ClassVisits plan.graph s.tree s.playouts := by
    intro s traffic
    obtain ⟨ends, routed⟩ := traffic.routed wf
    exact routed.classVisits accepted
  refine ⟨?_, landed, ?_⟩
  · intro s flying traffic
    obtain ⟨ends, routed⟩ := traffic.routed wf
    exact routed.flowConserved
  · intro oracle outcome after extracted
    obtain ⟨ended, concluded⟩ := extract_spec extracted
    rw [concluded.tree_eq, concluded.playouts_eq]
    exact landed _ (traffic_searched wf ended)

end Runs

/-- A playout is in flight, and a run has come to its end. -/
theorem visits_are_conserved_small :
    EGraph.loopGraph.Accepted ∧
    (∃ s flight, Traffic (smallPlan 3 1).toProblem (smallPlan 3 1).tuning s [flight] ∧
      FlowConserved s.tree [flight]) ∧
    (∃ s, Traffic (smallPlan 3 1).toProblem (smallPlan 3 1).tuning s [] ∧
      ClassVisits EGraph.loopGraph s.tree s.playouts) ∧
    ∃ outcome after, extract (smallPlan 3 1) () = (.ok outcome, after) ∧
      ClassVisits EGraph.loopGraph after.tree outcome.playouts := by
  have accepted : (smallPlan 3 1).graph.Accepted := EGraph.loopGraph_accepted
  obtain ⟨flow, landed, extracted⟩ := visits_are_conserved accepted
  let shared : Shared Unit Float := ⟨(smallPlan 3 1).budget, 0, Progress.initial ()⟩
  have loss : (smallPlan 3 1).tuning.virtualLoss = some 1 := rfl
  have root : 0 < shared.progress.tree.size := Nat.one_pos
  have charted : Charted EGraph.loopGraph shared.progress.tree := charted_initial
  have fresh : Traffic (smallPlan 3 1).toProblem (smallPlan 3 1).tuning shared.progress [] :=
    .fresh ()
  obtain ⟨flight, tree, launched, _⟩ := launch_spec accepted.wellFormed ⟨1, 0⟩ loss charted root 0
  have flying : Traffic (smallPlan 3 1).toProblem (smallPlan 3 1).tuning _ [flight] :=
    .launched fresh root launched
  obtain ⟨outcome, after, ended, _⟩ := extract_ok smallPlan_regular
    (valid_priced accepted EGraph.loopGraph_checkable) ()
  exact ⟨accepted, ⟨_, flight, flying, flow _ _ flying⟩,
    ⟨_, .fresh (), landed _ (.fresh ())⟩, outcome, after, ended, extracted () outcome after ended⟩

end EGraphSearch
