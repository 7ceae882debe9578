import EGraphSearch.Proofs.Optimum
import EGraphSearch.Proofs.Search.MatchedRuns

/-!
# Runs depend on what the root leads to

Two e-graphs may differ in their numbers and names, in the order of their records and in whatever
their roots do not lead to.  If the rest is matched, and the oracles answer alike on corresponding
terms, one worker does the same on both of them, step by step, and comes to corresponding outcomes.
-/

set_option autoImplicit false

namespace EGraphSearch

variable {σ σ' ρ α : Type}

/-! ## Policies -/

section Policies

variable [Draws ρ] {g g' : EGraph} {M : Matching g g'}

/-- Policies that weigh corresponding members alike. -/
inductive Matching.Policies (M : Matching g g') : Policy → Policy → Prop
  | uniform : Policies M .uniform .uniform
  | weighted {w w' : Weighting}
      (same : ∀ c n, g.Offers c n → w'.weight g' (M.node n) = w.weight g n) :
      Policies M (.weighted w) (.weighted w')

omit [Draws ρ] in
/-- A policy that goes by its name weighs corresponding members alike. -/
theorem Matching.policies_of_name (M : Matching g g') (leveled : g.Leveled) (leveled' : g'.Leveled)
    {name : Datum} {policy : Policy} (known : Policy.ofName name = .ok policy) :
    M.Policies policy policy := by
  unfold Policy.ofName at known
  split at known
  · cases known
    exact .uniform
  · cases known
    refine .weighted fun c n offers => ?_
    simp only [Weighting.weight, levelWeight, M.nodeLevel_eq leveled leveled' offers]
  · split at known <;> simp at known

omit [Draws ρ] in
theorem Policy.moveAt_map (f : Nat → Nat) (moves : List Nat) (drawn : Except Fault Nat × ρ) :
    Agree (fun n n' => n ∈ moves ∧ n' = f n) (moveAt moves drawn).1
      (moveAt (moves.map f) drawn).1 ∧
    (moveAt (moves.map f) drawn).2 = (moveAt moves drawn).2 := by
  rcases drawn with ⟨fault | i, source⟩
  · exact ⟨.fault fault, rfl⟩
  · simp only [moveAt, List.getElem?_map]
    cases picked : moves[i]? with
    | none => exact ⟨.fault _, rfl⟩
    | some n => exact ⟨.value ⟨List.mem_of_getElem? picked, rfl⟩, rfl⟩

theorem Matching.Policies.choosers {policy policy' : Policy}
    (policies : M.Policies policy policy') :
    M.Choosers (ρ := ρ) policy.choose policy'.choose := by
  intro c moves source offers
  have uniform : Agree (fun n n' => n ∈ moves ∧ n' = M.node n)
        (Policy.chooseUniform g moves source).1
        (Policy.chooseUniform g' (moves.map M.node) source).1 ∧
      (Policy.chooseUniform g' (moves.map M.node) source).2 =
        (Policy.chooseUniform g moves source).2 := by
    simp only [Policy.chooseUniform, List.length_map]
    exact Policy.moveAt_map M.node moves _
  cases policies with
  | uniform => exact uniform
  | @weighted w w' same =>
      have weights : (moves.map M.node).map (w'.weight g') = moves.map (w.weight g) := by
        rw [List.map_map]
        exact List.map_congr_left fun n listed => same c n (offers n listed)
      simp only [Policy.choose, Policy.chooseWeighted, weights]
      split
      · exact ⟨.fault _, rfl⟩
      · split
        · exact uniform
        · exact Policy.moveAt_map M.node moves _

end Policies

/-! ## Two searches abreast -/

section Abreast

variable [Scalar α]

/-- What two searches can come to that play from the same places of their trees, with the same
draws, and commit to the same children.  Whatever makes them stop, a clock included, they have come
to this. -/
inductive Abreast (plan : Plan σ ρ α) (plan' : Plan σ' ρ α) (state : σ) (state' : σ') :
    Progress σ α → Progress σ' α → Prop
  | opened : Abreast plan plan' state state' (plan.opened state) (plan'.opened state')
  | played {s next : Progress σ α} {s' next' : Progress σ' α} {start : Nat} {source : ρ}
      {leaf leaf' : Leaf α} (abreast : Abreast plan plan' state state' s s')
      (inside : start < s.tree.size)
      (played : playout plan.toProblem plan.tuning start source s = (.ok leaf, next))
      (played' : playout plan'.toProblem plan'.tuning start source s' = (.ok leaf', next')) :
      Abreast plan plan' state state' (next.record plan.tuning leaf)
        (next'.record plan'.tuning leaf')
  | committed {s : Progress σ α} {s' : Progress σ' α} {child : Nat}
      (abreast : Abreast plan plan' state state' s s') (inside : child < s.tree.size) :
      Abreast plan plan' state state' (s.commit child) (s'.commit child)

variable {plan : Plan σ ρ α} {plan' : Plan σ' ρ α} {state : σ} {state' : σ'}
  {s : Progress σ α} {s' : Progress σ' α}

theorem Abreast.course (abreast : Abreast plan plan' state state' s s') : Course plan state s := by
  induction abreast with
  | opened => exact .opened
  | played _ inside played _ ih => exact .played ih inside played
  | committed _ inside ih => exact .committed ih inside

theorem Abreast.progresses {M : Matching plan.graph plan'.graph} {R : σ → σ' → Prop}
    (matched : Plan.Matched M R) (related : R state state')
    (abreast : Abreast plan plan' state state' s s') : M.Progresses R s s' := by
  induction abreast with
  | opened => exact .opened M related
  | @played s next s' next' start source leaf leaf' before inside played played' ih =>
      have faithful := (before.course.sane matched.accepted.wellFormed).faithful
      obtain ⟨agree, after⟩ := matched.playout ih faithful inside plan.tuning source
      rw [matched.tuning_eq] at played' ⊢
      rw [played, played'] at agree after
      cases agree with
      | value leaves => exact after.record leaves plan.tuning
  | committed _ _ ih => exact ih.commit _

/-- All that two plans have in common on matched e-graphs.  The steps of searches abreast agree, and
so do their conclusions.  Whole extractions agree if the rounds, or the playouts, have a limit that
is not the clock. -/
structure Matching.Runs {g g' : EGraph} (M : Matching g g') (R : σ → σ' → Prop)
    (plan : Plan σ ρ α) (plan' : Plan σ' ρ α) (state : σ) (state' : σ') : Prop where
  progresses : ∀ s s', Abreast plan plan' state state' s s' → M.Progresses R s s'
  plays : ∀ s s', Abreast plan plan' state state' s s' → ∀ start source, start < s.tree.size →
    Agree M.Leaves (playout plan.toProblem plan.tuning start source s).1
      (playout plan'.toProblem plan'.tuning start source s').1
  commits : ∀ s s', Abreast plan plan' state state' s s' →
    s'.tree.mostVisited s'.committed true =
      (s.tree.mostVisited s.committed true).map (Option.map (Prod.map M.node id))
  concludes : ∀ s s', Abreast plan plan' state state' s s' →
    Agree M.Outcomes (conclude plan s).1 (conclude plan' s').1
  extracts : plan.tuning.perRound = none ∨ plan.budget.remaining?.isSome →
    Agree M.Outcomes (extract plan state).1 (extract plan' state').1 ∧
      M.Progresses R (extract plan state).2 (extract plan' state').2

theorem Plan.Matched.runs {M : Matching plan.graph plan'.graph} {R : σ → σ' → Prop}
    (matched : Plan.Matched M R) (related : R state state') : M.Runs R plan plan' state state' := by
  have sane := fun s s' (abreast : Abreast plan plan' state state' s s') =>
    abreast.course.sane matched.accepted.wellFormed
  constructor
  · exact fun s s' abreast => abreast.progresses matched related
  · intro s s' abreast start source inside
    rw [matched.tuning_eq]
    exact (matched.playout (abreast.progresses matched related) (sane s s' abreast).faithful inside
      plan.tuning source).1
  · intro s s' abreast
    have progresses := abreast.progresses matched related
    rw [progresses.committed_eq]
    exact progresses.trees.mostVisited_eq s.committed true
  · intro s s' abreast
    exact (matched.conclude (abreast.progresses matched related) (sane s s' abreast).faithful).1
  · exact matched.extract related

end Abreast

/-- One worker does the same on two matched e-graphs: with the same settings, the same draws,
policies that weigh alike and oracles that answer alike on corresponding valid terms.  It builds the
same tree, node by node, and comes to corresponding terms at the same costs, with the same
counts. -/
theorem Matching.runs_correspond [Draws ρ] {g g' : EGraph} (M : Matching g g')
    {R : σ → σ' → Prop} {s : Settings} {oracle : Oracle σ} {oracle' : Oracle σ'}
    {policy policy' : Policy} {state : σ} {state' : σ'} (accepted : g.Accepted)
    (accepted' : g'.Accepted) (checkable : g.Checkable) (checkable' : g'.Checkable)
    (alone : Number.below 1 s.numWorkers = false) (policies : M.Policies policy policy')
    (askers : M.Askers R (oracle.asker g) (oracle'.asker g')) (related : R state state')
    (transform : Transform) (stream : Nat → ρ) (last : ρ) :
    M.Runs R (s.planWith g oracle policy transform stream last)
      (s.planWith g' oracle' policy' transform stream last) state state' := by
  have matched : @Plan.Matched σ σ' ρ Float (s.planWith g oracle policy transform stream last)
      (s.planWith g' oracle' policy' transform stream last) M R := {
    accepted := accepted
    accepted' := accepted'
    checkable := checkable
    checkable' := checkable'
    choosers := policies.choosers
    askers := askers
    valuation_eq := rfl
    alone := alone
    tuning_eq := rfl
    maxPlayouts_eq := rfl
    timeLimit_eq := rfl
    stream_eq := rfl
    lastStream_eq := rfl
    summarised_eq := rfl }
  exact matched.runs related

/-! ## A mirror image -/

namespace EGraph

/-- The two classes with a leaf and a reference to each other, under other names and in another
order, next to a class that nobody refers to. -/
def mirrorGraph : EGraph where
  classIds := #[.text "spare", .text "q", .text "p"]
  nodeIds := #[.text "v", .text "z", .text "t", .text "s", .text "u"]
  ops := #[.text "y", .text "z", .text "x", .text "f", .text "g"]
  children := #[[], [1], [], [1], [2]]
  owner := #[1, 0, 2, 2, 1]
  members := #[[1], [4, 0], [3, 2]]
  root := 2
  levels := ⟨#[.finite 1, .finite 0, .finite 0],
    #[.finite 0, .finite 1, .finite 0, .finite 1, .finite 1]⟩

theorem mirrorGraph_accepted : mirrorGraph.Accepted := by
  have arranged : arrange [⟨.text "spare", [.text "z"]⟩, ⟨.text "q", [.text "u", .text "v"]⟩,
        ⟨.text "p", [.text "s", .text "t"]⟩]
      [⟨.text "v", .text "y", []⟩, ⟨.text "z", .text "z", [.text "q"]⟩, ⟨.text "t", .text "x", []⟩,
        ⟨.text "s", .text "f", [.text "q"]⟩, ⟨.text "u", .text "g", [.text "p"]⟩] (.text "p") =
      .ok mirrorGraph.toArena := by
    with_unfolding_all rfl
  exact .of_settled arranged 2 rfl ⟨0, rfl⟩

theorem mirrorGraph_checkable : mirrorGraph.Checkable :=
  checkable_of_labels (by simp [mirrorGraph, Label.key, Label.Key.isNaN])

theorem reaches_loopGraph {c : Nat} (reached : loopGraph.Reaches c) : c = 0 ∨ c = 1 := by
  have two : c < 2 := reached.lt loopGraph_accepted.wellFormed
  omega

def loopMatching : Matching loopGraph mirrorGraph where
  cls c := 2 - c
  node n := [3, 2, 4, 0].getD n 0
  root_eq := rfl
  members_eq c reached := by
    rcases reaches_loopGraph reached with rfl | rfl <;> rfl
  children_eq c n offers := by
    have four : n < 4 := offers.lt loopGraph_accepted.wellFormed
    obtain rfl | rfl | rfl | rfl : n = 0 ∨ n = 1 ∨ n = 2 ∨ n = 3 := by omega
    all_goals rfl
  cls_inj c d first second same := by
    have := reaches_loopGraph first
    have := reaches_loopGraph second
    omega

end EGraph

theorem Agree.refl {β : Type} {R : β → β → Prop} (same : ∀ b, R b b)
    (result : Except Fault β) : Agree R result result := by
  cases result with
  | error fault => exact .fault fault
  | ok b => exact .value (same b)

theorem Oracle.flat_askers {g g' : EGraph} (M : Matching g g') :
    M.Askers (fun _ _ => True) (Oracle.flat.asker g) (Oracle.flat.asker g') :=
  fun _ _ _ _ _ _ _ _ => ⟨Agree.refl (R := fun reply reply' => reply'.cost? = reply.cost?)
    (fun _ => rfl) (Reply.ofResponse (.answered (.number 1))), trivial⟩

def mirrorPlan (most : Nat) (attempts : Number) : Plan Unit Pcg64 Float :=
  (Settings.small most attempts).planWith EGraph.mirrorGraph Oracle.flat Policy.uniform
    Transform.reciprocal (smallPlan most attempts).stream (smallPlan most attempts).lastStream

/-- A small run, and the same run on the mirror image. -/
theorem Matching.runs_correspond_mirror :
    EGraph.loopGraph.Accepted ∧ EGraph.mirrorGraph.Accepted ∧ EGraph.loopGraph.Checkable ∧
    EGraph.mirrorGraph.Checkable ∧ Number.below 1 (Settings.small 3 1).numWorkers = false ∧
    EGraph.loopMatching.Policies .uniform .uniform ∧
    EGraph.loopMatching.Askers (fun _ _ => True) (Oracle.flat.asker EGraph.loopGraph)
      (Oracle.flat.asker EGraph.mirrorGraph) ∧
    EGraph.loopMatching.Runs (fun _ _ => True) (smallPlan 3 1) (mirrorPlan 3 1) () () ∧
    ∃ outcome outcome' after after', extract (smallPlan 3 1) () = (.ok outcome, after) ∧
      extract (mirrorPlan 3 1) () = (.ok outcome', after') ∧
      EGraph.loopMatching.Outcomes outcome outcome' ∧
      EGraph.loopMatching.Trees after.tree after'.tree := by
  have accepted := EGraph.loopGraph_accepted
  have accepted' := EGraph.mirrorGraph_accepted
  have policies : EGraph.loopMatching.Policies .uniform .uniform :=
    EGraph.loopMatching.policies_of_name accepted.leveled accepted'.leveled
      (show Policy.ofName (.text "uniform") = .ok .uniform from rfl)
  have askers := Oracle.flat_askers EGraph.loopMatching
  have runs : EGraph.loopMatching.Runs (fun _ _ => True) (smallPlan 3 1) (mirrorPlan 3 1) () () :=
    Matching.runs_correspond EGraph.loopMatching accepted accepted' EGraph.loopGraph_checkable
      EGraph.mirrorGraph_checkable rfl policies askers trivial _ _ _
  refine ⟨accepted, accepted', EGraph.loopGraph_checkable, EGraph.mirrorGraph_checkable, rfl,
    policies, askers, runs, ?_⟩
  obtain ⟨outcome, after, extracted, _⟩ := extract_ok smallPlan_regular
    (valid_priced accepted EGraph.loopGraph_checkable) ()
  obtain ⟨agree, progresses⟩ := runs.extracts (.inl rfl)
  rcases extracted' : extract (mirrorPlan 3 1) () with ⟨result, after'⟩
  rw [extracted, extracted'] at agree progresses
  cases agree with
  | value outcomes => exact ⟨outcome, _, after, after', extracted, rfl, outcomes, progresses.trees⟩

/-! ## A name that makes a difference -/

namespace EGraph

/-- One class with one leaf. -/
def pointGraph : EGraph := { unequalGraph with classIds := #[.text "a"] }

theorem pointGraph_accepted : pointGraph.Accepted := by
  have arranged : arrange [⟨.text "a", [.text "x"]⟩] [⟨.text "x", .text "x", []⟩] (.text "a") =
      .ok pointGraph.toArena := by
    with_unfolding_all rfl
  exact .of_settled arranged 2 rfl ⟨0, rfl⟩

def pointMatching : Matching pointGraph unequalGraph where
  cls := id
  node := id
  root_eq := rfl
  members_eq _ _ := (List.map_id _).symm
  children_eq _ _ _ := (List.map_id _).symm
  cls_inj _ _ _ _ same := same

end EGraph

def pointPlan (most : Nat) (attempts : Number) : Plan Unit Pcg64 Float :=
  (Settings.small most attempts).planWith EGraph.pointGraph Oracle.flat Policy.uniform
    Transform.reciprocal (smallPlan most attempts).stream (smallPlan most attempts).lastStream

set_option maxRecDepth 4000 in
/-- Two graphs that differ in the name of their class only.  The run returns where the name is equal
to itself, and fails where it is not. -/
theorem runs_part_at_unequal_class :
    EGraph.pointGraph.Accepted ∧ EGraph.unequalGraph.Accepted ∧ EGraph.pointGraph.Named ∧
    EGraph.unequalGraph.Named ∧ EGraph.pointMatching.Policies .uniform .uniform ∧
    EGraph.pointMatching.Askers (fun _ _ => True) (Oracle.flat.asker EGraph.pointGraph)
      (Oracle.flat.asker EGraph.unequalGraph) ∧
    (extract (pointPlan 1 1) ()).1.isOk = true ∧
    (extract (unequalPlan 1 1) ()).1 =
      .error (.violation (.notMember (.text "x") (.number (.float (0 / 0))))) := by
  refine ⟨EGraph.pointGraph_accepted, EGraph.unequalGraph_accepted,
    EGraph.named_of_labels (by simp [EGraph.pointGraph]), EGraph.unequalGraph_named, .uniform,
    Oracle.flat_askers _, ?_, ?_⟩
  · decide +kernel
  · with_unfolding_all rfl

end EGraphSearch
