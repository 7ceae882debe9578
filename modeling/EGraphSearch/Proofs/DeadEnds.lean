import EGraphSearch.Proofs.Commitments
import EGraphSearch.Proofs.Rollout.Choices
import EGraphSearch.Proofs.Totals
import EGraphSearch.Proofs.Tracker.DeadEnds

/-!
# Searches without dead ends

If no class depends on itself, no tracker that legal moves lead to is a dead end.  So every rollout
completes its tracker, and a search of one worker, whatever it plays, counts no dead end.
-/

set_option autoImplicit false

namespace EGraphSearch

open Tracker (Inv Leads)

/-! ## Rollouts -/

/-- An obliging guide completes every tracker. -/
theorem exists_complete_rolls {ρ : Type} {g : EGraph} {guide : Guide ρ} {t : Tracker}
    (accepted : g.Accepted) (layered : g.Layered) (obliging : guide.Obliging g) (inv : Inv g t)
    (source : ρ) :
    ∃ moves u last, Rolls g guide t source moves u last ∧ u.Ends g true := by
  have wf := accepted.wellFormed
  obtain ⟨moves, u, last, b, rolls, ends⟩ :=
    exists_rolls wf obliging _ source (Nat.lt_succ_self _) inv
  cases b with
  | true => exact ⟨moves, u, last, rolls, ends⟩
  | false =>
      have deadEnd : u.isDeadEnd g = true := ends
      simp [(rolls.leads.inv wf inv).not_deadEnd accepted layered] at deadEnd

/-! ## Playouts -/

section Playouts

variable {σ ρ α : Type} [Scalar α] {p : Problem σ ρ α}

theorem rollOnce_layered (accepted : p.graph.Accepted) (layered : p.graph.Layered) {keep : Bool}
    {s next : Sampling σ ρ α} (inv : Inv p.graph s.tracker)
    (rolled : s.rollOnce p keep = (.ok (), next)) :
    Inv p.graph next.tracker ∧ next.tally.deadEnds = s.tally.deadEnds := by
  have wf := accepted.wellFormed
  have invNext := (rollOnce_spec wf priced_trivial keep inv fun _ _ => trivial).1
  rw [rolled] at invNext
  refine ⟨invNext, ?_⟩
  rcases rollOnce_cases rolled with ⟨stuck, _⟩ | ⟨_, _, _, same, _⟩
  · obtain ⟨⟨moves, run⟩, _, deadEnd⟩ :=
      rollout_spec p.choose wf _ s.source (Nat.lt_succ_self _) inv
    simpa [(run.inv wf inv).not_deadEnd accepted layered] using deadEnd stuck
  · exact same

theorem rollMany_layered (accepted : p.graph.Accepted) (layered : p.graph.Layered) {keep : Bool}
    (count : Nat) : ∀ {s next : Sampling σ ρ α}, Inv p.graph s.tracker →
      s.rollMany p keep count = (.ok (), next) → next.tally.deadEnds = s.tally.deadEnds := by
  induction count with
  | zero =>
      intro s next _ rolled
      rw [(Prod.mk.inj rolled).2]
  | succ count ih =>
      intro s next inv rolled
      obtain ⟨after, once, rolled⟩ := rollMany_cases rolled
      obtain ⟨invAfter, same⟩ := rollOnce_layered accepted layered inv once
      rw [ih invAfter rolled, same]

theorem evaluateLeaf_layered (accepted : p.graph.Accepted) (layered : p.graph.Layered)
    {rollouts : Number} {tracker : Tracker} {e : Evaluator σ} {source : ρ} {leaf : Leaf α}
    {sampling : Sampling σ ρ α} (inv : Inv p.graph tracker)
    (evaluated : evaluateLeaf p rollouts tracker e source = (.ok leaf, sampling)) :
    leaf.deadEnds = 0 := by
  obtain ⟨count, _, rfl, rolled⟩ := evaluateLeaf_cases evaluated
  exact rollMany_layered accepted layered count.toNat
    (s := Sampling.start tracker e source) inv rolled

theorem inv_of_walk {g : EGraph} {tree : Tree α} {tracker : Tracker} {start : Nat}
    {constants : Option (ScoreConstants α)} {path : List Nat} (wf : g.toArena.WellFormed)
    (faithful : Faithful g tree) (inside : start < tree.size)
    (replayed : replay g tree start = .ok tracker)
    (walked : (selectAndExpand g constants tree tracker start).path = .ok path) :
    Inv g (selectAndExpand g constants tree tracker start).tracker := by
  obtain ⟨before, fromRoot, _, _⟩ := faithful.toLinked.exists_path start inside
  simp only [selectAndExpand, fromRoot] at walked ⊢
  rcases descend_spec wf constants _ (Nat.lt_succ_self _) faithful inside replayed with
    ⟨below, descent⟩ | ⟨_, fault, failed⟩
  · exact descent.inv wf
  · simp [failed, Except.map] at walked

theorem playout_layered (accepted : p.graph.Accepted) (layered : p.graph.Layered)
    {tuning : Tuning α} {start : Nat} {source : ρ} {s next : Progress σ α} {leaf : Leaf α}
    (faithful : Faithful p.graph s.tree) (inside : start < s.tree.size)
    (played : playout p tuning start source s = (.ok leaf, next)) : leaf.deadEnds = 0 := by
  obtain ⟨tracker, path, replayed, walked, _, _, _, sampling, evaluated⟩ := playout_cases played
  have inv := inv_of_walk accepted.wellFormed faithful inside replayed walked
  exact evaluateLeaf_layered accepted layered inv evaluated

/-- Whatever one worker plays and commits to, it counts no dead end. -/
theorem Course.deadEnds_eq {plan : Plan σ ρ α} {oracle : σ} {s : Progress σ α}
    (accepted : plan.graph.Accepted) (layered : plan.graph.Layered)
    (course : Course plan oracle s) : s.deadEnds = 0 := by
  induction course with
  | opened => rfl
  | played course inside played ih =>
      obtain ⟨_, _, _, _, same, _⟩ := playout_evaluates played
      have faithful := (course.sane accepted.wellFormed).faithful
      rw [deadEnds_record, same, ih, playout_layered accepted layered faithful inside played]
  | committed _ _ ih => exact ih

theorem Course.conclude_deadEnds {plan : Plan σ ρ α} {oracle : σ} {s after : Progress σ α}
    {outcome : Outcome α} (accepted : plan.graph.Accepted) (layered : plan.graph.Layered)
    (course : Course plan oracle s) (concluded : conclude plan s = (.ok outcome, after)) :
    outcome.deadEnds = 0 := by
  obtain ⟨_, _, _, _, _, same, _⟩ := conclude_cases concluded
  rw [same]
  exact course.deadEnds_eq accepted layered

end Playouts

/-! ## Dead ends -/

/-- Nothing that is done with the e-graph comes to a dead end. -/
structure EGraph.Unobstructed (g : EGraph) : Prop where
  not_deadEnd : ∀ moves t, Leads g (Tracker.start g) moves t → t.isDeadEnd g = false
  chooser_completes : ∀ moves t, Leads g (Tracker.start g) moves t →
    ∀ (ρ : Type) (choose : Chooser ρ), Guide.Obliging (fun _ => choose) g →
      ∀ source, (rollout g choose t source).result = .ok true
  guide_completes : ∀ moves t, Leads g (Tracker.start g) moves t →
    ∀ (ρ : Type) (guide : Guide ρ), guide.Obliging g →
      ∀ source, (rollout g guide.shown t (source, t)).result = .ok true
  /-- However one worker has come to where it concludes. -/
  conclude_none : ∀ (σ ρ α : Type) [Scalar α] (plan : Plan σ ρ α), plan.graph = g →
    ∀ oracle s outcome after, Course plan oracle s → conclude plan s = (.ok outcome, after) →
      outcome.deadEnds = 0
  extract_none : ∀ (σ ρ α : Type) [Scalar α] (plan : Plan σ ρ α), plan.graph = g →
    Number.below 1 plan.tuning.workers = false → ∀ oracle outcome after,
      extract plan oracle = (.ok outcome, after) → outcome.deadEnds = 0
  /-- Whenever the clock stops the search, also without a limit on the playouts. -/
  extractWithin_none : ∀ (σ ρ α : Type) [Scalar α] (plan : Plan σ ρ α), plan.graph = g →
    ∀ looks oracle outcome after, extractWithin plan looks oracle = (.ok outcome, after) →
      outcome.deadEnds = 0

/-- A dead end is a pending class all of whose nodes lead back to it or to an ancestor; so there is
none if no class depends on itself. -/
theorem dead_ends_come_from_cycles {g : EGraph} (accepted : g.Accepted) :
    (∀ moves t, Leads g (Tracker.start g) moves t → Tracker.Obstruction g t) ∧
      (g.Layered → g.Unobstructed) := by
  have wf := accepted.wellFormed
  have reached : ∀ moves t, Leads g (Tracker.start g) moves t → Inv g t := fun moves t run =>
    run.inv wf (Tracker.inv_start wf)
  refine ⟨fun moves t run => (reached moves t run).obstruction accepted, fun layered => ?_⟩
  refine ⟨?_, ?_, ?_, ?_, ?_, ?_⟩
  · intro moves t run
    exact (reached moves t run).not_deadEnd accepted layered
  · intro moves t run ρ choose obliging source
    obtain ⟨_, u, last, rolls, ends⟩ :=
      exists_complete_rolls accepted layered obliging (reached moves t run) source
    rw [rolls.rollout_eq ends]
  · intro moves t run ρ guide obliging source
    obtain ⟨_, u, last, rolls, ends⟩ :=
      exists_complete_rolls accepted layered obliging (reached moves t run) source
    rw [rolls.shown.rollout_eq ends]
  · rintro σ ρ α _ plan rfl oracle s outcome after course concluded
    exact course.conclude_deadEnds accepted layered concluded
  · rintro σ ρ α _ plan rfl alone oracle outcome after extracted
    obtain ⟨searched, concluded⟩ := extract_cases extracted
    exact (course_searched wf alone searched).conclude_deadEnds accepted layered concluded
  · rintro σ ρ α _ plan rfl looks oracle outcome after extracted
    obtain ⟨searched, concluded⟩ := extractWithin_cases extracted
    exact (course_searchedWithin wf searched).conclude_deadEnds accepted layered concluded

/-- The first node of the root is chosen, and the only node below it leads back. -/
def insideDetour : Tracker :=
  ⟨#[some 0, none], [0], #[true, false], [⟨0, 0, 0⟩], some 1⟩

theorem EGraph.forkGraph_layered : forkGraph.Layered := by
  refine layered_of_ascending fun c n d member child => ?_
  match c with
  | 0 =>
      obtain rfl : n = 0 := by simpa [forkGraph, Arena.membersOf] using member
      obtain rfl : d = 1 := by simpa [forkGraph, Arena.childrenOf] using child
      exact Nat.zero_lt_one
  | 1 =>
      have leaf : n = 1 ∨ n = 2 := by simpa [forkGraph, Arena.membersOf] using member
      rcases leaf with rfl | rfl <;> simp [forkGraph, Arena.childrenOf] at child
  | c + 2 => simp [forkGraph, Arena.membersOf] at member

/-- No limit on the playouts, and one on the time. -/
def forkTimed : Plan Unit Endless Float :=
  { forkPlan 0 with maxPlayouts := none, timeLimit := some 1 }

set_option maxRecDepth 4000 in
/-- A dead end in a graph with a cycle, and runs in a graph without one. -/
theorem dead_ends_come_from_cycles_detour :
    EGraph.detourGraph.Accepted ∧ EGraph.forkGraph.Accepted ∧ EGraph.forkGraph.Layered ∧
    Leads EGraph.detourGraph (Tracker.start EGraph.detourGraph) [0] insideDetour ∧
    insideDetour.isDeadEnd EGraph.detourGraph = true ∧
    Tracker.Obstruction EGraph.detourGraph insideDetour ∧
    (∃ outcome after, extract (forkPlan 3) () = (.ok outcome, after) ∧ outcome.deadEnds = 0) ∧
    ∃ outcome after, extractWithin forkTimed 3 () = (.ok outcome, after) ∧
      outcome.deadEnds = 0 := by
  have run : Leads EGraph.detourGraph (Tracker.start EGraph.detourGraph) [0] insideDetour :=
    .move (by decide) rfl (.stay _)
  obtain ⟨obstruction, _⟩ := dead_ends_come_from_cycles EGraph.detourGraph_accepted
  obtain ⟨_, unobstructed⟩ := dead_ends_come_from_cycles EGraph.forkGraph_accepted
  have none_ := unobstructed EGraph.forkGraph_layered
  have returned : (extract (forkPlan 3) ()).1.isOk = true := by decide +kernel
  have returned' : (extractWithin forkTimed 3 ()).1.isOk = true := by decide +kernel
  refine ⟨EGraph.detourGraph_accepted, EGraph.forkGraph_accepted, EGraph.forkGraph_layered, run,
    by decide, obstruction [0] insideDetour run, ?_, ?_⟩
  · rcases extracted : extract (forkPlan 3) () with ⟨fault | outcome, after⟩
    · simp [extracted, Except.isOk, Except.toBool] at returned
    · exact ⟨outcome, after, rfl,
        none_.extract_none Unit Endless Float (forkPlan 3) rfl rfl () outcome after extracted⟩
  · rcases extracted : extractWithin forkTimed 3 () with ⟨fault | outcome, after⟩
    · simp [extracted, Except.isOk, Except.toBool] at returned'
    · exact ⟨outcome, after, rfl,
        none_.extractWithin_none Unit Endless Float forkTimed rfl 3 () outcome after extracted⟩

end EGraphSearch
