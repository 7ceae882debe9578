import EGraphSearch.Proofs.Completion.Exhaustive
import EGraphSearch.Proofs.Rollout.Choices
import EGraphSearch.Proofs.Tracker.Twins
import Mathlib.Data.Set.Card

/-!
# What rollouts come to

Every choice of a rollout resolves one more class that the root leads to, so a rollout ends within
as many choices as such classes are open.  And since legal moves lead to every valid term that
extends the assignment, uniform choices can come to each of them: the draws are the places of the
moves among those that are offered.
-/

set_option autoImplicit false

namespace EGraphSearch

open Tracker (Inv Leads)

variable {ρ : Type} {g : EGraph} {t u : Tracker} {moves : List Nat}

/-! ## The length of a rollout -/

theorem Tracker.finite_waiting (g : EGraph) (t : Tracker) :
    {c | t.isOpen c = true ∧ g.Reaches c}.Finite := by
  refine (Set.finite_lt_nat t.assigned.size).subset fun c waiting => ?_
  exact (Tracker.isOpen_iff.mp waiting.1).1

theorem Tracker.Leads.length_le_waiting (wf : g.toArena.WellFormed) (run : Leads g t moves u)
    (inv : Inv g t) : moves.length ≤ {c | t.isOpen c = true ∧ g.Reaches c}.ncard := by
  have invEnd := run.inv wf inv
  obtain ⟨added, order⟩ := run.order_extends wf inv
  have distinct : (t.order ++ added).Nodup := order ▸ invEnd.order_nodup
  have waiting : ∀ c ∈ added, t.isOpen c = true ∧ g.Reaches c := by
    intro c member
    have resolved : c ∈ u.order := order ▸ List.mem_append_right _ member
    obtain ⟨n, chosen⟩ := Option.isSome_iff_exists.mp ((invEnd.mem_order c).mp resolved)
    have inside : c < t.assigned.size := by
      rw [inv.assigned_size]
      exact invEnd.class_lt chosen
    have before : c ∉ t.order := fun old => (List.disjoint_of_nodup_append distinct) old member
    rw [inv.mem_order, Option.isSome_iff_ne_none, not_not] at before
    exact ⟨Tracker.isOpen_iff.mpr ⟨inside, before⟩, (invEnd.offers wf chosen).reached⟩
  have length : moves.length = added.length := by
    have grown := run.length_order wf inv
    rw [← order, List.length_append] at grown
    omega
  calc moves.length = added.toFinset.card := by
        rw [length, List.toFinset_card_of_nodup (List.Nodup.of_append_right distinct)]
    _ = (added.toFinset : Set Nat).ncard := (Set.ncard_coe_finset _).symm
    _ ≤ {c | t.isOpen c = true ∧ g.Reaches c}.ncard := by
        refine Set.ncard_le_ncard (fun c member => ?_) (Tracker.finite_waiting g t)
        exact waiting c (List.mem_toFinset.mp member)

/-- What a rollout has come to after the choices it made. -/
structure Rolled (g : EGraph) (t u : Tracker) (chosen : List Nat) (b : Bool) : Prop where
  leads : Leads g t chosen u
  length_le : chosen.length ≤ {c | t.isOpen c = true ∧ g.Reaches c}.ncard
  order_extends : t.order <+: u.order
  choices_extends : t.choices <+: u.choices
  /-- The result says whether the tracker is terminal or a dead end. -/
  ends : u.Ends g b

theorem Tracker.Leads.rolled (wf : g.toArena.WellFormed) (run : Leads g t moves u) (inv : Inv g t)
    {b : Bool} (ends : u.Ends g b) : Rolled g t u moves b :=
  ⟨run, run.length_le_waiting wf inv, run.order_extends wf inv, run.choices_extends wf inv, ends⟩

/-! ## Draws for a run -/

theorem Script.below_at {bound i : Nat} (inside : i < bound) (before rest : List Int) :
    Script.below bound ⟨before ++ (i : Int) :: rest, before.length⟩ =
      (.ok i, ⟨before ++ (i : Int) :: rest, before.length + 1⟩) := by
  have here : before.length % (before ++ (i : Int) :: rest).length = before.length :=
    Nat.mod_eq_of_lt (by simp)
  have small : ((i : Int) % (bound : Int)).toNat = i := by
    rw [Int.emod_eq_of_lt (Int.natCast_nonneg i) (by omega), Int.toNat_natCast]
  simp only [Script.below, here]
  rw [if_neg (by simp; omega)]
  simp [small]

theorem chooseUniform_at {n : Nat} (offered : n ∈ moves) : ∃ i : Nat, ∀ before rest : List Int,
    Policy.chooseUniform g moves (⟨before ++ (i : Int) :: rest, before.length⟩ : Script) =
      (.ok n, ⟨before ++ (i : Int) :: rest, before.length + 1⟩) := by
  obtain ⟨i, inside, here⟩ := List.mem_iff_getElem.mp offered
  refine ⟨i, fun before rest => ?_⟩
  have drawn : Draws.below moves.length
      (⟨before ++ (i : Int) :: rest, before.length⟩ : Script) = _ :=
    Script.below_at inside before rest
  simp only [Policy.chooseUniform, drawn, Policy.moveAt, List.getElem?_eq_getElem inside, here]

theorem Tracker.Leads.exists_draws (run : Leads g t moves u) : ∃ draws : List Int,
    draws.length = moves.length ∧ ∀ before : List Int,
      Rolls g (fun _ => Policy.uniform.choose) t (⟨before ++ draws, before.length⟩ : Script) moves u
        ⟨before ++ draws, (before ++ draws).length⟩ := by
  induction run with
  | stay t => exact ⟨[], rfl, fun before => by simpa using .stop t _⟩
  | @move t next u n rest legal applied _ ih =>
      obtain ⟨later, length, rolls⟩ := ih
      obtain ⟨i, chooses⟩ := chooseUniform_at (g := g) legal
      refine ⟨(i : Int) :: later, by simp [length], fun before => ?_⟩
      refine .move legal (chooses before later) applied ?_
      have rolls := rolls (before ++ [(i : Int)])
      simpa [List.append_assoc] using rolls

/-! ## Rollouts -/

/-- With some draws, a uniform rollout ends in the term, and takes one draw for each class that it
resolves. -/
def Tracker.RollsTo (g : EGraph) (t : Tracker) (term : Term) : Prop :=
  ∃ (draws : List Int) (u : Tracker) (found : Term),
    rollout g Policy.uniform.choose t (⟨draws, 0⟩ : Script) =
      ⟨u, ⟨draws, draws.length⟩, .ok true⟩ ∧
    u.toTerm g = .ok found ∧ found.assignment.same (· == ·) term.assignment = true ∧
    u.order.length = t.order.length + draws.length

theorem Tracker.Inv.rollsTo (accepted : g.Accepted) (named : g.Named) (inv : Inv g t) {term : Term}
    (keyed : term.assignment.Keyed) (valid : term.validate g = .ok ())
    (within : (t.assignment g).within (· == ·) term.assignment = true) : t.RollsTo g term := by
  obtain ⟨moves, u, run, terminal, same⟩ :=
    inv.exists_run_of_within accepted named keyed valid within
  obtain ⟨draws, length, rolls⟩ := run.exists_draws
  refine ⟨draws, u, ⟨u.assignment g⟩, ?_, Tracker.toTerm_of_terminal terminal, same, ?_⟩
  · exact (rolls []).rollout_eq (b := true) terminal
  · rw [run.length_order accepted.wellFormed inv, length]

/-- What a rollout can do from a tracker. -/
structure Completing (g : EGraph) (t : Tracker) : Prop where
  /-- As long as offered moves are chosen, the rollout ends, and nothing in it fails. -/
  chooser_ends : ∀ (ρ : Type) (choose : Chooser ρ), Guide.Obliging (fun _ => choose) g →
    ∀ source, ∃ chosen u last b, Rolls g (fun _ => choose) t source chosen u last ∧
      rollout g choose t source = ⟨u, last, .ok b⟩ ∧ Rolled g t u chosen b
  /-- The same if the choice depends on the tracker. -/
  guide_ends : ∀ (ρ : Type) (guide : Guide ρ), guide.Obliging g →
    ∀ source, ∃ chosen u last b, Rolls g guide t source chosen u last ∧
      rollout g guide.shown t (source, t) = ⟨u, (last, u), .ok b⟩ ∧ Rolled g t u chosen b
  uniform_reaches : g.Named → ∀ term : Term, term.assignment.Keyed →
    term.validate g = .ok () → (t.assignment g).within (· == ·) term.assignment = true →
      t.RollsTo g term

/-- From every tracker that legal moves lead to, rollouts end, only extend it, and can come to every
valid term that extends it. -/
theorem rollouts_end_and_reach_everything (accepted : g.Accepted)
    (run : Leads g (Tracker.start g) moves t) : Completing g t := by
  have wf := accepted.wellFormed
  have inv := run.inv wf (Tracker.inv_start wf)
  refine ⟨?_, ?_, fun named term => inv.rollsTo accepted named⟩
  · intro ρ choose obliging source
    obtain ⟨chosen, u, last, b, rolls, ends⟩ :=
      exists_rolls wf obliging _ source (Nat.lt_succ_self _) inv
    exact ⟨chosen, u, last, b, rolls, rolls.rollout_eq ends, rolls.leads.rolled wf inv ends⟩
  · intro ρ guide obliging source
    obtain ⟨chosen, u, last, b, rolls, ends⟩ :=
      exists_rolls wf obliging _ source (Nat.lt_succ_self _) inv
    exact ⟨chosen, u, last, b, rolls, rolls.shown.rollout_eq ends, rolls.leads.rolled wf inv ends⟩

/-- Inside the graph with a cycle, uniform choices end at a leaf. -/
theorem rollouts_end_and_reach_everything_loop :
    EGraph.loopGraph.Accepted ∧ EGraph.loopGraph.Named ∧
    Leads EGraph.loopGraph (Tracker.start EGraph.loopGraph) [0] Tracker.insideLoop ∧
    Guide.Obliging (fun _ => (Policy.uniform.choose : Chooser Endless)) EGraph.loopGraph ∧
    Completing EGraph.loopGraph Tracker.insideLoop ∧
    Tracker.insideLoop.RollsTo EGraph.loopGraph
      ⟨[(.text "a", .text "f"), (.text "b", .text "y")]⟩ := by
  have run : Leads EGraph.loopGraph (Tracker.start EGraph.loopGraph) [0] Tracker.insideLoop :=
    .move (by decide) rfl (.stay _)
  have obliging : Guide.Obliging (fun _ => (Policy.uniform.choose : Chooser Endless))
      EGraph.loopGraph := Policy.chooseUniform_reliable Draws.bounded_endless
  have completing := rollouts_end_and_reach_everything EGraph.loopGraph_accepted run
  have keyed : Table.Keyed [(Label.text "a", Label.text "f"), (.text "b", .text "y")] := by
    unfold Table.Keyed
    decide
  exact ⟨EGraph.loopGraph_accepted, EGraph.loopGraph_checkable.named, run, obliging, completing,
    completing.uniform_reaches EGraph.loopGraph_checkable.named _ keyed (by with_unfolding_all rfl)
      (by decide)⟩

end EGraphSearch
