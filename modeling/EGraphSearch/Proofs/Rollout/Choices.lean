import EGraphSearch.Proofs.Rollout

/-!
# The choices of a rollout

A rollout asks at every tracker it comes to, and makes the move that is answered.  What answers may
look at the tracker; a chooser that only sees the offered moves can still do so if the tracker is
part of its source.  As long as the answers are among the offered moves, the rollout goes on until
it is in a terminal tracker or in a dead end.
-/

set_option autoImplicit false

namespace EGraphSearch

open Tracker (Inv Leads)

variable {ρ : Type} {g : EGraph}

abbrev Guide (ρ : Type) := Tracker → Chooser ρ

namespace Guide

/-- Whatever is offered and drawn, one of the offered moves is chosen. -/
def Obliging (guide : Guide ρ) (g : EGraph) : Prop :=
  ∀ t source, t.legalMoves g ≠ [] →
    ∃ n ∈ t.legalMoves g, (guide t g (t.legalMoves g) source).1 = .ok n

/-- The guide as a chooser: the source carries the tracker along. -/
def shown (guide : Guide ρ) : Chooser (ρ × Tracker) := fun g moves (source, t) =>
  match guide t g moves source with
  | (.error fault, next) => (.error fault, (next, t))
  | (.ok n, next) =>
    match t.apply g n with
    | .error _ => (.ok n, (next, t))
    | .ok moved => (.ok n, (next, moved))

end Guide

/-- The rollout of a guide from one tracker to another, with the moves that were chosen. -/
inductive Rolls (g : EGraph) (guide : Guide ρ) :
    Tracker → ρ → List Nat → Tracker → ρ → Prop
  | stop (t : Tracker) (source : ρ) : Rolls g guide t source [] t source
  | move {t moved u : Tracker} {source next last : ρ} {n : Nat} {rest : List Nat}
      (offered : n ∈ t.legalMoves g)
      (chosen : guide t g (t.legalMoves g) source = (.ok n, next))
      (applied : t.apply g n = .ok moved) (later : Rolls g guide moved next rest u last) :
      Rolls g guide t source (n :: rest) u last

def Tracker.Ends (g : EGraph) (t : Tracker) : Bool → Prop
  | true => t.isTerminal = true
  | false => t.isDeadEnd g = true

section Rolls

variable {guide : Guide ρ} {t u : Tracker} {source last : ρ} {moves : List Nat}

theorem Rolls.leads (rolls : Rolls g guide t source moves u last) : Leads g t moves u := by
  induction rolls with
  | stop t source => exact .stay t
  | move offered _ applied _ ih => exact .move offered applied ih

theorem Rolls.shown (rolls : Rolls g guide t source moves u last) :
    Rolls g (fun _ => guide.shown) t (source, t) moves u (last, u) := by
  induction rolls with
  | stop t source => exact .stop t (source, t)
  | move offered chosen applied _ ih =>
      refine .move offered ?_ applied ih
      simp only [Guide.shown, chosen, applied]

theorem isTerminal_of_offered {n : Nat} (offered : n ∈ t.legalMoves g) :
    t.isTerminal = false := by
  cases pending : t.pending with
  | none => simp [Tracker.legalMoves, pending] at offered
  | some p => simp [Tracker.isTerminal, pending]

theorem Rolls.rollout_eq {choose : Chooser ρ} {b : Bool}
    (rolls : Rolls g (fun _ => choose) t source moves u last) (ends : u.Ends g b) :
    rollout g choose t source = ⟨u, last, .ok b⟩ := by
  induction rolls with
  | stop t source =>
      cases b with
      | true => exact rollout_terminal ends
      | false => exact rollout_deadEnd ends
  | move offered chosen applied _ ih =>
      rw [rollout_moved (isTerminal_of_offered offered) (List.ne_nil_of_mem offered) chosen
        applied]
      exact ih ends

theorem exists_rolls (wf : g.toArena.WellFormed) (obliging : guide.Obliging g) (k : Nat) :
    ∀ {t : Tracker} (source : ρ), t.openCount < k → Inv g t →
      ∃ moves u last b, Rolls g guide t source moves u last ∧ u.Ends g b := by
  induction k with
  | zero => exact fun _ small => absurd small (Nat.not_lt_zero _)
  | succ k ih =>
      intro t source small inv
      cases terminal : t.isTerminal with
      | true => exact ⟨[], t, source, true, .stop t source, terminal⟩
      | false =>
      by_cases none_ : t.legalMoves g = []
      · have deadEnd : t.isDeadEnd g = true := by simp [Tracker.isDeadEnd, terminal, none_]
        exact ⟨[], t, source, false, .stop t source, deadEnd⟩
      · obtain ⟨n, offered, answer⟩ := obliging t source none_
        rcases chosen : guide t g (t.legalMoves g) source with ⟨fault | m, next⟩
        · simp [chosen] at answer
        · obtain rfl : m = n := by simpa [chosen] using answer
          obtain ⟨moved, applied, invMoved⟩ := Tracker.apply_of_mem_legalMoves wf inv offered
          have fewer := Tracker.apply_openCount applied
          obtain ⟨rest, u, last, b, later, ends⟩ := ih next (by omega) invMoved
          exact ⟨m :: rest, u, last, b, .move offered chosen applied later, ends⟩

end Rolls

end EGraphSearch
