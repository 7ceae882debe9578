import EGraphSearch.Proofs.Number.Doubles
import EGraphSearch.Proofs.Tracker.Runs

/-!
# Where rollouts end

Whatever is drawn, a rollout makes legal moves until it is in a terminal tracker or a dead end.
A policy that is asked for by name chooses one of the legal moves, as long as the draws do what it
asks of them, so that a rollout never fails.
-/

set_option autoImplicit false

namespace EGraphSearch

variable {ρ : Type} {g : EGraph} {choose : Chooser ρ} {t : Tracker}

/-! ## Draws and policies -/

def Draws.Bounded (ρ : Type) [Draws ρ] : Prop :=
  ∀ (bound : Nat) (source : ρ), 0 < bound →
    ∃ i < bound, (Draws.below bound source).1 = .ok i

def Tracker.levelTotal (t : Tracker) (g : EGraph) : Float :=
  Sum.total ((t.legalMoves g).map (levelWeight g))

def Tracker.levelShares (t : Tracker) (g : EGraph) : List Float :=
  ((t.legalMoves g).map (levelWeight g)).map (· / t.levelTotal g)

theorem Tracker.legalMoves_ne_nil_of_weight (some_weight : ¬ t.levelTotal g ≤ 0) :
    t.legalMoves g ≠ [] := by
  intro none_
  have nothing : Sum.total ([] : List Float) = 0 := by rw [Sum.total]; rfl
  rw [levelTotal, none_, List.map_nil, nothing] at some_weight
  exact some_weight (by decide)

/-- What a policy asks of draws inside an e-graph.  A choice by shares is asked for under the
weighted policy only, and only at legal moves that have any weight: it is the index of one of them.
-/
structure Draws.Lawful (ρ : Type) [Draws ρ] (g : EGraph) (policy : Policy) : Prop where
  bounded : Draws.Bounded ρ
  weighted_lt : policy = .weighted .byLevel → ∀ (t : Tracker) (source : ρ),
    ¬ t.levelTotal g ≤ 0 →
      ∃ i < (t.legalMoves g).length, (Draws.weighted (t.levelShares g) source).1 = .ok i

abbrev Endless := { script : Script // script.entries ≠ [] }

def Endless.zeroes : Endless := ⟨⟨[0], 0⟩, by decide⟩

theorem Script.entries_below (bound : Nat) (script : Script) :
    (script.below bound).2.entries = script.entries := by
  unfold Script.below
  dsimp only
  split <;> rfl

theorem Script.below_lt {bound : Nat} (pos : 0 < bound) {script : Script}
    (endless : script.entries ≠ []) : ∃ i < bound, (script.below bound).1 = .ok i := by
  refine ⟨_, ?_, by rw [Script.below, if_neg (by simp [endless]; omega)]⟩
  have nonneg := Int.emod_nonneg
    (script.entries.getD (script.position % script.entries.length) 0)
    (show (bound : Int) ≠ 0 by omega)
  have below := Int.emod_lt_of_pos
    (script.entries.getD (script.position % script.entries.length) 0)
    (show (0 : Int) < bound by omega)
  omega

def Endless.below (bound : Nat) (script : Endless) : Except Fault Nat × Endless :=
  ((script.1.below bound).1,
    ⟨(script.1.below bound).2, by rw [Script.entries_below]; exact script.2⟩)

instance : Draws Endless where
  below := Endless.below
  unit script := (0, ⟨{ script.1 with position := script.1.position + 1 }, script.2⟩)
  weighted probabilities script := Endless.below probabilities.length script

theorem Draws.bounded_endless : Draws.Bounded Endless :=
  fun _ script pos => Script.below_lt pos script.2

theorem Draws.lawful_endless {policy : Policy} : Draws.Lawful Endless g policy where
  bounded := Draws.bounded_endless
  weighted_lt := by
    intro _ t script some_weight
    have length : (t.levelShares g).length = (t.legalMoves g).length := by
      simp [Tracker.levelShares]
    have some_move := Tracker.legalMoves_ne_nil_of_weight some_weight
    have drawn := Script.below_lt (List.length_pos_iff.mpr some_move) script.2
    rw [← length] at drawn ⊢
    exact drawn

/-- A chooser that picks one of the legal moves wherever there are any. -/
def Chooser.Reliable (choose : Chooser ρ) (g : EGraph) : Prop :=
  ∀ (t : Tracker) source, t.legalMoves g ≠ [] →
    ∃ n ∈ t.legalMoves g, (choose g (t.legalMoves g) source).1 = .ok n

namespace Policy

variable [Draws ρ]

omit [Draws ρ] in
theorem moveAt_ok {moves : List Nat} {drawn : Except Fault Nat × ρ} {i : Nat}
    (inside : i < moves.length) (index : drawn.1 = .ok i) :
    ∃ n ∈ moves, (moveAt moves drawn).1 = .ok n := by
  obtain ⟨result, source⟩ := drawn
  obtain rfl : result = .ok i := index
  exact ⟨moves[i], List.getElem_mem inside, by simp [moveAt, inside]⟩

theorem chooseUniform_reliable (bounded : Draws.Bounded ρ) :
    (chooseUniform : Chooser ρ).Reliable g := by
  intro t source some_move
  obtain ⟨i, inside, drawn⟩ :=
    bounded (t.legalMoves g).length source (List.length_pos_iff.mpr some_move)
  exact moveAt_ok inside drawn

theorem chooseWeighted_eq (t : Tracker) (source : ρ) :
    chooseWeighted .byLevel g (t.legalMoves g) source =
      if t.levelTotal g ≤ 0 then chooseUniform g (t.legalMoves g) source
      else moveAt (t.legalMoves g) (Draws.weighted (t.levelShares g) source) := by
  have notNegative : ((t.legalMoves g).map (levelWeight g)).any (· < 0) = false := by
    simp only [List.any_eq_false, List.mem_map]
    rintro weight ⟨n, _, rfl⟩
    simpa using Doubles.levelWeight_not_neg g n
  have weights : (t.legalMoves g).map (Weighting.byLevel.weight g) =
      (t.legalMoves g).map (levelWeight g) := rfl
  unfold chooseWeighted
  simp only [weights, notNegative, Bool.false_eq_true, if_false]
  rfl

theorem chooseWeighted_reliable (lawful : Draws.Lawful ρ g (.weighted .byLevel)) :
    (chooseWeighted .byLevel : Chooser ρ).Reliable g := by
  intro t source some_move
  rw [chooseWeighted_eq]
  split
  · exact chooseUniform_reliable lawful.bounded t source some_move
  · rename_i some_weight
    obtain ⟨i, inside, drawn⟩ := lawful.weighted_lt rfl t source some_weight
    exact moveAt_ok inside drawn

/-- Every policy that has a name is reliable, if the draws do what it asks of them. -/
theorem reliable_of_name {name : Datum} {policy : Policy} (lawful : Draws.Lawful ρ g policy)
    (known : Policy.ofName name = .ok policy) : (policy.choose : Chooser ρ).Reliable g := by
  unfold ofName at known
  split at known
  · cases known
    exact chooseUniform_reliable lawful.bounded
  · cases known
    exact chooseWeighted_reliable lawful
  · split at known <;> simp at known

end Policy

/-! ## Rollouts -/

section Steps

variable {source next : ρ}

theorem rollout_terminal (terminal : t.isTerminal = true) :
    rollout g choose t source = ⟨t, source, .ok true⟩ := by
  rw [rollout, if_pos terminal]

theorem rollout_deadEnd (deadEnd : t.isDeadEnd g = true) :
    rollout g choose t source = ⟨t, source, .ok false⟩ := by
  simp only [Tracker.isDeadEnd, Bool.and_eq_true, Bool.not_eq_true', List.isEmpty_iff] at deadEnd
  rw [rollout, if_neg (by simp [deadEnd.1])]
  split
  · rfl
  · rename_i moves
    simp [deadEnd.2] at moves

theorem rollout_refused {fault : Fault} (notTerminal : t.isTerminal = false)
    (some_move : t.legalMoves g ≠ [])
    (refused : choose g (t.legalMoves g) source = (.error fault, next)) :
    rollout g choose t source = ⟨t, next, .error fault⟩ := by
  rw [rollout, if_neg (by simp [notTerminal])]
  split
  · rename_i none_
    exact absurd none_ some_move
  · rename_i first rest moves
    rw [moves] at refused
    rw [refused]

theorem rollout_failed {fault : Fault} {n : Nat} (notTerminal : t.isTerminal = false)
    (some_move : t.legalMoves g ≠ []) (chosen : choose g (t.legalMoves g) source = (.ok n, next))
    (failed : t.apply g n = .error fault) :
    rollout g choose t source = ⟨t, next, .error fault⟩ := by
  rw [rollout, if_neg (by simp [notTerminal])]
  split
  · rename_i none_
    exact absurd none_ some_move
  · rename_i first rest moves
    rw [moves] at chosen
    simp only [chosen]
    split
    · rename_i again
      cases Except.error.inj (failed.symm.trans again)
      rfl
    · rename_i moved applied
      simp [failed] at applied

theorem rollout_moved {n : Nat} {moved : Tracker} (notTerminal : t.isTerminal = false)
    (some_move : t.legalMoves g ≠ []) (chosen : choose g (t.legalMoves g) source = (.ok n, next))
    (applied : t.apply g n = .ok moved) :
    rollout g choose t source = rollout g choose moved next := by
  rw [rollout, if_neg (by simp [notTerminal])]
  split
  · rename_i none_
    exact absurd none_ some_move
  · rename_i first rest moves
    rw [moves] at chosen
    simp only [chosen]
    split
    · rename_i failed
      simp [applied] at failed
    · rename_i moved' again
      cases Except.ok.inj (applied.symm.trans again)
      rfl

end Steps

/-- A rollout makes legal moves, and it reports whether the last tracker is terminal or has no
legal moves. -/
theorem rollout_spec (choose : Chooser ρ) (wf : g.toArena.WellFormed) (k : Nat) :
    ∀ {t : Tracker} (source : ρ), t.openCount < k → Tracker.Inv g t →
      (∃ moves, Tracker.Leads g t moves (rollout g choose t source).tracker) ∧
      ((rollout g choose t source).result = .ok true →
        (rollout g choose t source).tracker.isTerminal = true) ∧
      ((rollout g choose t source).result = .ok false →
        (rollout g choose t source).tracker.isDeadEnd g = true) := by
  induction k with
  | zero => exact fun _ small => absurd small (Nat.not_lt_zero _)
  | succ k ih =>
      intro t source small inv
      cases terminal : t.isTerminal with
      | true =>
          rw [rollout_terminal terminal]
          exact ⟨⟨[], .stay t⟩, fun _ => terminal, by simp⟩
      | false =>
      by_cases none_ : t.legalMoves g = []
      · have deadEnd : t.isDeadEnd g = true := by simp [Tracker.isDeadEnd, terminal, none_]
        rw [rollout_deadEnd deadEnd]
        exact ⟨⟨[], .stay t⟩, by simp, fun _ => deadEnd⟩
      · rcases chosen : choose g (t.legalMoves g) source with ⟨fault | n, next⟩
        · rw [rollout_refused terminal none_ chosen]
          exact ⟨⟨[], .stay t⟩, by simp, by simp⟩
        · cases applied : t.apply g n with
          | error fault =>
              rw [rollout_failed terminal none_ chosen applied]
              exact ⟨⟨[], .stay t⟩, by simp, by simp⟩
          | ok moved =>
              have fewer := Tracker.apply_openCount applied
              obtain ⟨_, _, _, _, invMoved, _⟩ := inv.of_apply wf applied
              obtain ⟨⟨moves, run⟩, ends⟩ := ih next (by omega) invMoved
              rw [rollout_moved terminal none_ chosen applied]
              exact ⟨⟨n :: moves,
                .move (Tracker.mem_legalMoves_of_apply wf inv applied) applied run⟩, ends⟩

theorem rollout_ok (wf : g.toArena.WellFormed) (reliable : choose.Reliable g) (k : Nat) :
    ∀ {t : Tracker} (source : ρ), t.openCount < k → Tracker.Inv g t →
      ∃ b, (rollout g choose t source).result = .ok b := by
  induction k with
  | zero => exact fun _ small => absurd small (Nat.not_lt_zero _)
  | succ k ih =>
      intro t source small inv
      cases terminal : t.isTerminal with
      | true => exact ⟨true, by rw [rollout_terminal terminal]⟩
      | false =>
      by_cases none_ : t.legalMoves g = []
      · exact ⟨false, by rw [rollout_deadEnd (by simp [Tracker.isDeadEnd, terminal, none_])]⟩
      · obtain ⟨n, offered, chosen⟩ := reliable t source none_
        obtain ⟨moved, applied, invMoved⟩ := Tracker.apply_of_mem_legalMoves wf inv offered
        have fewer := Tracker.apply_openCount applied
        have whole : choose g (t.legalMoves g) source =
            (.ok n, (choose g (t.legalMoves g) source).2) := by rw [← chosen]
        rw [rollout_moved terminal none_ whole applied]
        exact ih _ (by omega) invMoved

end EGraphSearch
