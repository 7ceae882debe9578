import EGraphSearch.Proofs.Completion.Backtracking
import EGraphSearch.Proofs.Tracker.Exclusion
import EGraphSearch.Proofs.Tracker.Terms

/-!
# Backtracking is exhaustive

The search in memory takes the same way as the recursive search: what waits above a tracker is what
the recursion explores before it comes back to it.  Without a limit it therefore finds a completion
if and only if a valid term extends the assignment so far.  A limit makes it give up, but never
makes it find anything else.
-/

set_option autoImplicit false

namespace EGraphSearch

variable {g : EGraph} {t u : Tracker}

/-! ## Both searches take the same way -/

namespace Backtrack

open Completion (explore exploreMoves orderedMoves)

variable {limit : Option Int} {s next : Backtrack} {memory before after : Memory} {rest : List Nat}

/-- The search in memory does what the recursive search does with the trackers that wait above the
others: it finds the same, gives up as well, or comes back to the others. -/
def Follows (g : EGraph) (limit : Option Int) (s : Backtrack) (others : List Nat) : Search → Prop
  | .found u => ∃ after place, Ends g limit s after (.found place) ∧ after[place]? = some u
  | .exhausted explored => ∃ after, Reaches g limit s ⟨after, others, explored⟩
  | .gaveUp => ∃ after, Ends g limit s after .gaveUp

theorem Reaches.follows {search : Search} (reaches : Reaches g limit s next)
    (follows : Follows g limit next rest search) : Follows g limit s rest search := by
  cases search with
  | found u =>
      obtain ⟨after, place, ends, held⟩ := follows
      exact ⟨after, place, reaches.ends ends, held⟩
  | exhausted explored =>
      obtain ⟨after, later⟩ := follows
      exact ⟨after, reaches.trans later⟩
  | gaveUp =>
      obtain ⟨after, ends⟩ := follows
      exact ⟨after, reaches.ends ends⟩

theorem any_toNat (limit : Option Int) (explored : Nat) :
    ((limit.map Int.toNat).any fun most => decide (most < explored + 1)) =
      limit.any fun most => decide (most < (explored : Int) + 1) := by
  cases limit with
  | none => rfl
  | some most =>
      simp only [Option.map_some, Option.any_some, decide_eq_decide]
      omega

theorem exists_behind (wf : g.toArena.WellFormed) (inv : Tracker.Inv g t) {moves : List Nat}
    (legal : ∀ n ∈ moves, n ∈ t.legalMoves g) :
    ∃ behind, List.Forall₂ (fun n u => t.apply g n = .ok u) moves behind := by
  induction moves with
  | nil => exact ⟨[], .nil⟩
  | cons n others ih =>
      obtain ⟨u, applied, _⟩ := Tracker.apply_of_mem_legalMoves wf inv (legal n (by simp))
      obtain ⟨behind, all⟩ := ih fun m member => legal m (by simp [member])
      exact ⟨u :: behind, .cons applied all⟩

theorem Holds.top {n : Nat} {others places : List Nat} {behind : List Tracker}
    (applied : List.Forall₂ (fun n u => t.apply g n = .ok u) (n :: others) behind)
    (holds : Holds memory places behind) (moved : t.apply g n = .ok u) :
    ∃ place below rest, places = place :: below ∧ memory[place]? = some u ∧
      List.Forall₂ (fun n u => t.apply g n = .ok u) others rest ∧ Holds memory below rest := by
  cases applied with
  | cons here applied =>
      cases Except.ok.inj (moved.symm.trans here)
      cases holds with
      | cons held holds => exact ⟨_, _, _, rfl, held, applied, holds⟩

theorem step_of_terminal {place explored : Nat} (held : memory[place]? = some t)
    (terminal : t.isTerminal = true) :
    step g limit ⟨memory, place :: rest, explored⟩ = .inr (memory, .found place) := by
  simp [step, held, terminal]

theorem step_of_limit {place explored : Nat} (held : memory[place]? = some t)
    (notTerminal : ¬ t.isTerminal = true)
    (reached : (limit.any fun most => decide (most < (explored : Int) + 1)) = true) :
    step g limit ⟨memory, place :: rest, explored⟩ = .inr (memory, .gaveUp) := by
  simp only [step, held, notTerminal, reached, Bool.false_eq_true, if_false, if_true]

theorem step_of_moves {place explored : Nat} {waiting : List Nat} (held : memory[place]? = some t)
    (notTerminal : ¬ t.isTerminal = true)
    (free : ¬ (limit.any fun most => decide (most < (explored : Int) + 1)) = true)
    (branched : branch g t memory rest (orderedMoves g t) = .ok (after, waiting)) :
    step g limit ⟨memory, place :: rest, explored⟩ = .inl ⟨after, waiting, explored + 1⟩ := by
  simp only [step, held, notTerminal, free, branched, Bool.false_eq_true, if_false]

/-- The induction is that of the recursive search.  Its second half is about the trackers behind
some moves, which wait one above the other. -/
theorem follows_explore (wf : g.toArena.WellFormed) (limit : Option Int) (t : Tracker)
    (explored : Nat) : Tracker.Inv g t → ∀ memory place rest, memory[place]? = some t →
      Follows g limit ⟨memory, place :: rest, explored⟩ rest
        (explore g (limit.map Int.toNat) t explored) := by
  refine Completion.explore.induct g (limit.map Int.toNat)
    (fun t explored => Tracker.Inv g t → ∀ memory place rest, memory[place]? = some t →
      Follows g limit ⟨memory, place :: rest, explored⟩ rest
        (explore g (limit.map Int.toNat) t explored))
    (fun t moves explored => Tracker.Inv g t → ∀ behind memory places rest,
      List.Forall₂ (fun n u => t.apply g n = .ok u) moves behind → Holds memory places behind →
        Follows g limit ⟨memory, places ++ rest, explored⟩ rest
          (exploreMoves g (limit.map Int.toNat) t moves explored))
    ?terminal ?limit ?moves ?done ?illegal ?found ?gaveUp ?next t explored
  case terminal =>
    intro t explored terminal _ memory place rest held
    rw [explore, if_pos terminal]
    exact ⟨memory, place, .now (step_of_terminal held terminal), held⟩
  case limit =>
    intro t explored notTerminal reached _ memory place rest held
    rw [explore, if_neg notTerminal, if_pos reached]
    rw [any_toNat] at reached
    exact ⟨memory, .now (step_of_limit held notTerminal reached)⟩
  case moves =>
    intro t explored notTerminal free ih inv memory place rest held
    rw [explore, if_neg notTerminal, if_neg free]
    rw [any_toNat] at free
    obtain ⟨behind, applied⟩ := exists_behind wf inv fun n => Completion.mem_orderedMoves.mp
    obtain ⟨after, places, branched, holds⟩ := branch_spec memory rest applied
    have stepped := step_of_moves held notTerminal free branched
    exact Reaches.follows (.single stepped) (ih inv behind after places rest applied holds)
  case done =>
    intro t explored _ behind memory places rest applied holds
    cases applied
    cases holds
    rw [exploreMoves]
    exact ⟨memory, .refl⟩
  case illegal =>
    intro t explored n others fault failed _ _ behind memory places rest applied holds
    cases applied with
    | cons applied _ => simp [applied] at failed
  case found =>
    intro t explored n others moved applied terminal ended ih inv behind memory places rest all
      holds
    obtain ⟨_, _, _, _, invMoved, _⟩ := inv.of_apply wf applied
    obtain ⟨place, below, later, rfl, held, _, _⟩ := Holds.top all holds applied
    have follows := ih invMoved memory place (below ++ rest) held
    rw [Completion.exploreMoves_cons applied]
    rw [ended] at follows ⊢
    exact follows
  case gaveUp =>
    intro t explored n others moved applied ended ih inv behind memory places rest all holds
    obtain ⟨_, _, _, _, invMoved, _⟩ := inv.of_apply wf applied
    obtain ⟨place, below, later, rfl, held, _, _⟩ := Holds.top all holds applied
    have follows := ih invMoved memory place (below ++ rest) held
    rw [Completion.exploreMoves_cons applied]
    rw [ended] at follows ⊢
    exact follows
  case next =>
    intro t explored n others moved applied more ended first second inv behind memory places rest
      all holds
    obtain ⟨_, _, _, _, invMoved, _⟩ := inv.of_apply wf applied
    obtain ⟨place, below, later, rfl, held, all, holds⟩ := Holds.top all holds applied
    have follows := first invMoved memory place (below ++ rest) held
    rw [Completion.exploreMoves_cons applied]
    rw [ended] at follows ⊢
    obtain ⟨after, back⟩ := follows
    have still : Holds after below later := Holds.mono back.spares.kept holds
    exact back.follows (second inv later after below rest all still)

/-- What the search leaves behind is what the recursive search returns, and a found tracker is none
of those that were there before. -/
inductive Returned (before after : Memory) : Ending → Search → Prop
  | found {place : Nat} {u : Tracker} (fresh : before.length ≤ place)
      (held : after[place]? = some u) : Returned before after (.found place) (.found u)
  | exhausted {explored : Nat} : Returned before after .exhausted (.exhausted explored)
  | gaveUp : Returned before after .gaveUp .gaveUp

/-- A whole search ends, spares what is in memory, and returns what the recursive search does. -/
theorem ends_returned (wf : g.toArena.WellFormed) (inv : Tracker.Inv g t) (limit : Option Int)
    (memory : Memory) : ∃ after ending, Ends g limit (start memory t) after ending ∧
      memory <+: after ∧
      Returned memory after ending (searchCompletion g (limit.map Int.toNat) t) := by
  have copied : (memory ++ [t])[memory.length]? = some t := List.getElem?_concat_length
  have follows := follows_explore wf limit t 0 inv (memory ++ [t]) memory.length [] copied
  have kept : ∀ {after ending}, Ends g limit (start memory t) after ending → memory <+: after :=
    fun ends => (List.prefix_append memory [t]).trans ends.spares.1
  unfold searchCompletion
  cases ended : explore g (limit.map Int.toNat) t 0 with
  | found u =>
      rw [ended] at follows
      obtain ⟨after, place, ends, held⟩ := follows
      refine ⟨after, .found place, ends, kept ends, .found ?_ held⟩
      rcases ends.spares.2 place rfl with waited | new
      · exact Nat.le_of_eq (List.mem_singleton.mp waited).symm
      · exact Nat.le_trans (List.prefix_append memory [t]).length_le new
  | exhausted explored =>
      rw [ended] at follows
      obtain ⟨after, reaches⟩ := follows
      have ends : Ends g limit (start memory t) after .exhausted := ⟨_, reaches, rfl⟩
      exact ⟨after, .exhausted, ends, kept ends, .exhausted⟩
  | gaveUp =>
      rw [ended] at follows
      obtain ⟨after, ends⟩ := follows
      exact ⟨after, .gaveUp, ends, kept ends, .gaveUp⟩

end Backtrack

/-! ## Limits -/

namespace Completion

theorem explore_of_weaker {limit : Option Nat} (weaker : Option Nat)
    (le : ∀ k, (weaker.any fun most => decide (most < k)) = true →
      (limit.any fun most => decide (most < k)) = true) (t : Tracker) (explored : Nat) :
    explore g limit t explored ≠ .gaveUp →
      explore g weaker t explored = explore g limit t explored := by
  refine explore.induct g limit
    (fun t explored => explore g limit t explored ≠ .gaveUp →
      explore g weaker t explored = explore g limit t explored)
    (fun t moves explored => exploreMoves g limit t moves explored ≠ .gaveUp →
      exploreMoves g weaker t moves explored = exploreMoves g limit t moves explored)
    ?terminal ?limit ?moves ?done ?illegal ?found ?gaveUp ?next t explored
  case terminal =>
    intro t explored terminal _
    rw [explore, explore, if_pos terminal, if_pos terminal]
  case limit =>
    intro t explored notTerminal reached stays
    rw [explore, if_neg notTerminal, if_pos reached] at stays
    exact absurd rfl stays
  case moves =>
    intro t explored notTerminal free ih stays
    have freeToo := fun reached => free (le (explored + 1) reached)
    have here : explore g limit t explored =
        exploreMoves g limit t (orderedMoves g t) (explored + 1) := by
      rw [explore, if_neg notTerminal, if_neg free]
    have there : explore g weaker t explored =
        exploreMoves g weaker t (orderedMoves g t) (explored + 1) := by
      rw [explore, if_neg notTerminal, if_neg freeToo]
    rw [here] at stays ⊢
    rw [there, ih stays]
  case done =>
    intro t explored _
    rw [exploreMoves, exploreMoves]
  case illegal =>
    intro t explored n rest fault failed ih stays
    rw [exploreMoves_skip failed] at stays ⊢
    rw [exploreMoves_skip failed, ih stays]
  case found =>
    intro t explored n rest moved applied terminal ended ih _
    have same := ih (by simp [ended])
    rw [exploreMoves_cons applied, exploreMoves_cons applied, same, ended]
  case gaveUp =>
    intro t explored n rest moved applied ended _ stays
    rw [exploreMoves_cons applied, ended] at stays
    exact absurd rfl stays
  case next =>
    intro t explored n rest moved applied more ended first second stays
    have same := first (by simp [ended])
    rw [exploreMoves_cons applied, ended] at stays
    rw [exploreMoves_cons applied, exploreMoves_cons applied, same, ended]
    exact second stays

end Completion

theorem complete?_limited (limit : Option Nat) (t : Tracker) :
    complete? g limit t = none ∨ complete? g limit t = complete? g none t := by
  by_cases gaveUp : searchCompletion g limit t = .gaveUp
  · exact .inl (by simp [complete?, gaveUp])
  · have same := Completion.explore_of_weaker none (by simp) t 0 gaveUp
    exact .inr (by simp only [complete?, searchCompletion, same])

theorem complete?_of_le {most more : Nat} (le : most ≤ more)
    (found : complete? g (some most) t = some u) : complete? g (some more) t = some u := by
  have stays : searchCompletion g (some most) t ≠ .gaveUp := by
    intro gaveUp
    simp [complete?, gaveUp] at found
  have weaker : ∀ k, ((some more).any fun most => decide (most < k)) = true →
      ((some most).any fun most => decide (most < k)) = true := by
    intro k reached
    simp only [Option.any_some, decide_eq_true_eq] at reached ⊢
    omega
  have same := Completion.explore_of_weaker (some more) weaker t 0 stays
  rw [← found]
  simp only [complete?, searchCompletion, same]

/-! ## Completions and valid terms -/

theorem exists_complete?_iff (wf : g.toArena.WellFormed) (inv : Tracker.Inv g t) :
    (∃ u, complete? g none t = some u) ↔ t.Completable g := by
  have right := searchCompletion_right none wf inv
  simp only [complete?_eq_some]
  cases ended : searchCompletion g none t with
  | found u =>
      rw [ended] at right
      obtain ⟨moves, completing, terminal⟩ := right
      exact ⟨fun _ => ⟨moves, u, completing, terminal⟩, fun _ => ⟨u, rfl⟩⟩
  | exhausted explored =>
      rw [ended] at right
      exact ⟨by simp, fun completable => absurd completable right⟩
  | gaveUp =>
      rw [ended] at right
      simp [Search.Right] at right

namespace Tracker

theorem Inv.within_of_extends (wf : g.toArena.WellFormed) (inv : Inv g u)
    (extends_ : t.assignment g <+: u.assignment g) :
    (t.assignment g).within (· == ·) (u.assignment g) = true := by
  simp only [Table.within, List.all_eq_true]
  rintro ⟨cls, node⟩ member
  simp [(inv.keyed_assignment wf).get?_of_mem (extends_.subset member)]

theorem Inv.choice_of_within (wf : g.toArena.WellFormed) (inv : Inv g t) {term : Term}
    (keyed : term.assignment.Keyed)
    (within : (t.assignment g).within (· == ·) term.assignment = true) {c n : Nat}
    (chosen : t.choice c = some n) : term.picks g c = some n := by
  simp only [Table.within, List.all_eq_true] at within
  have found := within _ (inv.mem_assignment.mpr ⟨c, n, chosen, rfl⟩)
  cases get : term.assignment.get? (g.classLabel c) with
  | none => simp [get] at found
  | some node =>
      simp only [get] at found
      obtain ⟨k, member, same⟩ := Table.get?_eq_some_mem get
      have index := EGraph.position?_nodeLabel wf (inv.member c n chosen).1 found
      exact (Term.picks_eq_some keyed).mpr
        ⟨inv.class_lt chosen, _, member, same, EGraph.nodeIndex_eq_ok.mpr index⟩

/-- Legal moves lead to every valid term that extends the assignment. -/
theorem Inv.exists_run_of_within (accepted : g.Accepted) (named : g.Named) (inv : Inv g t)
    {term : Term} (keyed : term.assignment.Keyed) (valid : term.validate g = .ok ())
    (within : (t.assignment g).within (· == ·) term.assignment = true) :
    ∃ moves u, Leads g t moves u ∧ u.isTerminal = true ∧
      (u.assignment g).same (· == ·) term.assignment = true := by
  have wf := accepted.wellFormed
  obtain ⟨⟨sound, isTerm⟩, _⟩ := (Term.validate_iff wf named keyed).mp valid
  obtain ⟨moves, u, run, terminal, same⟩ := exists_run_of_isTerm accepted isTerm inv
    fun c n chosen => inv.choice_of_within wf keyed within chosen
  exact ⟨moves, u, run, by simp [isTerminal, terminal],
    same_of_picks wf (run.inv wf inv) keyed sound same.symm⟩

theorem Inv.completable_iff (accepted : g.Accepted) (checkable : g.Checkable) (inv : Inv g t) :
    t.Completable g ↔ ∃ term : Term, term.assignment.Keyed ∧ term.validate g = .ok () ∧
      (t.assignment g).within (· == ·) term.assignment = true := by
  have wf := accepted.wellFormed
  constructor
  · rintro ⟨moves, u, run, terminal⟩
    have invEnd := run.inv wf inv
    exact ⟨⟨u.assignment g⟩, invEnd.keyed_assignment wf,
      (invEnd.validate_toTerm wf checkable (pending_of_terminal terminal)).2,
      invEnd.within_of_extends wf (run.assignment_extends wf inv)⟩
  · rintro ⟨term, keyed, valid, within⟩
    obtain ⟨moves, u, run, terminal, _⟩ :=
      inv.exists_run_of_within accepted checkable.named keyed valid within
    exact ⟨moves, u, run, terminal⟩

end Tracker

/-! ## The whole search -/

/-- Backtracking finds what there is to find, and only reads what it was given. -/
structure Exhaustive (g : EGraph) (t : Tracker) : Prop where
  /-- The search in memory ends, whatever its limit is.  The given tracker and all others stay as
  they were, and what is returned is a new tracker or nothing. -/
  ends : ∀ (limit : Option Int) (memory : Memory) (place : Nat), memory[place]? = some t →
    ∃ after ending, Backtrack.Ends g limit (Backtrack.start memory t) after ending ∧
      memory <+: after ∧ after[place]? = some t ∧
      Backtrack.Returned memory after ending (searchCompletion g (limit.map Int.toNat) t)
  finds_iff : (∃ u, complete? g none t = some u) ↔
    ∃ term : Term, term.assignment.Keyed ∧ term.validate g = .ok () ∧
      (t.assignment g).within (· == ·) term.assignment = true
  completes : ∀ limit u, complete? g limit t = some u → u.isTerminal = true ∧
    t.assignment g <+: u.assignment g ∧ ∃ term, u.toTerm g = .ok term ∧ term.validate g = .ok ()
  /-- A limit may hide the completion, but never leads to another one. -/
  limited : ∀ most : Int, complete? g (some most.toNat) t = none ∨
    complete? g (some most.toNat) t = complete? g none t
  larger : ∀ most more : Int, most ≤ more → ∀ u, complete? g (some most.toNat) t = some u →
    complete? g (some more.toNat) t = some u

/-- From every tracker that legal moves lead to, backtracking is sound and complete. -/
theorem backtracking_is_exhaustive (accepted : g.Accepted) (checkable : g.Checkable)
    {moves : List Nat} (run : Tracker.Leads g (Tracker.start g) moves t) : Exhaustive g t := by
  have wf := accepted.wellFormed
  have inv := run.inv wf (Tracker.inv_start wf)
  refine ⟨?_, ?_, ?_, fun most => complete?_limited _ t, ?_⟩
  · intro limit memory place held
    obtain ⟨after, ending, ends, kept, returned⟩ := Backtrack.ends_returned wf inv limit memory
    exact ⟨after, ending, ends, kept, Backtrack.getElem?_of_kept kept held, returned⟩
  · exact (exists_complete?_iff wf inv).trans (inv.completable_iff accepted checkable)
  · intro limit u found
    have right := searchCompletion_right limit wf inv
    rw [complete?_eq_some.mp found] at right
    obtain ⟨moves, completing, terminal⟩ := right
    exact ⟨terminal, completing.assignment_extends wf inv, _,
      (completing.inv wf inv).validate_toTerm wf checkable (Tracker.pending_of_terminal terminal)⟩
  · intro most more le u found
    exact complete?_of_le (by omega) found

/-- Below `a`, where one node leads back to `a`, the search finds the completion by the leaf. -/
theorem backtracking_is_exhaustive_loop :
    EGraph.loopGraph.Accepted ∧ EGraph.loopGraph.Checkable ∧
      Tracker.Leads EGraph.loopGraph (Tracker.start EGraph.loopGraph) [0] Tracker.insideLoop ∧
      Exhaustive EGraph.loopGraph Tracker.insideLoop := by
  have run : Tracker.Leads EGraph.loopGraph (Tracker.start EGraph.loopGraph) [0]
      Tracker.insideLoop := .move (by decide) rfl (.stay _)
  exact ⟨EGraph.loopGraph_accepted, EGraph.loopGraph_checkable, run,
    backtracking_is_exhaustive EGraph.loopGraph_accepted EGraph.loopGraph_checkable run⟩

/-- The start is completed although no term is valid: the root differs from itself. -/
theorem completion_without_valid_term :
    EGraph.unequalGraph.Accepted ∧ EGraph.unequalGraph.Named ∧
    Tracker.Leads EGraph.unequalGraph (Tracker.start EGraph.unequalGraph) []
      (Tracker.start EGraph.unequalGraph) ∧
    (∃ u, complete? EGraph.unequalGraph none (Tracker.start EGraph.unequalGraph) = some u) ∧
    ∀ term : Term, term.validate EGraph.unequalGraph ≠ .ok () := by
  obtain ⟨moves, u, found, _⟩ := searchCompletion_start EGraph.unequalGraph_accepted
  exact ⟨EGraph.unequalGraph_accepted, EGraph.unequalGraph_named, .stay _,
    ⟨u, complete?_eq_some.mpr found⟩,
    Term.not_valid_of_unequal_root EGraph.unequalGraph_root⟩

end EGraphSearch
