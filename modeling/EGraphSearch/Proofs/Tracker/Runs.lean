import EGraphSearch.Proofs.Tracker.Invariant

/-!
# Runs of legal moves

A run makes one legal move after another.  Choices are never taken back, so the final choices tell
which moves were made; and a term that extends the choices so far offers a legal move at every
turn, so it can be reached.
-/

set_option autoImplicit false

namespace EGraphSearch

namespace Tracker

variable {g : EGraph} {t u v : Tracker} {moves others : List Nat}

/-- The moves lead from one tracker to another, each of them legal where it is made. -/
inductive Leads (g : EGraph) : Tracker → List Nat → Tracker → Prop
  | stay (t : Tracker) : Leads g t [] t
  | move {t next u : Tracker} {n : Nat} {rest : List Nat} (legal : n ∈ t.legalMoves g)
      (applied : t.apply g n = .ok next) (later : Leads g next rest u) : Leads g t (n :: rest) u

theorem Leads.inv (wf : g.toArena.WellFormed) (run : Leads g t moves u) (inv : Inv g t) :
    Inv g u := by
  induction run with
  | stay t => exact inv
  | move _ applied _ ih =>
      obtain ⟨_, _, _, _, invNext, _⟩ := inv.of_apply wf applied
      exact ih invNext

theorem Leads.append (first : Leads g t moves u) (second : Leads g u others v) :
    Leads g t (moves ++ others) v := by
  induction first with
  | stay t => exact second
  | move legal applied _ ih => exact .move legal applied (ih second)

theorem Leads.length_order (wf : g.toArena.WellFormed) (run : Leads g t moves u) (inv : Inv g t) :
    u.order.length = t.order.length + moves.length := by
  induction run with
  | stay t => rfl
  | move _ applied _ ih =>
      obtain ⟨p, _, _, _, invNext, order, _⟩ := inv.of_apply wf applied
      rw [ih invNext, order]
      simp only [List.length_append, List.length_cons, List.length_nil]
      omega

theorem choice_of_apply (wf : g.toArena.WellFormed) (inv : Inv g t) {n : Nat}
    (applied : t.apply g n = .ok u) {c m : Nat} (chosen : t.choice c = some m) :
    u.choice c = some m := by
  obtain ⟨p, pending, _, legal, _, _, choice⟩ := inv.of_apply wf applied
  have open_ := (isOpen_iff.mp (isLegalFor_iff.mp legal).1).2
  rw [choice, if_neg, chosen]
  rintro rfl
  simp [open_] at chosen

/-- Choices are never taken back. -/
theorem Leads.choice (wf : g.toArena.WellFormed) (run : Leads g t moves u) (inv : Inv g t)
    {c n : Nat} (chosen : t.choice c = some n) : u.choice c = some n := by
  induction run with
  | stay t => exact chosen
  | move _ applied _ ih =>
      obtain ⟨_, _, _, _, invNext, _⟩ := inv.of_apply wf applied
      exact ih invNext (choice_of_apply wf inv applied chosen)

theorem Leads.head_choice (wf : g.toArena.WellFormed) (inv : Inv g t) {n p : Nat}
    (run : Leads g t (n :: moves) u) (pending : t.pending = some p) : u.choice p = some n := by
  cases run with
  | move _ applied later =>
      obtain ⟨q, samePending, _, _, invNext, _, choice⟩ := inv.of_apply wf applied
      cases pending.symm.trans samePending
      exact later.choice wf invNext (by rw [choice, if_pos rfl])

theorem Leads.pending_of_cons {n : Nat} (run : Leads g t (n :: moves) u) :
    ∃ p, t.pending = some p := by
  cases run with
  | move legal _ _ =>
      cases pending : t.pending with
      | none => simp [legalMoves, pending] at legal
      | some p => exact ⟨p, rfl⟩

/-- Two runs that make the same choices make the same moves. -/
theorem Leads.unique (wf : g.toArena.WellFormed) (first : Leads g t moves u)
    (second : Leads g t others v) (inv : Inv g t) (same : ∀ c, u.choice c = v.choice c) :
    moves = others := by
  induction first generalizing others with
  | stay t =>
      cases others with
      | nil => rfl
      | cons n rest =>
          obtain ⟨p, pending⟩ := second.pending_of_cons
          have chosen := second.head_choice wf inv pending
          have open_ := (isOpen_iff.mp (inv.waiting p pending).1).2
          rw [← same p, open_] at chosen
          simp at chosen
  | @move t next u n rest legal applied later ih =>
      have first : Leads g t (n :: rest) u := .move legal applied later
      obtain ⟨p, pending⟩ := first.pending_of_cons
      have chosen := first.head_choice wf inv pending
      cases second with
      | stay =>
          have open_ := (isOpen_iff.mp (inv.waiting p pending).1).2
          rw [same p, open_] at chosen
          simp at chosen
      | @move _ _ _ m others' legal' applied' later' =>
          have chosen' := (Leads.move legal' applied' later').head_choice wf inv pending
          obtain rfl : n = m := Option.some.inj ((chosen.symm.trans (same p)).trans chosen')
          cases Except.ok.inj (applied.symm.trans applied')
          obtain ⟨_, _, _, _, invNext, _⟩ := inv.of_apply wf applied
          rw [ih later' invNext same]

/-! ## Completeness -/

section Completion

variable {f : Picks}

theorem Inv.pending_picked (inv : Inv g t) (term : Picks.IsTerm g f)
    (sub : ∀ c n, t.choice c = some n → f c = some n) {p : Nat} (pending : t.pending = some p) :
    ∃ n, f p = some n := by
  obtain ⟨_, waits⟩ := inv.waiting p pending
  apply Option.isSome_iff_exists.mp
  cases stack : t.stack with
  | nil =>
      rw [stack] at waits
      rw [waits]
      exact term.root_picked
  | cons frame below =>
      rw [stack] at waits
      have chosen := inv.chosen frame (by simp [stack])
      exact term.closed frame.cls p ⟨frame.node, sub _ _ chosen, List.mem_of_getElem? waits.1⟩

/-- The node that a term picks for the pending class is legal. -/
theorem Inv.picked_isLegal (accepted : g.Accepted) (inv : Inv g t) (term : Picks.IsTerm g f)
    (sub : ∀ c n, t.choice c = some n → f c = some n) {p n : Nat} (pending : t.pending = some p)
    (picked : f p = some n) : n < g.numNodes ∧ t.isLegalFor g p n = true := by
  obtain ⟨isOpen, waits⟩ := inv.waiting p pending
  obtain ⟨_, lt, owner⟩ := term.member p n picked
  obtain ⟨h, level⟩ := term.level_finite accepted picked
  refine ⟨lt, isLegalFor_iff.mpr ⟨isOpen, owner, by rw [level]; rfl, ?_⟩⟩
  intro d child
  have uses : f.Uses g p d := ⟨n, picked, child⟩
  constructor
  · rintro rfl
    exact term.acyclic d (.single uses)
  · rw [← Bool.not_eq_true, inv.inProgress_iff]
    intro ancestor
    have reaches := waits.reaches inv.chosen d ancestor
    have reaches := Relation.TransGen.mono (fun _ _ uses => Picks.Uses.mono sub uses) _ _ reaches
    exact term.acyclic d (reaches.tail uses)

theorem Inv.eq_of_terminal (inv : Inv g t) (terminal : t.pending = none)
    (term : Picks.IsTerm g f) (sub : ∀ c n, t.choice c = some n → f c = some n) :
    t.choice = f := by
  have whole := inv.isTerm terminal
  funext c
  cases picked : f c with
  | none =>
      cases chosen : t.choice c with
      | none => rfl
      | some n => simp [sub c n chosen] at picked
  | some n =>
      have walk := term.connected c (by simp [picked])
      have resolved : (t.choice c).isSome := by
        refine Picks.reaches_closed (p := fun c => (t.choice c).isSome) ?_ whole.root_picked walk
        rintro a b chosen ⟨m, pickedNode, child⟩
        obtain ⟨k, chosen⟩ := Option.isSome_iff_exists.mp chosen
        cases (sub a k chosen).symm.trans pickedNode
        exact whole.closed a b ⟨m, chosen, child⟩
      obtain ⟨m, chosen⟩ := Option.isSome_iff_exists.mp resolved
      rw [chosen, ← sub c m chosen, picked]

/-- Every term that extends the choices can be reached by legal moves. -/
theorem exists_run_of_isTerm (accepted : g.Accepted) (term : Picks.IsTerm g f) (inv : Inv g t)
    (sub : ∀ c n, t.choice c = some n → f c = some n) :
    ∃ moves u, Leads g t moves u ∧ u.pending = none ∧ u.choice = f := by
  have wf := accepted.wellFormed
  -- each move resolves an open class, so the number of open classes bounds the run
  suffices bounded : ∀ k, ∀ {t : Tracker}, t.openCount < k → Inv g t →
      (∀ c n, t.choice c = some n → f c = some n) →
      ∃ moves u, Leads g t moves u ∧ u.pending = none ∧ u.choice = f from
    bounded _ (Nat.lt_succ_self _) inv sub
  intro k
  induction k with
  | zero => exact fun small => absurd small (Nat.not_lt_zero _)
  | succ k ih =>
      intro t small inv sub
      cases pending : t.pending with
      | none => exact ⟨[], t, .stay t, pending, inv.eq_of_terminal pending term sub⟩
      | some p =>
          obtain ⟨n, picked⟩ := inv.pending_picked term sub pending
          obtain ⟨lt, legal⟩ := inv.picked_isLegal accepted term sub pending picked
          obtain ⟨next, applied, invNext, _, choice⟩ := apply_spec wf inv pending lt legal
          have fewer := apply_openCount applied
          have subNext : ∀ c m, next.choice c = some m → f c = some m := by
            intro c m chosen
            rw [choice] at chosen
            split at chosen
            · rename_i same
              rw [same, picked, chosen]
            · exact sub c m chosen
          obtain ⟨moves, u, run, terminal, same⟩ := ih (by omega) invNext subNext
          exact ⟨n :: moves, u, .move (mem_legalMoves_of_apply wf inv applied) applied run,
            terminal, same⟩

end Completion

end Tracker

end EGraphSearch
