import EGraphSearch.Proofs.Tracker.Runs
import Mathlib.Data.List.Chain

/-!
# Exact exclusion of cycles

The test that a move undergoes looks at the pending class and at the ancestor marks only.  In every
tracker that legal moves lead to, these marks are the classes from which chosen nodes lead to the
pending class, so the test refuses a node of finite level exactly if its edges would close a cycle.
-/

set_option autoImplicit false

namespace EGraphSearch

open Relation (TransGen ReflTransGen)

/-- The chosen nodes with the edges of one more node `n` for the class `p`. -/
def Picks.UsesWith (g : EGraph) (f : Picks) (p n c d : Nat) : Prop :=
  f.Uses g c d ∨ c = p ∧ d ∈ g.childrenOf n

namespace Tracker

variable {g : EGraph} {t : Tracker} {p n : Nat}

/-! ## The chain of frames -/

theorem Waits.isChain {stack : List Frame} {next : Nat} (waits : Waits g next stack)
    (chosen : ∀ frame ∈ stack, t.choice frame.cls = some frame.node) :
    (stack.reverse.map Frame.cls ++ [next]).IsChain (Picks.Uses g t.choice) := by
  induction stack generalizing next with
  | nil => simp
  | cons frame below ih =>
      obtain ⟨child, waitsBelow⟩ := waits
      have outer := ih waitsBelow fun f hf => chosen f (List.mem_cons_of_mem _ hf)
      have uses : Picks.Uses g t.choice frame.cls next :=
        ⟨frame.node, chosen frame List.mem_cons_self, List.mem_of_getElem? child⟩
      rw [List.reverse_cons, List.map_append, List.map_singleton]
      refine outer.append (List.isChain_singleton next) ?_
      intro a last b first
      obtain rfl : frame.cls = a := by simpa using last
      obtain rfl : next = b := by simpa using first
      exact uses

theorem Waits.head_eq {stack : List Frame} {next : Nat} (waits : Waits g next stack) :
    (stack.reverse.map Frame.cls ++ [next]).head? = some g.root := by
  induction stack generalizing next with
  | nil => exact congrArg some waits
  | cons frame below ih =>
      rw [List.reverse_cons, List.map_append, List.map_singleton, List.head?_append, ih waits.2]
      rfl

/-! ## Marks and reachability -/

theorem Inv.finished_of_reaches (inv : Inv g t) {c d : Nat} (finished : t.Finished c)
    (walk : ReflTransGen (Picks.Uses g t.choice) c d) : t.Finished d :=
  Picks.reaches_closed inv.closed finished walk

theorem Inv.inProgress_iff_reaches (inv : Inv g t) (c : Nat) : t.inProgress c = true ↔
    (t.choice c).isSome ∧
      ∃ p, t.pending = some p ∧ ReflTransGen (Picks.Uses g t.choice) c p := by
  constructor
  · intro marked
    have listed := (inv.inProgress_iff c).mp marked
    obtain ⟨frame, member, rfl⟩ := List.mem_map.mp listed
    refine ⟨by simp [inv.chosen frame member], ?_⟩
    cases pending : t.pending with
    | none =>
        rw [(inv.done pending).1] at member
        simp at member
    | some p =>
        have reaches := (inv.waiting p pending).2.reaches inv.chosen _ listed
        exact ⟨p, rfl, reaches.to_reflTransGen⟩
  · rintro ⟨resolved, p, pending, walk⟩
    by_contra idle
    have finished := inv.finished_of_reaches ⟨resolved, by simpa using idle⟩ walk
    have isOpen := (isOpen_iff.mp (inv.waiting p pending).1).2
    simp [Finished, isOpen] at finished

/-! ## The test -/

theorem usesWith_iff (isOpen : t.isOpen p = true) (n c d : Nat) :
    Picks.UsesWith g t.choice p n c d ↔ Picks.Uses g (t.assign p n).choice c d := by
  obtain ⟨inside, openHere⟩ := isOpen_iff.mp isOpen
  by_cases here : c = p
  · subst here
    simp [Picks.UsesWith, Picks.Uses, choice_assign n inside, openHere]
  · simp [Picks.UsesWith, Picks.Uses, choice_assign n inside, here]

theorem Inv.cycle_of_child (inv : Inv g t) (pending : t.pending = some p) {d : Nat}
    (child : d ∈ g.childrenOf n) (hit : d = p ∨ t.inProgress d = true) :
    TransGen (Picks.UsesWith g t.choice p n) p p := by
  have edge : Picks.UsesWith g t.choice p n p d := .inr ⟨rfl, child⟩
  rcases hit with rfl | marked
  · exact .single edge
  · obtain ⟨_, q, same, walk⟩ := (inv.inProgress_iff_reaches d).mp marked
    obtain rfl : p = q := Option.some.inj (pending.symm.trans same)
    exact TransGen.head' edge (ReflTransGen.mono (fun _ _ => Or.inl) _ _ walk)

theorem Inv.mem_legalMoves_iff_acyclic (wf : g.toArena.WellFormed) (inv : Inv g t)
    (pending : t.pending = some p) (member : n ∈ g.membersOf p) :
    n ∈ t.legalMoves g ↔ (g.nodeLevel n).isFinite = true ∧
      ∀ c, ¬ TransGen (Picks.UsesWith g t.choice p n) c c := by
  obtain ⟨isOpen, _⟩ := inv.waiting p pending
  have inside : p < g.numClasses := inv.assigned_size ▸ (isOpen_iff.mp isOpen).1
  have lt := wf.member_lt p inside n member
  have owner := (wf.member_iff p inside n lt).mp member
  have sameUses : Picks.UsesWith g t.choice p n = Picks.Uses g (t.assign p n).choice := by
    funext c d
    exact propext (usesWith_iff isOpen n c d)
  rw [mem_legalMoves_iff wf inv]
  constructor
  · rintro ⟨q, same, _, legal⟩
    obtain rfl : p = q := Option.some.inj (pending.symm.trans same)
    refine ⟨(isLegalFor_iff.mp legal).2.2.1, ?_⟩
    rw [sameUses]
    exact inv.acyclic_assign legal
  · rintro ⟨finite, acyclic⟩
    refine ⟨p, pending, lt, isLegalFor_iff.mpr ⟨isOpen, owner, finite, ?_⟩⟩
    intro d child
    by_contra hit
    have hit : d = p ∨ t.inProgress d = true := by
      by_contra neither
      rw [not_or, Bool.not_eq_true] at neither
      exact hit neither
    exact acyclic p (inv.cycle_of_child pending child hit)

/-! ## What the marks mean -/

/-- The ancestor marks of a tracker, its frames and its legal moves say which cycles are close. -/
structure CycleFree (g : EGraph) (t : Tracker) : Prop where
  marked_iff : ∀ c, t.inProgress c = true ↔ c ∈ t.ancestorPath
  distinct : t.ancestorPath.Nodup
  frame_chosen : ∀ frame ∈ t.stack, t.choice frame.cls = some frame.node
  /-- Each frame's node refers to the class of the next frame, the innermost one's to the pending
  class. -/
  chain : (t.ancestorPath ++ t.pending.toList).IsChain (Picks.Uses g t.choice)
  head_eq : ∀ p, t.pending = some p → (t.ancestorPath ++ [p]).head? = some g.root
  path_of_terminal : t.pending = none → t.ancestorPath = []
  marked_iff_reaches : ∀ c, t.inProgress c = true ↔ (t.choice c).isSome ∧
    ∃ p, t.pending = some p ∧ ReflTransGen (Picks.Uses g t.choice) c p
  acyclic : ∀ c, ¬ TransGen (Picks.Uses g t.choice) c c
  legal_iff : ∀ p, t.pending = some p → ∀ n ∈ g.membersOf p, (n ∈ t.legalMoves g ↔
    (g.nodeLevel n).isFinite = true ∧ ∀ c, ¬ TransGen (Picks.UsesWith g t.choice p n) c c)

theorem Inv.cycleFree (wf : g.toArena.WellFormed) (inv : Inv g t) : CycleFree g t := by
  have sameClasses : ∀ c, c ∈ t.ancestorPath ↔ c ∈ t.stack.map Frame.cls := by
    intro c
    simp [ancestorPath]
  refine ⟨?_, ?_, inv.chosen, ?_, ?_, ?_, inv.inProgress_iff_reaches, inv.acyclic, ?_⟩
  · intro c
    rw [sameClasses]
    exact inv.inProgress_iff c
  · rw [ancestorPath, List.map_reverse]
    exact List.nodup_reverse.mpr inv.distinct
  · cases pending : t.pending with
    | none =>
        rw [ancestorPath, (inv.done pending).1]
        simp
    | some p => exact (inv.waiting p pending).2.isChain inv.chosen
  · intro p pending
    exact (inv.waiting p pending).2.head_eq
  · intro terminal
    rw [ancestorPath, (inv.done terminal).1]
    rfl
  · intro p pending n member
    exact inv.mem_legalMoves_iff_acyclic wf pending member

/-- Whatever legal moves were made, the test refuses exactly the moves that would close a cycle. -/
theorem legal_moves_exclude_cycles (accepted : g.Accepted) {moves : List Nat}
    (run : Leads g (start g) moves t) : CycleFree g t :=
  (run.inv accepted.wellFormed (inv_start accepted.wellFormed)).cycleFree accepted.wellFormed

/-- One move into the graph with a cycle: `b` is pending below `a`, and only its leaf is legal. -/
def insideLoop : Tracker :=
  ⟨#[some 0, none], [0], #[true, false], [⟨0, 0, 0⟩], some 1⟩

theorem legal_moves_exclude_cycles_loop :
    EGraph.loopGraph.Accepted ∧ Leads EGraph.loopGraph (start EGraph.loopGraph) [0] insideLoop ∧
      insideLoop.legalMoves EGraph.loopGraph = [3] ∧ CycleFree EGraph.loopGraph insideLoop := by
  have run : Leads EGraph.loopGraph (start EGraph.loopGraph) [0] insideLoop :=
    .move (by decide) rfl (.stay _)
  exact ⟨EGraph.loopGraph_accepted, run, by decide,
    legal_moves_exclude_cycles EGraph.loopGraph_accepted run⟩

end Tracker

end EGraphSearch
