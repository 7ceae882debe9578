import EGraphSearch.Proofs.EGraph.Matching
import EGraphSearch.Proofs.Tracker.Terms

/-!
# Trackers of matched e-graphs

Two trackers are twins if they have resolved corresponding classes with corresponding nodes, in the
same order, and wait for corresponding classes.  Twins have corresponding legal moves, again in the
same order, and corresponding moves lead to twins.
-/

set_option autoImplicit false

namespace EGraphSearch

open Relation (ReflTransGen)

/-- The terms choose corresponding nodes for corresponding classes, in the same order. -/
def Matching.Terms {g g' : EGraph} (M : Matching g g') (term term' : Term) : Prop :=
  ∃ picks : List (Nat × Nat), (∀ pick ∈ picks, g.Offers pick.1 pick.2) ∧
    term.assignment = picks.map (fun (c, n) => (g.classLabel c, g.nodeLabel n)) ∧
    term'.assignment = picks.map fun (c, n) => (g'.classLabel (M.cls c), g'.nodeLabel (M.node n))

def Matching.frame {g g' : EGraph} (M : Matching g g') (f : Frame) : Frame :=
  ⟨M.cls f.cls, M.node f.node, f.position⟩

namespace Tracker

variable {g g' : EGraph} {M : Matching g g'} {t t' u u' : Tracker}

/-! ## What the root leads to -/

section Reached

variable {c n p : Nat}

theorem Inv.reaches_uses (wf : g.toArena.WellFormed) (inv : Inv g t) {d : Nat}
    (reached : g.Reaches c) (uses : Picks.Uses g t.choice c d) : g.Reaches d := by
  obtain ⟨n, chosen, child⟩ := uses
  obtain ⟨lt, owner, _⟩ := inv.member c n chosen
  exact .child reached ((wf.member_iff c (reached.lt wf) n lt).mpr owner) child

theorem Inv.offers (wf : g.toArena.WellFormed) (inv : Inv g t) (chosen : t.choice c = some n) :
    g.Offers c n := by
  have reached : g.Reaches c := Picks.reaches_closed (fun _ _ => inv.reaches_uses wf) .root
    (inv.connected c (by simp [chosen]))
  obtain ⟨lt, owner, _⟩ := inv.member c n chosen
  exact ⟨reached, (wf.member_iff c (reached.lt wf) n lt).mpr owner⟩

theorem Inv.offers_frame (wf : g.toArena.WellFormed) (inv : Inv g t) {frame : Frame}
    (listed : frame ∈ t.stack) : g.Offers frame.cls frame.node :=
  inv.offers wf (inv.chosen frame listed)

theorem Inv.reaches_pending (wf : g.toArena.WellFormed) (inv : Inv g t)
    (pending : t.pending = some p) : g.Reaches p :=
  Picks.reaches_closed (fun _ _ => inv.reaches_uses wf) .root
    ((inv.waiting p pending).2.connected inv.chosen)

theorem Inv.offers_of_apply (wf : g.toArena.WellFormed) (inv : Inv g t)
    (pending : t.pending = some p) (applied : t.apply g n = .ok u) : g.Offers p n := by
  obtain ⟨q, same, lt, legal, _⟩ := inv.of_apply wf applied
  obtain rfl : p = q := Option.some.inj (pending.symm.trans same)
  have reached := inv.reaches_pending wf pending
  exact ⟨reached, (wf.member_iff p (reached.lt wf) n lt).mpr (isLegalFor_iff.mp legal).2.1⟩

end Reached

/-! ## Twins -/

structure Twin (M : Matching g g') (t t' : Tracker) : Prop where
  inv : Inv g t
  inv' : Inv g' t'
  pending_eq : t'.pending = t.pending.map M.cls
  order_eq : t'.order = t.order.map M.cls
  choice_eq : ∀ c, g.Reaches c → t'.choice (M.cls c) = (t.choice c).map M.node
  stack_eq : t'.stack = t.stack.map M.frame

theorem twin_start (wf : g.toArena.WellFormed) (wf' : g'.toArena.WellFormed) :
    Twin M (start g) (start g') where
  inv := inv_start wf
  inv' := inv_start wf'
  pending_eq := by simp [start, M.root_eq]
  order_eq := rfl
  choice_eq c _ := by rw [choice_start, choice_start, Option.map_none]
  stack_eq := rfl

/-- What the search for the next class sees of two trackers. -/
structure Kin (M : Matching g g') (t t' : Tracker) : Prop where
  isOpen_eq : ∀ c, g.Reaches c → t'.isOpen (M.cls c) = t.isOpen c
  inProgress_eq : ∀ c, g.Reaches c → t'.inProgress (M.cls c) = t.inProgress c

theorem Twin.kin (wf : g.toArena.WellFormed) (wf' : g'.toArena.WellFormed) (twin : Twin M t t') :
    Kin M t t' where
  isOpen_eq c reached := by
    rw [Bool.eq_iff_iff, isOpen_iff, isOpen_iff, twin.choice_eq c reached, Option.map_eq_none_iff,
      twin.inv.assigned_size, twin.inv'.assigned_size]
    simp [reached.lt wf, (M.reaches reached).lt wf']
  inProgress_eq c reached := by
    rw [Bool.eq_iff_iff, twin.inv.inProgress_iff, twin.inv'.inProgress_iff, twin.stack_eq,
      List.map_map, List.mem_map, List.mem_map]
    constructor
    · rintro ⟨frame, listed, same⟩
      have reachedFrame := (twin.inv.offers_frame wf listed).reached
      exact ⟨frame, listed, M.cls_inj _ _ reachedFrame reached same⟩
    · rintro ⟨frame, listed, rfl⟩
      exact ⟨frame, listed, rfl⟩

/-! ## Legal moves -/

section Moves

variable {c n p : Nat}

theorem Twin.isTerminal_eq (twin : Twin M t t') : t'.isTerminal = t.isTerminal := by
  rw [isTerminal, isTerminal, twin.pending_eq, Option.isNone_map]

theorem Kin.isLegalFor_eq (leveled : g.Leveled) (leveled' : g'.Leveled) (kin : Kin M t t')
    (offers : g.Offers c n) :
    t'.isLegalFor g' (M.cls c) (M.node n) = t.isLegalFor g c n := by
  have children : (g'.childrenOf (M.node n)).all
      (fun child => child != M.cls c && !t'.inProgress child) =
        (g.childrenOf n).all fun child => child != c && !t.inProgress child := by
    rw [M.children_eq c n offers, List.all_map, Bool.eq_iff_iff, List.all_eq_true,
      List.all_eq_true]
    refine forall₂_congr fun d child => ?_
    have reached := offers.child child
    simp [bne, M.cls_beq reached offers.reached, kin.inProgress_eq d reached]
  simp only [isLegalFor, children, kin.isOpen_eq c offers.reached, M.nodeLevel_eq leveled leveled'
    offers, (M.offers offers).owner leveled'.wellFormed, offers.owner leveled.wellFormed,
    beq_self_eq_true]

theorem Twin.legalMoves_eq (leveled : g.Leveled) (leveled' : g'.Leveled) (twin : Twin M t t') :
    t'.legalMoves g' = (t.legalMoves g).map M.node := by
  have wf := leveled.wellFormed
  unfold legalMoves
  rw [twin.pending_eq]
  cases pending : t.pending with
  | none => rfl
  | some p =>
      have reached := twin.inv.reaches_pending wf pending
      have kin := twin.kin wf leveled'.wellFormed
      simp only [Option.map_some]
      rw [M.members_eq p reached, List.filter_map]
      refine congrArg (List.map M.node) (List.filter_congr fun n member => ?_)
      exact kin.isLegalFor_eq leveled leveled' ⟨reached, member⟩

/-- The legal moves are members of one class. -/
theorem Inv.offers_legalMoves (wf : g.toArena.WellFormed) (inv : Inv g t) :
    ∃ c, ∀ n ∈ t.legalMoves g, g.Offers c n := by
  unfold legalMoves
  cases pending : t.pending with
  | none => exact ⟨0, by simp⟩
  | some p =>
      refine ⟨p, fun n member => ⟨inv.reaches_pending wf pending, ?_⟩⟩
      exact (List.mem_filter.mp member).1

end Moves

/-! ## The next class -/

section Advancing

variable {p n : Nat}

theorem Kin.firstOpen (kin : Kin M t t') (children : List Nat) :
    ∀ {position : Nat} {found : Option (Nat × Nat)}, (∀ c ∈ children, g.Reaches c) →
      t.firstOpen g children position = .ok found →
      t'.firstOpen g' (children.map M.cls) position = .ok (found.map (Prod.map M.cls id)) := by
  induction children with
  | nil =>
      intro position found _ looked
      cases looked
      rfl
  | cons child rest ih =>
      intro position found reached looked
      have reachedChild := reached child List.mem_cons_self
      simp only [Tracker.firstOpen, List.map_cons, kin.isOpen_eq child reachedChild,
        kin.inProgress_eq child reachedChild] at looked ⊢
      split at looked
      · rename_i isOpen
        cases looked
        rw [if_pos isOpen]
        rfl
      · rename_i notOpen
        rw [if_neg notOpen]
        split at looked
        · simp at looked
        · rename_i idle
          rw [if_neg idle]
          exact ih (fun c later => reached c (List.mem_cons_of_mem _ later)) looked

theorem inProgress_pop (t : Tracker) (c d : Nat) :
    inProgress { t with onPath := t.onPath.setIfInBounds c false } d =
      if d = c then false else t.inProgress d := by
  simp only [inProgress, Array.getD_eq_getD_getElem?, Array.getElem?_setIfInBounds]
  by_cases same : d = c
  · subst same
    by_cases inside : d < t.onPath.size <;> simp [inside]
  · simp [same, Ne.symm same]

theorem Kin.pop (kin : Kin M t t') {c : Nat} (reached : g.Reaches c) :
    Kin M { t with onPath := t.onPath.setIfInBounds c false }
      { t' with onPath := t'.onPath.setIfInBounds (M.cls c) false } where
  isOpen_eq := kin.isOpen_eq
  inProgress_eq d reachedHere := by
    rw [inProgress_pop, inProgress_pop, kin.inProgress_eq d reachedHere]
    by_cases same : d = c
    · rw [if_pos same, if_pos (congrArg M.cls same)]
    · rw [if_neg same, if_neg fun equal => same (M.cls_inj d c reachedHere reached equal)]

theorem Kin.advance (stack : List Frame) :
    ∀ {t t' u u' : Tracker}, Kin M t t' → (∀ frame ∈ stack, g.Offers frame.cls frame.node) →
      t.advance g stack = .ok u → t'.advance g' (stack.map M.frame) = .ok u' →
      u'.pending = u.pending.map M.cls ∧ u'.stack = u.stack.map M.frame := by
  induction stack with
  | nil =>
      intro t t' u u' _ _ advanced advanced'
      cases advanced
      cases advanced'
      exact ⟨rfl, rfl⟩
  | cons frame below ih =>
      intro t t' u u' kin offered advanced advanced'
      have offers := offered frame List.mem_cons_self
      simp only [Tracker.advance, List.map_cons] at advanced advanced'
      cases looked : t.firstOpen g ((g.childrenOf frame.node).drop frame.position)
          frame.position with
      | error fault => simp [looked] at advanced
      | ok found =>
          have looked' := kin.firstOpen _
            (fun c member => offers.child (List.mem_of_mem_drop member)) looked
          rw [List.map_drop, ← M.children_eq _ _ offers] at looked'
          have looked' : t'.firstOpen g' ((g'.childrenOf (M.frame frame).node).drop
              (M.frame frame).position) (M.frame frame).position =
                .ok (found.map (Prod.map M.cls id)) := looked'
          cases found with
          | some next =>
              simp only [looked, looked', Option.map_some] at advanced advanced'
              cases advanced
              cases advanced'
              exact ⟨rfl, rfl⟩
          | none =>
              simp only [looked, looked', Option.map_none] at advanced advanced'
              exact ih (kin.pop offers.reached)
                (fun f later => offered f (List.mem_cons_of_mem _ later)) advanced advanced'

/-! Just after a move, the two trackers look for the next class from corresponding frames. -/

theorem isOpen_entered (isOpen : t.isOpen p = true) (c : Nat) :
    ((t.assign p n).enter g p n).isOpen c = (c != p && t.isOpen c) := by
  have inside := (isOpen_iff.mp isOpen).1
  have size : ((t.assign p n).enter g p n).assigned.size = t.assigned.size := by
    unfold enter
    split <;> simp [assign]
  rw [Bool.eq_iff_iff, isOpen_iff, size, choice_enter, choice_assign n inside]
  by_cases same : c = p
  · simp [same]
  · rw [if_neg same, Bool.and_eq_true, isOpen_iff]
    simp [same]

theorem inProgress_entered (inside : p < t.onPath.size) (c : Nat) :
    ((t.assign p n).enter g p n).inProgress c =
      (t.inProgress c || c == p && !(g.childrenOf n).isEmpty) := by
  unfold enter
  cases leaf : (g.childrenOf n).isEmpty with
  | true => simp [assign, inProgress]
  | false =>
      simp only [Bool.false_eq_true, if_false, assign, inProgress, Array.getD_eq_getD_getElem?,
        Array.getElem?_setIfInBounds]
      by_cases same : c = p
      · simp [same, inside]
      · simp [same, Ne.symm same]

theorem Twin.entered (wf : g.toArena.WellFormed) (wf' : g'.toArena.WellFormed)
    (twin : Twin M t t') (pending : t.pending = some p) (offers : g.Offers p n) :
    Kin M ((t.assign p n).enter g p n)
        ((t'.assign (M.cls p) (M.node n)).enter g' (M.cls p) (M.node n)) ∧
      ((t'.assign (M.cls p) (M.node n)).enter g' (M.cls p) (M.node n)).stack =
        ((t.assign p n).enter g p n).stack.map M.frame := by
  have kin := twin.kin wf wf'
  have isOpen := (twin.inv.waiting p pending).1
  have isOpen' : t'.isOpen (M.cls p) = true := by rw [kin.isOpen_eq p offers.reached, isOpen]
  have inside : p < t.onPath.size := by
    rw [twin.inv.onPath_size]
    exact offers.reached.lt wf
  have inside' : M.cls p < t'.onPath.size := by
    rw [twin.inv'.onPath_size]
    exact (M.reaches offers.reached).lt wf'
  have leaf : (g'.childrenOf (M.node n)).isEmpty = (g.childrenOf n).isEmpty := by
    rw [M.children_eq p n offers, List.isEmpty_map]
  refine ⟨⟨?_, ?_⟩, ?_⟩
  · intro c reached
    rw [isOpen_entered isOpen, isOpen_entered isOpen', kin.isOpen_eq c reached, bne, bne,
      M.cls_beq reached offers.reached]
  · intro c reached
    rw [inProgress_entered inside, inProgress_entered inside', kin.inProgress_eq c reached,
      M.cls_beq reached offers.reached, leaf]
  · unfold enter
    rw [leaf]
    cases (g.childrenOf n).isEmpty with
    | true => exact twin.stack_eq
    | false =>
        simp only [Bool.false_eq_true, if_false, List.map_cons, assign, twin.stack_eq]
        rfl

theorem offers_entered (wf : g.toArena.WellFormed) (inv : Inv g t) (offers : g.Offers p n) :
    ∀ frame ∈ ((t.assign p n).enter g p n).stack, g.Offers frame.cls frame.node := by
  intro frame listed
  unfold enter at listed
  split at listed
  · exact inv.offers_frame wf listed
  · rcases List.mem_cons.mp listed with rfl | outer
    · exact offers
    · exact inv.offers_frame wf outer

theorem advance_of_apply (lt : n < g.numNodes) (pending : t.pending = some p)
    (legal : t.isLegalFor g p n = true) (applied : t.apply g n = .ok u) :
    ((t.assign p n).enter g p n).advance g ((t.assign p n).enter g p n).stack = .ok u := by
  simpa [apply, lt, pending, legal] using applied

/-- Corresponding moves lead twins to twins. -/
theorem Twin.apply (leveled : g.Leveled) (leveled' : g'.Leveled) (twin : Twin M t t')
    (applied : t.apply g n = .ok u) : ∃ u', t'.apply g' (M.node n) = .ok u' ∧ Twin M u u' := by
  have wf := leveled.wellFormed
  have wf' := leveled'.wellFormed
  obtain ⟨p, pending, lt, legal, inv, order, choice⟩ := twin.inv.of_apply wf applied
  have offers := twin.inv.offers_of_apply wf pending applied
  have lt' := (M.offers offers).lt wf'
  have pending' : t'.pending = some (M.cls p) := by rw [twin.pending_eq, pending, Option.map_some]
  have legal' : t'.isLegalFor g' (M.cls p) (M.node n) = true := by
    rw [(twin.kin wf wf').isLegalFor_eq leveled leveled' offers, legal]
  obtain ⟨u', applied', inv', order', choice'⟩ := apply_spec wf' twin.inv' pending' lt' legal'
  obtain ⟨kin, stack⟩ := twin.entered wf wf' pending offers
  have advanced' := advance_of_apply lt' pending' legal' applied'
  rw [stack] at advanced'
  obtain ⟨samePending, sameStack⟩ := kin.advance _ (offers_entered wf twin.inv offers)
    (advance_of_apply lt pending legal applied) advanced'
  refine ⟨u', applied', inv, inv', samePending, ?_, ?_, sameStack⟩
  · rw [order, order', twin.order_eq, List.map_append, List.map_singleton]
  · intro c reached
    rw [choice, choice', twin.choice_eq c reached]
    by_cases same : c = p
    · rw [if_pos same, if_pos (congrArg M.cls same), Option.map_some]
    · rw [if_neg same, if_neg fun equal => same (M.cls_inj c p reached offers.reached equal)]

end Advancing

/-! ## Terms -/

theorem Twin.choices_eq (wf : g.toArena.WellFormed) (twin : Twin M t t') :
    t'.choices = t.choices.map fun (c, n) => (M.cls c, M.node n) := by
  rw [choices, choices, twin.order_eq, List.filterMap_map, List.map_filterMap]
  refine List.filterMap_congr fun c resolved => ?_
  obtain ⟨n, chosen⟩ := Option.isSome_iff_exists.mp ((twin.inv.mem_order c).mp resolved)
  simp [twin.choice_eq c (twin.inv.offers wf chosen).reached, chosen]

theorem Twin.terms (wf : g.toArena.WellFormed) (twin : Twin M t t') :
    M.Terms ⟨t.assignment g⟩ ⟨t'.assignment g'⟩ := by
  refine ⟨t.choices, ?_, rfl, ?_⟩
  · rintro ⟨c, n⟩ listed
    exact twin.inv.offers wf (twin.inv.mem_choices.mp listed)
  · rw [assignment, twin.choices_eq wf, List.map_map]
    rfl

end Tracker

end EGraphSearch
