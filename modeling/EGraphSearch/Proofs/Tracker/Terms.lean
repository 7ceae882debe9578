import EGraphSearch.Proofs.Term.Validity
import EGraphSearch.Proofs.Tracker.Runs

/-!
# Trackers and terms

The assignment of a tracker spells its choices by name.  Terminal trackers that legal moves lead to
and valid terms correspond one to one.
-/

set_option autoImplicit false

namespace EGraphSearch

namespace Tracker

variable {g : EGraph} {t u : Tracker}

/-! ## Assignments -/

theorem Inv.class_lt (inv : Inv g t) {c n : Nat} (chosen : t.choice c = some n) :
    c < g.numClasses := by
  rw [← inv.assigned_size]
  exact choice_lt chosen

theorem Inv.mem_choices (inv : Inv g t) {c n : Nat} :
    (c, n) ∈ t.choices ↔ t.choice c = some n := by
  simp only [choices, List.mem_filterMap, Option.map_eq_some_iff, Prod.mk.injEq]
  constructor
  · rintro ⟨d, _, m, chosen, rfl, rfl⟩
    exact chosen
  · intro chosen
    exact ⟨c, (inv.mem_order c).mpr (by simp [chosen]), n, chosen, rfl, rfl⟩

theorem Inv.choices_map_fst (inv : Inv g t) : t.choices.map Prod.fst = t.order := by
  have resolved : ∀ c ∈ t.order, (t.choice c).isSome := fun c hc => (inv.mem_order c).mp hc
  unfold choices
  revert resolved
  induction t.order with
  | nil => simp
  | cons c rest ih =>
      intro resolved
      obtain ⟨n, chosen⟩ := Option.isSome_iff_exists.mp (resolved c (by simp))
      simp [chosen, ih fun d hd => resolved d (by simp [hd])]

theorem Inv.mem_assignment (inv : Inv g t) {entry : Label × Label} :
    entry ∈ t.assignment g ↔
      ∃ c n, t.choice c = some n ∧ entry = (g.classLabel c, g.nodeLabel n) := by
  simp only [assignment, List.mem_map, Prod.exists, inv.mem_choices]
  constructor
  · rintro ⟨c, n, chosen, rfl⟩
    exact ⟨c, n, chosen, rfl⟩
  · rintro ⟨c, n, chosen, rfl⟩
    exact ⟨c, n, chosen, rfl⟩

/-- A move appends the pending class with its node. -/
theorem Inv.choices_of_apply (wf : g.toArena.WellFormed) (inv : Inv g t) {p n : Nat}
    (pending : t.pending = some p) (applied : t.apply g n = .ok u) :
    u.choices = t.choices ++ [(p, n)] := by
  obtain ⟨q, same, _, legal, _, order, choice⟩ := inv.of_apply wf applied
  obtain rfl : p = q := Option.some.inj (pending.symm.trans same)
  have openHere := (isOpen_iff.mp (isLegalFor_iff.mp legal).1).2
  have fresh : ∀ c ∈ t.order, c ≠ p := by
    rintro c resolved rfl
    simpa [openHere] using (inv.mem_order c).mp resolved
  have old : ∀ c ∈ t.order, (u.choice c).map (fun n => (c, n)) =
      (t.choice c).map fun n => (c, n) := by
    intro c resolved
    rw [choice, if_neg (fresh c resolved)]
  rw [choices, order, List.filterMap_append, List.filterMap_congr old]
  simp [choices, choice]

theorem Inv.assignment_of_apply (wf : g.toArena.WellFormed) (inv : Inv g t) {p n : Nat}
    (pending : t.pending = some p) (applied : t.apply g n = .ok u) :
    u.assignment g = t.assignment g ++ [(g.classLabel p, g.nodeLabel n)] := by
  simp [assignment, inv.choices_of_apply wf pending applied]

/-- Moves only add to the choices. -/
theorem Leads.choices_extends (wf : g.toArena.WellFormed) {moves : List Nat}
    (run : Leads g t moves u) (inv : Inv g t) : t.choices <+: u.choices := by
  induction run with
  | stay t => exact List.prefix_rfl
  | move _ applied _ ih =>
      obtain ⟨p, pending, _, _, invNext, _, _⟩ := inv.of_apply wf applied
      refine List.IsPrefix.trans ?_ (ih invNext)
      rw [inv.choices_of_apply wf pending applied]
      exact List.prefix_append _ _

theorem Leads.order_extends (wf : g.toArena.WellFormed) {moves : List Nat}
    (run : Leads g t moves u) (inv : Inv g t) : t.order <+: u.order := by
  rw [← inv.choices_map_fst, ← (run.inv wf inv).choices_map_fst]
  exact (run.choices_extends wf inv).map Prod.fst

theorem Leads.assignment_extends (wf : g.toArena.WellFormed) {moves : List Nat}
    (run : Leads g t moves u) (inv : Inv g t) : t.assignment g <+: u.assignment g :=
  (run.choices_extends wf inv).map _

theorem Inv.keyed_assignment (wf : g.toArena.WellFormed) (inv : Inv g t) :
    (t.assignment g).Keyed := by
  have distinct : t.choices.Pairwise fun a b => a.1 ≠ b.1 := by
    rw [← List.pairwise_map (f := Prod.fst) (R := fun a b => a ≠ b), inv.choices_map_fst]
    exact inv.order_nodup
  unfold Table.Keyed assignment
  rw [List.pairwise_map]
  refine distinct.imp_of_mem ?_
  rintro ⟨a, m⟩ ⟨b, n⟩ first second apart
  rw [Label.beq_false_iff_key_ne]
  intro same
  exact apart (EGraph.classLabel_inj wf (inv.class_lt (inv.mem_choices.mp first))
    (inv.class_lt (inv.mem_choices.mp second)) same)

theorem nodeIndex_nodeLabel (wf : g.toArena.WellFormed) {n : Nat} (lt : n < g.numNodes) :
    g.nodeIndex (g.nodeLabel n) = .ok n :=
  EGraph.nodeIndex_eq_ok.mpr (EGraph.position?_nodeLabel wf lt (by simp))

theorem Inv.sound_assignment (wf : g.toArena.WellFormed) (inv : Inv g t) :
    Term.Sound g ⟨t.assignment g⟩ := by
  intro entry member
  obtain ⟨c, n, chosen, rfl⟩ := inv.mem_assignment.mp member
  obtain ⟨lt, owner, _⟩ := inv.member c n chosen
  exact ⟨n, nodeIndex_nodeLabel wf lt, by rw [owner]⟩

theorem Inv.picks_assignment (wf : g.toArena.WellFormed) (inv : Inv g t) :
    Term.picks g ⟨t.assignment g⟩ = t.choice := by
  have keyed : (Term.mk (t.assignment g)).assignment.Keyed := inv.keyed_assignment wf
  have iff : ∀ c n, Term.picks g ⟨t.assignment g⟩ c = some n ↔ t.choice c = some n := by
    intro c n
    rw [Term.picks_eq_some keyed]
    constructor
    · rintro ⟨inside, entry, member, same, index⟩
      obtain ⟨d, m, chosen, rfl⟩ := inv.mem_assignment.mp member
      have here := EGraph.classLabel_inj wf (inv.class_lt chosen) inside same
      rw [nodeIndex_nodeLabel wf (inv.member d m chosen).1] at index
      cases index
      rw [← here, chosen]
    · intro chosen
      exact ⟨inv.class_lt chosen, _, inv.mem_assignment.mpr ⟨c, n, chosen, rfl⟩, rfl,
        nodeIndex_nodeLabel wf (inv.member c n chosen).1⟩
  funext c
  cases chosen : t.choice c with
  | none =>
      cases picked : Term.picks g ⟨t.assignment g⟩ c with
      | none => rfl
      | some n => simp [(iff c n).mp picked] at chosen
  | some n => exact (iff c n).mpr chosen

theorem pending_of_terminal (terminal : t.isTerminal = true) : t.pending = none := by
  simpa [isTerminal] using terminal

theorem legalMoves_of_terminal (terminal : t.isTerminal = true) : t.legalMoves g = [] := by
  simp [legalMoves, pending_of_terminal terminal]

theorem toTerm_of_terminal (terminal : t.isTerminal = true) :
    t.toTerm g = .ok ⟨t.assignment g⟩ := by
  simp [toTerm, pending_of_terminal terminal]

theorem terminal_of_toTerm {term : Term} (made : t.toTerm g = .ok term) :
    t.pending = none ∧ term = ⟨t.assignment g⟩ := by
  unfold toTerm at made
  split at made
  · rename_i pending
    cases made
    exact ⟨pending, rfl⟩
  · simp at made

/-- The assignment of a terminal tracker is a valid term, unless a comparison tells one of its
classes apart from itself. -/
theorem Inv.validate_assignment_iff (wf : g.toArena.WellFormed) (named : g.Named) (inv : Inv g t)
    (terminal : t.pending = none) :
    Term.validate g ⟨t.assignment g⟩ = .ok () ↔ Term.Comparable ⟨t.assignment g⟩ := by
  rw [Term.validate_iff (t := ⟨t.assignment g⟩) wf named (inv.keyed_assignment wf),
    inv.picks_assignment wf]
  exact and_iff_right ⟨inv.sound_assignment wf, inv.isTerm terminal⟩

theorem Inv.comparable_assignment (wf : g.toArena.WellFormed) (checkable : g.Checkable)
    (inv : Inv g t) (terminal : t.pending = none) : Term.Comparable ⟨t.assignment g⟩ := by
  refine Term.comparable_of_isTerm wf checkable (inv.keyed_assignment wf)
    (inv.sound_assignment wf) ?_
  rw [inv.picks_assignment wf]
  exact inv.isTerm terminal

theorem Inv.validate_toTerm (wf : g.toArena.WellFormed) (checkable : g.Checkable) (inv : Inv g t)
    (terminal : t.pending = none) :
    t.toTerm g = .ok ⟨t.assignment g⟩ ∧ Term.validate g ⟨t.assignment g⟩ = .ok () :=
  ⟨by simp [toTerm, terminal], (inv.validate_assignment_iff wf checkable.named terminal).mpr
    (inv.comparable_assignment wf checkable terminal)⟩

/-! ## Equal tables -/

theorem Inv.length_assignment (inv : Inv g t) : (t.assignment g).length = t.order.length := by
  rw [← inv.choices_map_fst]
  simp [assignment]

theorem length_eq_of_picks (wf : g.toArena.WellFormed) (inv : Inv g t) {term : Term}
    (keyed : term.assignment.Keyed) (sound : term.Sound g) (same : term.picks g = t.choice) :
    (t.assignment g).length = term.assignment.length := by
  have members : ∀ c, c ∈ term.classNumbers g ↔ c ∈ t.order := by
    intro c
    rw [sound.mem_classNumbers wf keyed, same, inv.mem_order c]
  rw [inv.length_assignment, ← ((List.perm_ext_iff_of_nodup
    (sound.nodup_classNumbers wf keyed) inv.order_nodup).mpr members).length_eq,
    Term.length_classNumbers, Term.size]

theorem same_of_picks (wf : g.toArena.WellFormed) (inv : Inv g t) {term : Term}
    (keyed : term.assignment.Keyed) (sound : term.Sound g) (same : term.picks g = t.choice) :
    (t.assignment g).same (· == ·) term.assignment = true := by
  simp only [Table.same, length_eq_of_picks wf inv keyed sound same, beq_self_eq_true,
    Bool.true_and, Table.within, List.all_eq_true]
  intro entry member
  obtain ⟨c, n, chosen, rfl⟩ := inv.mem_assignment.mp member
  rw [← same] at chosen
  obtain ⟨_, found, listed, label, index⟩ := (Term.picks_eq_some keyed).mp chosen
  have get := keyed.get?_of_mem (show (found.1, found.2) ∈ _ from listed)
  rw [Table.get?_congr _ label] at get
  simp only [get]
  exact (Label.position?_eq_some (EGraph.nodeIndex_eq_ok.mp index)).2

theorem choice_eq_of_same (wf : g.toArena.WellFormed) (first : Inv g t) (second : Inv g u)
    (same : (t.assignment g).same (· == ·) (u.assignment g) = true) (c : Nat) :
    t.choice c = u.choice c := by
  simp only [Table.same, Bool.and_eq_true, beq_iff_eq, Table.within, List.all_eq_true] at same
  obtain ⟨length, within⟩ := same
  have sub : ∀ c n, t.choice c = some n → u.choice c = some n := by
    intro c n chosen
    have found := within _ (first.mem_assignment.mpr ⟨c, n, chosen, rfl⟩)
    cases get : (u.assignment g).get? (g.classLabel c) with
    | none => simp [get] at found
    | some node =>
        simp only [get] at found
        obtain ⟨k, member, key⟩ := Table.get?_eq_some_mem get
        obtain ⟨d, m, chosenThere, entry⟩ := second.mem_assignment.mp member
        obtain ⟨rfl, rfl⟩ := Prod.mk.inj entry
        obtain rfl := EGraph.classLabel_inj wf (second.class_lt chosenThere) (first.class_lt chosen)
          key
        obtain rfl : n = m := Label.Distinct.eq_of_beq wf.nodeIds_distinct
          (first.member d n chosen).1 (second.member d m chosenThere).1 found
        exact chosenThere
  have subset : t.order ⊆ u.order := by
    intro c resolved
    obtain ⟨n, chosen⟩ := Option.isSome_iff_exists.mp ((first.mem_order c).mp resolved)
    exact (second.mem_order c).mpr (by simp [sub c n chosen])
  have perm : t.order.Perm u.order := by
    refine (first.order_nodup.subperm subset).perm_of_length_le ?_
    rw [← first.length_assignment, ← second.length_assignment, length]
  cases chosen : u.choice c with
  | none =>
      cases chosenHere : t.choice c with
      | none => rfl
      | some n => simp [sub c n chosenHere] at chosen
  | some n =>
      have resolved : c ∈ t.order := perm.mem_iff.mpr ((second.mem_order c).mpr (by simp [chosen]))
      obtain ⟨m, chosenHere⟩ := Option.isSome_iff_exists.mp ((first.mem_order c).mp resolved)
      rw [chosenHere, ← sub c m chosenHere, chosen]

/-! ## The correspondence -/

/-- Terminal trackers reached by legal moves are the valid terms, one to one, as far as the names of
their classes are equal to themselves. -/
structure Corresponds (g : EGraph) : Prop where
  /-- The term of a terminal tracker is valid, exactly if its classes are equal to themselves. -/
  terminal_valid : ∀ moves t, Leads g (start g) moves t → t.isTerminal = true →
    ∃ term, t.toTerm g = .ok term ∧ (term.validate g = .ok () ↔ term.Comparable)
  /-- Every class of such a term is one that the root leads to. -/
  terminal_comparable : g.Checkable → ∀ moves t, Leads g (start g) moves t →
    t.isTerminal = true → ∀ term, t.toTerm g = .ok term → term.Comparable
  /-- Every valid assignment is that of a terminal tracker. -/
  valid_reached : ∀ term : Term, term.assignment.Keyed → term.validate g = .ok () →
    ∃ moves t, Leads g (start g) moves t ∧ t.isTerminal = true ∧
      (t.assignment g).same (· == ·) term.assignment = true
  /-- An assignment, terminal or not, is reached in one way only. -/
  moves_unique : ∀ moves others t u, Leads g (start g) moves t → Leads g (start g) others u →
    (t.assignment g).same (· == ·) (u.assignment g) = true → moves = others

/-- Legal moves and validation agree on every graph whose classes have names. -/
theorem runs_correspond_to_terms (accepted : g.Accepted) (named : g.Named) : Corresponds g := by
  have wf := accepted.wellFormed
  refine ⟨?_, ?_, ?_, ?_⟩
  · intro moves t run terminal
    have inv := run.inv wf (inv_start wf)
    exact ⟨_, toTerm_of_terminal terminal,
      inv.validate_assignment_iff wf named (pending_of_terminal terminal)⟩
  · intro checkable moves t run terminal term made
    have inv := run.inv wf (inv_start wf)
    obtain ⟨pending, rfl⟩ := terminal_of_toTerm made
    exact inv.comparable_assignment wf checkable pending
  · intro term keyed valid
    obtain ⟨⟨sound, isTerm⟩, _⟩ := (Term.validate_iff wf named keyed).mp valid
    obtain ⟨moves, t, run, terminal, same⟩ := exists_run_of_isTerm accepted isTerm (inv_start wf)
      (fun c n chosen => by simp [choice_start] at chosen)
    exact ⟨moves, t, run, by simp [isTerminal, terminal],
      same_of_picks wf (run.inv wf (inv_start wf)) keyed sound same.symm⟩
  · intro moves others t u first second same
    exact first.unique wf second (inv_start wf)
      (choice_eq_of_same wf (first.inv wf (inv_start wf)) (second.inv wf (inv_start wf)) same)

theorem runs_correspond_to_terms_loop :
    EGraph.loopGraph.Accepted ∧ EGraph.loopGraph.Named ∧ Corresponds EGraph.loopGraph :=
  ⟨EGraph.loopGraph_accepted, EGraph.loopGraph_checkable.named,
    runs_correspond_to_terms EGraph.loopGraph_accepted EGraph.loopGraph_checkable.named⟩

/-- The term of a terminal tracker is refused: its class differs from itself. -/
theorem terminal_term_refused :
    EGraph.unequalGraph.Accepted ∧ EGraph.unequalGraph.Named ∧
    ∃ t term, Leads EGraph.unequalGraph (start EGraph.unequalGraph) [0] t ∧
      t.isTerminal = true ∧ t.toTerm EGraph.unequalGraph = .ok term ∧
      term.validate EGraph.unequalGraph =
        .error (.violation (.notMember (.text "x") (.number (.float (0 / 0))))) :=
  ⟨EGraph.unequalGraph_accepted, EGraph.unequalGraph_named, ⟨#[some 0], [0], #[false], [], none⟩, _,
    .move (by decide) rfl (.stay _), rfl, rfl, by with_unfolding_all rfl⟩

end Tracker

end EGraphSearch
