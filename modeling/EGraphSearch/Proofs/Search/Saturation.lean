import EGraphSearch.Proofs.Search.Exploration

/-!
# Saturated trees

In a saturated tree nothing is left to try: every node has a child for each of its moves.  So every
run of legal moves leads to a node of the tree, and the terminal nodes are the valid terms, each of
them once.
-/

set_option autoImplicit false

namespace EGraphSearch

/-! ## Equality of tables -/

namespace Table

/-- All that a comparison sees of an entry. -/
def entryKey (entry : Label × Label) : Label.Key × Label.Key := (entry.1.key, entry.2.key)

theorem Keyed.nodup_entryKeys {t : Table Label} (keyed : t.Keyed) : (t.map entryKey).Nodup := by
  rw [List.Nodup, List.pairwise_map]
  refine keyed.imp ?_
  intro e f apart same
  exact (Label.beq_false_iff_key_ne _ _).mp apart (congrArg Prod.fst same)

/-- Tables without a key twice are equal if they are lists of the same entries in some order. -/
theorem same_iff_perm {t u : Table Label} (keyed : t.Keyed) (keyed' : u.Keyed) :
    t.same (· == ·) u = true ↔ (t.map entryKey).Perm (u.map entryKey) := by
  simp only [same, within, Bool.and_eq_true, beq_iff_eq, List.all_eq_true]
  constructor
  · rintro ⟨length, inside⟩
    refine (keyed.nodup_entryKeys.subperm ?_).perm_of_length_le (by simp [length])
    intro pair member
    obtain ⟨entry, listed, rfl⟩ := List.mem_map.mp member
    have found := inside entry listed
    split at found
    · rename_i other get
      obtain ⟨key, there, same⟩ := get?_eq_some_mem get
      refine List.mem_map.mpr ⟨_, there, ?_⟩
      rw [entryKey, entryKey, same, (Label.beq_iff_key_eq _ _).mp found]
    · simp at found
  · intro perm
    refine ⟨by simpa using perm.length_eq, ?_⟩
    intro entry listed
    obtain ⟨found, there, same⟩ := List.mem_map.mp
      (perm.subset (List.mem_map_of_mem (f := entryKey) listed))
    obtain ⟨key, value⟩ := Prod.mk.inj same
    rw [← get?_congr u key, keyed'.get?_of_mem there]
    exact (Label.beq_iff_key_eq _ _).mpr value.symm

theorem Keyed.get?_iff {t : Table Label} (keyed : t.Keyed) (key : Label) (value : Label.Key) :
    (t.get? key).map Label.key = some value ↔ (key.key, value) ∈ t.map entryKey := by
  rw [Option.map_eq_some_iff, List.mem_map]
  constructor
  · rintro ⟨found, get, rfl⟩
    obtain ⟨k, member, same⟩ := get?_eq_some_mem get
    exact ⟨_, member, by rw [entryKey, same]⟩
  · rintro ⟨⟨k, found⟩, member, same⟩
    obtain ⟨sameKey, rfl⟩ := Prod.mk.inj same
    exact ⟨found, by rw [← get?_congr t sameKey, keyed.get?_of_mem member], rfl⟩

theorem Keyed.get?_of_same {t u : Table Label} (keyed : t.Keyed) (keyed' : u.Keyed)
    (same : t.same (· == ·) u = true) (key : Label) :
    (t.get? key).map Label.key = (u.get? key).map Label.key := by
  refine Option.ext fun value => ?_
  rw [keyed.get?_iff, keyed'.get?_iff, ((same_iff_perm keyed keyed').mp same).mem_iff]

end Table

/-! ## Saturated nodes -/

/-- Nothing is left to try at the node. -/
def SearchNode.Saturated {α : Type} (n : SearchNode α) : Prop :=
  n.status = .fullyExpanded ∨ n.status = .terminal ∨ n.status = .deadEnd

def Tree.Saturated {α : Type} [Scalar α] (tree : Tree α) : Prop :=
  ∀ i < tree.size, (tree.node i).Saturated

instance {α : Type} (n : SearchNode α) : Decidable n.Saturated :=
  inferInstanceAs (Decidable (_ ∨ _ ∨ _))

instance {α : Type} [Scalar α] (tree : Tree α) : Decidable tree.Saturated :=
  inferInstanceAs (Decidable (∀ i < tree.size, (tree.node i).Saturated))

theorem SearchNode.Saturated.isFullyExpanded {α : Type} {n : SearchNode α}
    (saturated : n.Saturated) : n.isFullyExpanded = true := by
  rcases saturated with full | stuck
  · cases known : n.numMoves with
    | none => simp [status, known] at full
    | some k =>
        have enough : k ≤ n.children.length := by
          by_contra fewer
          rw [status_of_known known] at full
          repeat' split at full
          all_goals simp_all
        simp [SearchNode.isFullyExpanded, known, enough]
  · simp [SearchNode.isFullyExpanded, numMoves_of_stuck stuck]

section Saturated

variable {α : Type} [Scalar α] {g : EGraph} {tree : Tree α} {t u : Tracker} {i : Nat}

theorem Charted.children_of_saturated (wf : g.toArena.WellFormed) (charted : Charted g tree)
    (inside : i < tree.size) (replayed : replay g tree i = .ok t)
    (saturated : (tree.node i).Saturated) :
    (tree.node i).children.map Prod.fst = t.legalMoves g :=
  ((charted.represents wf inside replayed).expanded_iff.mp saturated.isFullyExpanded).2

theorem Charted.terminal_iff (wf : g.toArena.WellFormed) (charted : Charted g tree)
    (inside : i < tree.size) (replayed : replay g tree i = .ok t)
    (saturated : (tree.node i).Saturated) :
    (tree.node i).status = .terminal ↔ t.isTerminal = true := by
  have represents := charted.represents wf inside replayed
  obtain ⟨known, _⟩ := represents.expanded_iff.mp saturated.isFullyExpanded
  obtain ⟨k, known⟩ := Option.isSome_iff_exists.mp known
  obtain ⟨count, flag⟩ := represents.recorded k known
  constructor
  · intro terminal
    have none_ := SearchNode.numMoves_of_stuck (.inl terminal)
    rw [SearchNode.status_of_known none_, if_pos rfl] at terminal
    rw [← flag]
    by_contra unflagged
    simp [unflagged] at terminal
  · intro terminal
    have none_ : k = 0 := by rw [count, Tracker.legalMoves_of_terminal terminal, List.length_nil]
    rw [SearchNode.status_of_known known, if_pos none_, flag, if_pos terminal]

/-- By induction on the run: each of its moves leads on to a child. -/
theorem Charted.reached (wf : g.toArena.WellFormed) (charted : Charted g tree)
    (saturated : tree.Saturated) {moves : List Nat} (run : Tracker.Leads g t moves u) :
    ∀ {i : Nat}, i < tree.size → replay g tree i = .ok t →
      ∃ j < tree.size, replay g tree j = .ok u := by
  induction run with
  | stay t => exact fun inside replayed => ⟨_, inside, replayed⟩
  | @move t next u move rest legal applied _ ih =>
      intro i inside replayed
      rw [← charted.children_of_saturated wf inside replayed (saturated i inside)] at legal
      obtain ⟨⟨_, child⟩, member, rfl⟩ := List.mem_map.mp legal
      refine ih (charted.child i inside _ child member).2.1 ?_
      rw [replay_child charted.toLinked inside member, replayed]
      exact applied

/-! ## The terms of a tree -/

theorem exists_terminal_of_valid (accepted : g.Accepted) (named : g.Named) {term : Term}
    (keyed : term.assignment.Keyed) (valid : term.validate g = .ok ()) :
    ∃ t, (∃ moves, Tracker.Leads g (Tracker.start g) moves t) ∧ t.isTerminal = true ∧
      (t.assignment g).same (· == ·) term.assignment = true := by
  have wf := accepted.wellFormed
  obtain ⟨⟨sound, isTerm⟩, _⟩ := (Term.validate_iff wf named keyed).mp valid
  obtain ⟨moves, t, run, pending, choices⟩ := Tracker.exists_run_of_isTerm accepted isTerm
    (Tracker.inv_start wf) (fun c n chosen => by simp [Tracker.choice_start] at chosen)
  exact ⟨t, ⟨moves, run⟩, by simp [Tracker.isTerminal, pending],
    Tracker.same_of_picks wf (run.inv wf (Tracker.inv_start wf)) keyed sound choices.symm⟩

/-- The term that the moves to a tree node make up, if they make up one. -/
def Tree.termAt (g : EGraph) (tree : Tree α) (i : Nat) : Except Fault Term :=
  (replay g tree i).bind (Tracker.toTerm g)

/-- The terminal nodes of a tree are the valid terms of the graph, one to one. -/
structure Catalogue (g : EGraph) (tree : Tree α) : Prop where
  /-- A terminal node stands for a valid term. -/
  valid : ∀ i < tree.size, (tree.node i).status = .terminal → ∃ term,
    tree.termAt g i = .ok term ∧ term.assignment.Keyed ∧ term.validate g = .ok ()
  /-- Every valid term has a terminal node, and only one. -/
  once : ∀ term : Term, term.assignment.Keyed → term.validate g = .ok () →
    ∃! i, i < tree.size ∧ (tree.node i).status = .terminal ∧
      ∃ spelled, tree.termAt g i = .ok spelled ∧ spelled.same term = true

omit [Scalar α] in
theorem termAt_of_terminal (replayed : replay g tree i = .ok t) (terminal : t.isTerminal = true) :
    tree.termAt g i = .ok ⟨t.assignment g⟩ := by
  rw [Tree.termAt, replayed]
  exact Tracker.toTerm_of_terminal terminal

theorem Charted.catalogue (accepted : g.Accepted) (checkable : g.Checkable)
    (charted : Charted g tree) (saturated : tree.Saturated) : Catalogue g tree := by
  have wf := accepted.wellFormed
  have replays : ∀ i < tree.size, (tree.node i).status = .terminal →
      ∃ t, Tracker.Inv g t ∧ t.isTerminal = true ∧ tree.termAt g i = .ok ⟨t.assignment g⟩ ∧
        replay g tree i = .ok t := by
    intro i inside status
    obtain ⟨t, replayed⟩ := charted.replayed i inside
    have terminal := (charted.terminal_iff wf inside replayed (saturated i inside)).mp status
    exact ⟨t, inv_of_replay wf replayed, terminal, termAt_of_terminal replayed terminal, replayed⟩
  constructor
  · intro i inside status
    obtain ⟨t, inv, terminal, termOf, _⟩ := replays i inside status
    exact ⟨_, termOf, inv.keyed_assignment wf,
      (inv.validate_toTerm wf checkable (Tracker.pending_of_terminal terminal)).2⟩
  · intro term keyed valid
    obtain ⟨t, ⟨moves, run⟩, terminal, same⟩ :=
      exists_terminal_of_valid accepted checkable.named keyed valid
    obtain ⟨i, inside, replayed⟩ := charted.reached wf saturated run charted.nonempty
      (replay_root charted.toLinked)
    have status := (charted.terminal_iff wf inside replayed (saturated i inside)).mpr terminal
    refine ⟨i, ⟨inside, status, _, termAt_of_terminal replayed terminal, same⟩, ?_⟩
    rintro j ⟨insideJ, statusJ, spelled, termOf, sameJ⟩
    obtain ⟨u, invU, _, termAtJ, replayedJ⟩ := replays j insideJ statusJ
    cases termAtJ.symm.trans termOf
    have keyedT := (inv_of_replay wf replayed).keyed_assignment wf
    have keyedU := invU.keyed_assignment wf
    refine (charted.arena wf).distinct j insideJ i inside u t replayedJ replayed ?_
    exact (Table.same_iff_perm keyedU keyedT).mpr
      (((Table.same_iff_perm keyedU keyed).mp sameJ).trans
        ((Table.same_iff_perm keyedT keyed).mp same).symm)

end Saturated

end EGraphSearch
