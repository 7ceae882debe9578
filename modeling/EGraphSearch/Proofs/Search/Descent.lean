import EGraphSearch.Proofs.Tracker.Runs
import EGraphSearch.Proofs.Tree.Links
import EGraphSearch.Search.Walk

/-!
# The tree and its trackers

A tree is faithful if every node has a tracker, namely the one that its moves lead to, and if what
the node remembers of its moves is true of that tracker.  Walking down and expanding keeps a tree
faithful, and never fails as long as scores can be computed.
-/

set_option autoImplicit false

namespace EGraphSearch

variable {α : Type} [Scalar α] {g : EGraph} {tree after : Tree α}

/-! ## Replay -/

theorem Tracker.applyAll_append (moves others : List Nat) (t : Tracker) :
    t.applyAll g (moves ++ others) = (t.applyAll g moves).bind (Tracker.applyAll g others) := by
  induction moves generalizing t with
  | nil => rfl
  | cons n rest ih =>
      simp only [List.cons_append, applyAll]
      cases t.apply g n with
      | error fault => rfl
      | ok next => exact ih next

theorem Tracker.leads_of_applyAll (wf : g.toArena.WellFormed) {moves : List Nat} :
    ∀ {t u : Tracker}, Inv g t → t.applyAll g moves = .ok u → Leads g t moves u := by
  induction moves with
  | nil =>
      intro t u _ applied
      cases applied
      exact .stay t
  | cons n rest ih =>
      intro t u inv applied
      simp only [applyAll] at applied
      cases first : t.apply g n with
      | error fault => simp [first] at applied
      | ok next =>
          simp only [first] at applied
          obtain ⟨_, _, _, _, invNext, _⟩ := inv.of_apply wf first
          exact .move (mem_legalMoves_of_apply wf inv first) first (ih invNext applied)

theorem replay_root (linked : tree.Linked) : replay g tree 0 = .ok (Tracker.start g) := by
  simp [replay, linked.movesTo_root, Tracker.applyAll]

theorem replay_child (linked : tree.Linked) {p m c : Nat} (inside : p < tree.size)
    (member : (m, c) ∈ (tree.node p).children) :
    replay g tree c = (replay g tree p).bind fun t => t.apply g m := by
  rw [replay, replay, linked.movesTo_child inside member]
  cases tree.movesTo p with
  | error fault => rfl
  | ok moves =>
      simp only [Except.map, Tracker.applyAll_append]
      cases (Tracker.start g).applyAll g moves with
      | error fault => rfl
      | ok t =>
          simp only [Except.bind, Tracker.applyAll]
          cases t.apply g m <;> rfl

theorem replay_congr (linked : tree.Linked) (kept : Tree.Kept tree after) {i : Nat}
    (inside : i < tree.size) : replay g after i = replay g tree i := by
  rw [replay, replay, Tree.movesTo_congr linked kept inside]

omit [Scalar α] in
theorem leads_of_replay (wf : g.toArena.WellFormed) {i : Nat} {t : Tracker}
    (replayed : replay g tree i = .ok t) :
    ∃ moves, tree.movesTo i = .ok moves ∧ Tracker.Leads g (Tracker.start g) moves t := by
  unfold replay at replayed
  split at replayed
  · simp at replayed
  · rename_i moves path
    exact ⟨moves, path, Tracker.leads_of_applyAll wf (Tracker.inv_start wf) replayed⟩

omit [Scalar α] in
theorem inv_of_replay (wf : g.toArena.WellFormed) {i : Nat} {t : Tracker}
    (replayed : replay g tree i = .ok t) : Tracker.Inv g t := by
  obtain ⟨_, _, run⟩ := leads_of_replay wf replayed
  exact run.inv wf (Tracker.inv_start wf)

/-! ## Faithful trees -/

/-- Every node has a tracker, and what it remembers of its moves is right. -/
structure Faithful (g : EGraph) (tree : Tree α) : Prop extends tree.Linked where
  replayed : ∀ i < tree.size, ∃ t, replay g tree i = .ok t
  noted : ∀ i < tree.size, ∀ t k, replay g tree i = .ok t → (tree.node i).numMoves = some k →
    k = (t.legalMoves g).length ∧ (tree.node i).terminal = t.isTerminal
  known : ∀ i, 0 < i → i < tree.size → (tree.node i).numMoves.isSome
  unknown : ∀ i < tree.size, (tree.node i).numMoves = none → (tree.node i).terminal = false

theorem Faithful.isTerminal_of_terminal (faithful : Faithful g tree) {i : Nat} {t : Tracker}
    (inside : i < tree.size) (replayed : replay g tree i = .ok t)
    (terminal : (tree.node i).terminal = true) : t.isTerminal = true := by
  cases remembered : (tree.node i).numMoves with
  | none => simp [faithful.unknown i inside remembered] at terminal
  | some k => rw [← (faithful.noted i inside t k replayed remembered).2, terminal]

theorem faithful_initial : Faithful g (Tree.initial : Tree α) := by
  have only : ∀ i, i < (Tree.initial : Tree α).size → i = 0 := by
    intro i inside
    have : i < 1 := inside
    omega
  refine ⟨Tree.linked_initial, ?_, ?_, ?_, ?_⟩
  · intro i inside
    rw [only i inside]
    exact ⟨_, replay_root Tree.linked_initial⟩
  · intro i _ t k _ remembered
    simp [SearchNode.root, SearchNode.fresh] at remembered
  · intro i pos inside
    exact absurd (only i inside) (Nat.ne_of_gt pos)
  · intro i _ _
    simp [SearchNode.root, SearchNode.fresh]

/-- A tree that keeps the old nodes is faithful if what is new in it is right. -/
theorem Faithful.extend (faithful : Faithful g tree) (linked : after.Linked)
    (kept : Tree.Kept tree after) (right : ∀ j < after.size,
      (j < tree.size ∧ (after.node j).numMoves = (tree.node j).numMoves ∧
        (after.node j).terminal = (tree.node j).terminal) ∨
      ∃ t, replay g after j = .ok t ∧ (after.node j).numMoves = some (t.legalMoves g).length ∧
        (after.node j).terminal = t.isTerminal) : Faithful g after := by
  refine ⟨linked, ?_, ?_, ?_, ?_⟩
  · intro j inside
    rcases right j inside with ⟨old, _⟩ | ⟨t, replayed, _⟩
    · rw [replay_congr faithful.toLinked kept old]
      exact faithful.replayed j old
    · exact ⟨t, replayed⟩
  · intro j inside t k replayed remembered
    rcases right j inside with ⟨old, moves, terminal⟩ | ⟨u, replayedAgain, moves, terminal⟩
    · rw [replay_congr faithful.toLinked kept old] at replayed
      rw [moves] at remembered
      rw [terminal]
      exact faithful.noted j old t k replayed remembered
    · cases Except.ok.inj (replayed.symm.trans replayedAgain)
      rw [moves] at remembered
      exact ⟨(Option.some.inj remembered).symm, terminal⟩
  · intro j pos inside
    rcases right j inside with ⟨old, moves, _⟩ | ⟨_, _, moves, _⟩
    · rw [moves]
      exact faithful.known j pos old
    · simp [moves]
  · intro j inside unnoted
    rcases right j inside with ⟨old, moves, terminal⟩ | ⟨_, _, moves, _⟩
    · rw [terminal]
      exact faithful.unknown j old (moves ▸ unnoted)
    · simp [moves] at unnoted

theorem Faithful.updated {after : Tree α} (faithful : Faithful g tree)
    (size : after.size = tree.size)
    (same : ∀ j, (after.node j).parent = (tree.node j).parent ∧
      (after.node j).move = (tree.node j).move ∧
      (after.node j).children = (tree.node j).children ∧
      (after.node j).numMoves = (tree.node j).numMoves ∧
      (after.node j).terminal = (tree.node j).terminal) : Faithful g after := by
  have kept : Tree.Kept tree after :=
    ⟨Nat.le_of_eq size.symm, fun j _ => (same j).1, fun j _ => (same j).2.1⟩
  refine faithful.extend ?_ kept fun j inside =>
    .inl ⟨size ▸ inside, (same j).2.2.2.1, (same j).2.2.2.2⟩
  constructor
  · rw [size]
    exact faithful.nonempty
  · rw [(same 0).1]
    exact faithful.root_parent
  · intro j pos inside
    obtain ⟨p, m, lt, member⟩ := faithful.parent j pos (size ▸ inside)
    exact ⟨p, m, lt, by rwa [(same p).2.2.1]⟩
  · intro p inside m c member
    rw [(same p).2.2.1] at member
    rw [size, (same c).1, (same c).2.1]
    exact faithful.child p (size ▸ inside) m c member
  · intro p inside
    rw [(same p).2.2.1]
    exact faithful.distinct p (size ▸ inside)

/-- The visits of a node, its total value and its virtual loss. -/
def SearchNode.statistics (n : SearchNode α) : Nat × α × α := (n.visits, n.total, n.virtualLoss)

section Noting

variable {i : Nat} {tracker : Tracker}

section Node

variable (n : SearchNode α) (moves : Nat) (terminal : Bool)

omit [Scalar α] in
@[simp] theorem parent_noteMoves : (n.noteMoves moves terminal).parent = n.parent := by
  unfold SearchNode.noteMoves
  split <;> rfl

omit [Scalar α] in
@[simp] theorem move_noteMoves : (n.noteMoves moves terminal).move = n.move := by
  unfold SearchNode.noteMoves
  split <;> rfl

omit [Scalar α] in
@[simp] theorem children_noteMoves : (n.noteMoves moves terminal).children = n.children := by
  unfold SearchNode.noteMoves
  split <;> rfl

omit [Scalar α] in
@[simp] theorem statistics_noteMoves : (n.noteMoves moves terminal).statistics = n.statistics := by
  unfold SearchNode.noteMoves
  split <;> rfl

end Node

theorem kept_noteMoves : Tree.Kept tree (tree.noteMoves g i tracker) :=
  Tree.kept_update (by simp) (by simp)

theorem linked_noteMoves (linked : tree.Linked) : (tree.noteMoves g i tracker).Linked :=
  linked.update (by simp) (by simp) (by simp)

theorem node_noteMoves_ne {j : Nat} (apart : j ≠ i) :
    (tree.noteMoves g i tracker).node j = tree.node j :=
  Tree.node_update_ne apart _

theorem node_noteMoves_self (inside : i < tree.size) : (tree.noteMoves g i tracker).node i =
    (tree.node i).noteMoves (tracker.legalMoves g).length tracker.isTerminal :=
  Tree.node_update_self inside _

theorem stats_noteMoves (j : Nat) :
    ((tree.noteMoves g i tracker).node j).statistics = (tree.node j).statistics ∧
    ((tree.noteMoves g i tracker).node j).children = (tree.node j).children := by
  rw [Tree.noteMoves, Tree.node_update]
  split <;> simp

omit [Scalar α] in
@[simp] theorem size_noteMoves : (tree.noteMoves g i tracker).size = tree.size := by
  simp [Tree.noteMoves]

theorem Faithful.noteMoves (faithful : Faithful g tree) (inside : i < tree.size)
    (replayed : replay g tree i = .ok tracker) : Faithful g (tree.noteMoves g i tracker) := by
  refine faithful.extend (linked_noteMoves faithful.toLinked) kept_noteMoves ?_
  intro j insideNew
  have old : j < tree.size := by simpa using insideNew
  by_cases same : j = i
  · subst same
    rw [node_noteMoves_self inside, replay_congr faithful.toLinked kept_noteMoves inside]
    unfold SearchNode.noteMoves
    split
    · exact .inl ⟨inside, rfl, rfl⟩
    · exact .inr ⟨tracker, replayed, rfl, rfl⟩
  · left
    rw [node_noteMoves_ne same]
    exact ⟨old, rfl, rfl⟩

theorem Faithful.replay_noteMoves (faithful : Faithful g tree) (inside : i < tree.size)
    (replayed : replay g tree i = .ok tracker) :
    replay g (tree.noteMoves g i tracker) i = .ok tracker :=
  (replay_congr faithful.toLinked kept_noteMoves inside).trans replayed

theorem notes_noteMoves (g : EGraph) (i : Nat) (tracker : Tracker) {j : Nat}
    (known : (tree.node j).numMoves.isSome) :
    ((tree.noteMoves g i tracker).node j).numMoves = (tree.node j).numMoves ∧
    ((tree.noteMoves g i tracker).node j).terminal = (tree.node j).terminal := by
  rw [Tree.noteMoves, Tree.node_update]
  split
  · unfold SearchNode.noteMoves
    split
    · simp
    · rename_i unknown
      simp [unknown] at known
  · simp

end Noting

/-! ## Walking down -/

/-- What a walk below node `i` that has passed `below` did to the tree. -/
structure Descent (g : EGraph) (tree : Tree α) (i : Nat) (walk : Walk α) (below : List Nat) :
    Prop where
  path : walk.path = .ok below
  faithful : Faithful g walk.tree
  kept : Tree.Kept tree walk.tree
  inside : ∀ j ∈ below, i < j ∧ j < walk.tree.size
  chained : ∀ j ∈ below, ∃ p ∈ i :: below, (walk.tree.node j).parent = some p
  distinct : below.Nodup
  /-- Nodes off the path are untouched. -/
  frame : ∀ j, j ∉ i :: below → walk.tree.node j = tree.node j
  statistics_eq : ∀ j, (walk.tree.node j).statistics = (tree.node j).statistics
  notes_eq : ∀ j, (tree.node j).numMoves.isSome →
    (walk.tree.node j).numMoves = (tree.node j).numMoves ∧
    (walk.tree.node j).terminal = (tree.node j).terminal
  last : ∀ j, (i :: below).getLast? = some j → replay g walk.tree j = .ok walk.tracker

theorem Descent.visits_eq {i : Nat} {walk : Walk α} {below : List Nat}
    (descent : Descent g tree i walk below) (j : Nat) :
    (walk.tree.node j).visits = (tree.node j).visits :=
  congrArg Prod.fst (descent.statistics_eq j)

theorem Descent.inv (wf : g.toArena.WellFormed) {i : Nat} {walk : Walk α} {below : List Nat}
    (descent : Descent g tree i walk below) : Tracker.Inv g walk.tracker := by
  obtain ⟨last, isLast⟩ : ∃ last, (i :: below).getLast? = some last :=
    ⟨_, List.getLast?_eq_getLast_of_ne_nil (List.cons_ne_nil _ _)⟩
  exact inv_of_replay wf (descent.last last isLast)

section Walking

variable {i : Nat} {tracker : Tracker}

theorem descent_stay (faithful : Faithful g tree) (inside : i < tree.size)
    (replayed : replay g tree i = .ok tracker) :
    Descent g tree i ⟨tree.noteMoves g i tracker, tracker, .ok []⟩ [] where
  path := rfl
  faithful := faithful.noteMoves inside replayed
  kept := kept_noteMoves
  inside := by simp
  chained := by simp
  distinct := .nil
  frame j apart := node_noteMoves_ne (by simpa using apart)
  statistics_eq j := (stats_noteMoves j).1
  notes_eq _ := notes_noteMoves g i tracker
  last j here := by
    cases Option.some.inj here
    exact faithful.replay_noteMoves inside replayed

theorem Descent.continued {walk : Walk α} {below : List Nat} {m c : Nat}
    (faithful : Faithful g tree) (inside : i < tree.size)
    (replayed : replay g tree i = .ok tracker) (member : (m, c) ∈ (tree.node i).children)
    (descent : Descent g (tree.noteMoves g i tracker) c walk below) :
    Descent g tree i (walk.after c) (c :: below) := by
  have faithfulNoted := faithful.noteMoves inside replayed
  have memberNoted : (m, c) ∈ ((tree.noteMoves g i tracker).node i).children := by
    rwa [(stats_noteMoves i).2]
  obtain ⟨lt, insideChild, parent, _⟩ :=
    faithfulNoted.child i (by simpa using inside) m c memberNoted
  refine ⟨?_, descent.faithful, kept_noteMoves.trans descent.kept, ?_, ?_, ?_, ?_, ?_, ?_, ?_⟩
  · simp [Walk.after, descent.path, Except.map]
  · intro j hj
    rcases List.mem_cons.mp hj with rfl | later
    · exact ⟨lt, Nat.lt_of_lt_of_le insideChild descent.kept.size_le⟩
    · exact ⟨Nat.lt_trans lt (descent.inside j later).1, (descent.inside j later).2⟩
  · intro j hj
    rcases List.mem_cons.mp hj with rfl | later
    · exact ⟨i, by simp, by rw [Walk.after, descent.kept.parent_eq j insideChild, parent]⟩
    · obtain ⟨p, hp, parent⟩ := descent.chained j later
      exact ⟨p, List.mem_cons_of_mem _ hp, parent⟩
  · exact List.nodup_cons.mpr
      ⟨fun again => Nat.lt_irrefl _ (descent.inside c again).1, descent.distinct⟩
  · intro j apart
    simp only [List.mem_cons, not_or] at apart
    rw [Walk.after, descent.frame j (by simpa using apart.2), node_noteMoves_ne apart.1]
  · intro j
    rw [Walk.after, descent.statistics_eq j, (stats_noteMoves j).1]
  · intro j known
    obtain ⟨moves, terminal⟩ := notes_noteMoves g i tracker known
    obtain ⟨movesNext, terminalNext⟩ := descent.notes_eq j (by rwa [moves])
    exact ⟨movesNext.trans moves, terminalNext.trans terminal⟩
  · intro j here
    exact descent.last j (by simpa using here)

/-! Expanding an untried legal move adds a child that knows its moves. -/

/-- The tree with the new child. -/
def Tree.expanded (g : EGraph) (tree : Tree α) (i cls move : Nat) (moved : Tracker) : Tree α :=
  (tree.withChild i move (g.classLabel cls) (g.nodeLabel move)).noteMoves g tree.size moved

section Expanded

variable {cls move : Nat} {moved : Tracker}

@[simp] theorem size_expanded : (tree.expanded g i cls move moved).size = tree.size + 1 := by
  simp [Tree.expanded]

theorem kept_expanded : Tree.Kept tree (tree.expanded g i cls move moved) :=
  Tree.kept_withChild.trans kept_noteMoves

theorem node_expanded_new : (tree.expanded g i cls move moved).node tree.size =
    (SearchNode.fresh (some i) (some move) (g.classLabel cls) (g.nodeLabel move)
      ((tree.node i).depth + 1)).noteMoves (moved.legalMoves g).length moved.isTerminal := by
  rw [Tree.expanded, node_noteMoves_self (by simp), Tree.node_withChild_self]

theorem node_expanded_parent (inside : i < tree.size) :
    (tree.expanded g i cls move moved).node i =
      { tree.node i with children := (tree.node i).children ++ [(move, tree.size)] } := by
  rw [Tree.expanded, node_noteMoves_ne (Nat.ne_of_lt inside), Tree.node_withChild_lt _ _ _ _ inside,
    if_pos rfl]

theorem node_expanded_ne {j : Nat} (notNew : j ≠ tree.size) (apart : j ≠ i) :
    (tree.expanded g i cls move moved).node j = tree.node j := by
  by_cases old : j < tree.size
  · rw [Tree.expanded, node_noteMoves_ne notNew, Tree.node_withChild_lt _ _ _ _ old,
      if_neg (Ne.symm apart)]
  · have outside : (tree.expanded g i cls move moved).size ≤ j := by
      rw [size_expanded]
      omega
    rw [Tree.node_of_le outside, Tree.node_of_le (Nat.not_lt.mp old)]

theorem linked_expanded (linked : tree.Linked) (inside : i < tree.size)
    (untried : ∀ entry ∈ (tree.node i).children, entry.1 ≠ move) :
    (tree.expanded g i cls move moved).Linked :=
  linked_noteMoves (linked.withChild inside untried)

theorem replay_expanded (faithful : Faithful g tree) (inside : i < tree.size)
    (replayed : replay g tree i = .ok tracker)
    (untried : ∀ entry ∈ (tree.node i).children, entry.1 ≠ move)
    (applied : tracker.apply g move = .ok moved) :
    replay g (tree.expanded g i cls move moved) tree.size = .ok moved := by
  have linked : (tree.expanded g i cls move moved).Linked :=
    linked_expanded faithful.toLinked inside untried
  have member : (move, tree.size) ∈ ((tree.expanded g i cls move moved).node i).children := by
    rw [node_expanded_parent inside]
    simp
  rw [replay_child linked (by simp; omega) member,
    replay_congr faithful.toLinked kept_expanded inside, replayed]
  exact applied

theorem Faithful.expanded (faithful : Faithful g tree) (inside : i < tree.size)
    (replayed : replay g tree i = .ok tracker)
    (untried : ∀ entry ∈ (tree.node i).children, entry.1 ≠ move)
    (applied : tracker.apply g move = .ok moved) :
    Faithful g (tree.expanded g i cls move moved) := by
  refine faithful.extend (linked_expanded faithful.toLinked inside untried) kept_expanded ?_
  intro j insideNew
  by_cases new : j = tree.size
  · right
    rw [new, node_expanded_new]
    exact ⟨moved, replay_expanded faithful inside replayed untried applied, rfl, rfl⟩
  · left
    rw [size_expanded] at insideNew
    refine ⟨by omega, ?_⟩
    by_cases here : j = i
    · rw [here, node_expanded_parent inside]
      exact ⟨rfl, rfl⟩
    · rw [node_expanded_ne new here]
      exact ⟨rfl, rfl⟩

theorem statistics_expanded (inside : i < tree.size) (j : Nat) :
    ((tree.expanded g i cls move moved).node j).statistics = (tree.node j).statistics := by
  by_cases new : j = tree.size
  · rw [new, node_expanded_new, statistics_noteMoves, Tree.node_of_le (Nat.le_refl _)]
    rfl
  · by_cases here : j = i
    · rw [here, node_expanded_parent inside]
      rfl
    · rw [node_expanded_ne new here]

theorem notes_expanded (inside : i < tree.size) {j : Nat} (known : (tree.node j).numMoves.isSome) :
    ((tree.expanded g i cls move moved).node j).numMoves = (tree.node j).numMoves ∧
    ((tree.expanded g i cls move moved).node j).terminal = (tree.node j).terminal := by
  have old : j ≠ tree.size := by
    rintro rfl
    rw [Tree.node_of_le (Nat.le_refl _)] at known
    simp [SearchNode.root, SearchNode.fresh] at known
  by_cases here : j = i
  · rw [here, node_expanded_parent inside]
    exact ⟨rfl, rfl⟩
  · rw [node_expanded_ne old here]
    exact ⟨rfl, rfl⟩

end Expanded

theorem expand_eq (inside : i < tree.size) {moved : Tracker} {cls move : Nat}
    (untried : ∀ entry ∈ (tree.node i).children, entry.1 ≠ move) :
    expand g tree moved i cls move =
      ⟨tree.expanded g i cls move moved, moved, .ok [tree.size]⟩ := by
  simp [expand, Tree.addChild_eq inside untried, Tree.expanded]

theorem descent_grow (faithful : Faithful g tree) (inside : i < tree.size)
    (replayed : replay g tree i = .ok tracker) {moved : Tracker} {cls move : Nat}
    (untried : ∀ entry ∈ (tree.node i).children, entry.1 ≠ move)
    (applied : tracker.apply g move = .ok moved) :
    Descent g tree i ⟨(tree.noteMoves g i tracker).expanded g i cls move moved, moved,
      .ok [tree.size]⟩ [tree.size] := by
  have noted := faithful.noteMoves inside replayed
  have insideNoted : i < (tree.noteMoves g i tracker).size := by simpa using inside
  have replayedNoted := faithful.replay_noteMoves inside replayed
  have sameChildren : ((tree.noteMoves g i tracker).node i).children = (tree.node i).children :=
    (stats_noteMoves i).2
  rw [← sameChildren] at untried
  have sameSize : (tree.noteMoves g i tracker).size = tree.size := size_noteMoves
  have replayedNew : replay g ((tree.noteMoves g i tracker).expanded g i cls move moved)
      (tree.noteMoves g i tracker).size = .ok moved :=
    replay_expanded noted insideNoted replayedNoted untried applied
  have parentNew : (((tree.noteMoves g i tracker).expanded g i cls move moved).node
      (tree.noteMoves g i tracker).size).parent = some i := by
    rw [node_expanded_new, parent_noteMoves]
    rfl
  rw [sameSize] at replayedNew parentNew
  refine ⟨rfl, noted.expanded insideNoted replayedNoted untried applied,
    kept_noteMoves.trans kept_expanded, ?_, ?_, by simp, ?_, ?_, ?_, ?_⟩
  · intro j hj
    rw [List.mem_singleton.mp hj]
    exact ⟨inside, by simp⟩
  · intro j hj
    exact ⟨i, by simp, by rw [List.mem_singleton.mp hj, parentNew]⟩
  · intro j apart
    simp only [List.mem_cons, List.not_mem_nil, or_false, not_or] at apart
    have notNew : j ≠ (tree.noteMoves g i tracker).size := sameSize ▸ apart.2
    exact (node_expanded_ne notNew apart.1).trans (node_noteMoves_ne apart.1)
  · intro j
    exact (statistics_expanded insideNoted j).trans (stats_noteMoves j).1
  · intro j known
    obtain ⟨moves, terminal⟩ := notes_noteMoves g i tracker known
    obtain ⟨movesNext, terminalNext⟩ := notes_expanded insideNoted (moves ▸ known)
    exact ⟨movesNext.trans moves, terminalNext.trans terminal⟩
  · intro j here
    obtain rfl : tree.size = j := by simpa using here
    exact replayedNew

/-- How a walk goes on from a node with a tracker: it stays where there is no move, adds a child
for the first untried move, or follows a child.  Named are the nodes below, and the tree and the
tracker at the end. -/
inductive Descends (g : EGraph) : Tree α → Tracker → Nat → List Nat → Tree α → Tracker → Prop
  | stay {tree : Tree α} {t : Tracker} {i : Nat} (stuck : t.legalMoves g = []) :
      Descends g tree t i [] (tree.noteMoves g i t) t
  | grow {tree : Tree α} {t moved : Tracker} {i p move : Nat} (pending : t.pending = some p)
      (first : firstUntried (tree.node i).children (t.legalMoves g) = some move)
      (applied : t.apply g move = .ok moved) :
      Descends g tree t i [tree.size] ((tree.noteMoves g i t).expanded g i p move moved) moved
  | follow {tree end_ : Tree α} {t moved u : Tracker} {i m c : Nat} {below : List Nat}
      (member : (m, c) ∈ (tree.node i).children) (applied : t.apply g m = .ok moved)
      (later : Descends g (tree.noteMoves g i t) moved c below end_ u) :
      Descends g tree t i (c :: below) end_ u

/-- A child has the tracker of its parent after the move. -/
theorem Faithful.followed (faithful : Faithful g tree) (inside : i < tree.size)
    (replayed : replay g tree i = .ok tracker) {moved : Tracker} {m c : Nat}
    (member : (m, c) ∈ (tree.node i).children) (applied : tracker.apply g m = .ok moved) :
    c < (tree.noteMoves g i tracker).size ∧
      replay g (tree.noteMoves g i tracker) c = .ok moved := by
  have noted := faithful.noteMoves inside replayed
  have insideNoted : i < (tree.noteMoves g i tracker).size := by simpa using inside
  have child : (m, c) ∈ ((tree.noteMoves g i tracker).node i).children := by
    rwa [(stats_noteMoves i).2]
  refine ⟨(noted.child i insideNoted m c child).2.1, ?_⟩
  rw [replay_child noted.toLinked insideNoted child, faithful.replay_noteMoves inside replayed]
  exact applied

/-! The three ways of a walk that has moves. -/

section Descending

variable {constants : Option (ScoreConstants α)} {move : Nat} {moved : Tracker}

theorem descend_failed {fault : Fault} (some_move : tracker.legalMoves g ≠ [])
    (selected : (tree.noteMoves g i tracker).selectMove constants i (tracker.legalMoves g) =
      .error fault) :
    descend g constants tree tracker i = ⟨tree.noteMoves g i tracker, tracker, .error fault⟩ := by
  rw [descend]
  split
  · rename_i none_
    exact absurd none_ some_move
  · rename_i first rest moves
    rw [moves] at selected
    simp only [selected]

theorem descend_untried (some_move : tracker.legalMoves g ≠ [])
    (selected : (tree.noteMoves g i tracker).selectMove constants i (tracker.legalMoves g) =
      .ok (.untried move)) (applied : tracker.apply g move = .ok moved) :
    descend g constants tree tracker i =
      expand g (tree.noteMoves g i tracker) moved i (tracker.pending.getD 0) move := by
  rw [descend]
  split
  · rename_i none_
    exact absurd none_ some_move
  · rename_i first rest moves
    rw [moves] at selected
    simp only [selected, Choice.move]
    split
    · rename_i fault failed
      simp [applied] at failed
    · rename_i moved' again
      cases Except.ok.inj (applied.symm.trans again)
      rfl

theorem descend_known {child : Nat} (some_move : tracker.legalMoves g ≠ [])
    (selected : (tree.noteMoves g i tracker).selectMove constants i (tracker.legalMoves g) =
      .ok (.known move child)) (applied : tracker.apply g move = .ok moved) :
    descend g constants tree tracker i =
      (descend g constants (tree.noteMoves g i tracker) moved child).after child := by
  rw [descend]
  split
  · rename_i none_
    exact absurd none_ some_move
  · rename_i first rest moves
    rw [moves] at selected
    simp only [selected, Choice.move]
    split
    · rename_i fault failed
      simp [applied] at failed
    · rename_i moved' again
      cases Except.ok.inj (applied.symm.trans again)
      rfl

end Descending

/-- The ways that a walk can go on from a node. -/
theorem descend_cases (wf : g.toArena.WellFormed) (constants : Option (ScoreConstants α))
    (inside : i < tree.size) (replayed : replay g tree i = .ok tracker) :
    (tracker.legalMoves g = [] ∧
      descend g constants tree tracker i = ⟨tree.noteMoves g i tracker, tracker, .ok []⟩) ∨
    (∃ p move moved, tracker.pending = some p ∧
      firstUntried (tree.node i).children (tracker.legalMoves g) = some move ∧
      tracker.apply g move = .ok moved ∧ descend g constants tree tracker i =
        ⟨(tree.noteMoves g i tracker).expanded g i p move moved, moved, .ok [tree.size]⟩) ∨
    (∃ m c moved, (m, c) ∈ (tree.node i).children ∧ tracker.apply g m = .ok moved ∧
      descend g constants tree tracker i =
        (descend g constants (tree.noteMoves g i tracker) moved c).after c) ∨
    (constants = none ∧ descend g constants tree tracker i =
      ⟨tree.noteMoves g i tracker, tracker, .error .tooLarge⟩) := by
  have inv := inv_of_replay wf replayed
  have insideNoted : i < (tree.noteMoves g i tracker).size := by simpa using inside
  have legal : ∀ m ∈ tracker.legalMoves g, ∃ u, tracker.apply g m = .ok u := by
    intro m member
    obtain ⟨u, applied, _⟩ := Tracker.apply_of_mem_legalMoves wf inv member
    exact ⟨u, applied⟩
  by_cases stuck : tracker.legalMoves g = []
  · refine .inl ⟨stuck, ?_⟩
    rw [descend]
    simp only [stuck]
  · rcases Tree.selectMove_spec (t := tree.noteMoves g i tracker) constants insideNoted stuck
      with ⟨move, untried, picked⟩ | ⟨⟨m, c⟩, child, member, picked⟩ | ⟨missing, picked⟩
    · obtain ⟨member, fresh⟩ := firstUntried_spec untried
      obtain ⟨moved, applied⟩ := legal move member
      obtain ⟨p, pending, _⟩ := inv.of_apply wf applied
      rw [(stats_noteMoves i).2] at untried
      refine .inr (.inl ⟨p, move, moved, pending, untried, applied, ?_⟩)
      rw [descend_untried stuck picked applied, expand_eq insideNoted fresh, pending,
        Option.getD_some, size_noteMoves]
    · obtain ⟨moved, applied⟩ := legal m member
      rw [(stats_noteMoves i).2] at child
      exact .inr (.inr (.inl ⟨m, c, moved, child, applied, descend_known stuck picked applied⟩))
    · exact .inr (.inr (.inr ⟨missing, descend_failed stuck picked⟩))

/-- A walk follows the tree as far as it goes; it fails only for want of a score. -/
theorem descends_of_descend (wf : g.toArena.WellFormed) (constants : Option (ScoreConstants α))
    (k : Nat) : ∀ {tree : Tree α} {tracker : Tracker} {i : Nat}, tracker.openCount < k →
      Faithful g tree → i < tree.size → replay g tree i = .ok tracker →
      (∃ below end_ u, descend g constants tree tracker i = ⟨end_, u, .ok below⟩ ∧
        Descends g tree tracker i below end_ u) ∨
      (constants = none ∧ ∃ fault, (descend g constants tree tracker i).path = .error fault) := by
  induction k with
  | zero => exact fun small => absurd small (Nat.not_lt_zero _)
  | succ k ih =>
      intro tree tracker i small faithful inside replayed
      rcases descend_cases wf constants inside replayed with
        ⟨stuck, stayed⟩ | ⟨p, move, moved, pending, first, applied, grown⟩ |
        ⟨m, c, moved, child, applied, followed⟩ | ⟨missing, failed⟩
      · exact .inl ⟨[], _, _, stayed, .stay stuck⟩
      · exact .inl ⟨_, _, _, grown, .grow pending first applied⟩
      · obtain ⟨insideChild, replayedChild⟩ := faithful.followed inside replayed child applied
        have fewer := Tracker.apply_openCount applied
        rw [followed]
        rcases ih (by omega) (faithful.noteMoves inside replayed) insideChild replayedChild with
          ⟨below, end_, u, walked, later⟩ | ⟨missing, fault, failed⟩
        · exact .inl ⟨c :: below, end_, u, by rw [walked]; rfl, .follow child applied later⟩
        · exact .inr ⟨missing, fault, by simp [Walk.after, failed, Except.map]⟩
      · exact .inr ⟨missing, .tooLarge, by rw [failed]⟩

theorem Descends.descent {u : Tracker} {below : List Nat}
    (descends : Descends g tree tracker i below after u) (faithful : Faithful g tree)
    (inside : i < tree.size) (replayed : replay g tree i = .ok tracker) :
    Descent g tree i ⟨after, u, .ok below⟩ below := by
  induction descends with
  | stay => exact descent_stay faithful inside replayed
  | grow _ first applied =>
      exact descent_grow faithful inside replayed (firstUntried_spec first).2 applied
  | follow member applied _ ih =>
      obtain ⟨insideChild, replayedChild⟩ := faithful.followed inside replayed member applied
      exact (ih (faithful.noteMoves inside replayed) insideChild replayedChild).continued
        faithful inside replayed member

/-- Walking down keeps the tree faithful; it fails only for want of a score. -/
theorem descend_spec (wf : g.toArena.WellFormed) (constants : Option (ScoreConstants α)) (k : Nat)
    {tree : Tree α} {tracker : Tracker} {i : Nat} (small : tracker.openCount < k)
    (faithful : Faithful g tree) (inside : i < tree.size)
    (replayed : replay g tree i = .ok tracker) :
    (∃ below, Descent g tree i (descend g constants tree tracker i) below) ∨
      (constants = none ∧ ∃ fault, (descend g constants tree tracker i).path = .error fault) := by
  refine (descends_of_descend wf constants k small faithful inside replayed).imp_left ?_
  rintro ⟨below, end_, u, walked, descends⟩
  rw [walked]
  exact ⟨below, descends.descent faithful inside replayed⟩

end Walking

end EGraphSearch
