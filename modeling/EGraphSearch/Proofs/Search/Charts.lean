import EGraphSearch.Proofs.Search.Descent
import EGraphSearch.Proofs.Tracker.Terms

/-!
# Charted trees

A tree is charted if besides its moves also the depths and the names of its nodes and the order of
their children agree with the trackers.  Walks keep a tree charted, and whatever a node has recorded
lasts.
-/

set_option autoImplicit false

namespace EGraphSearch

variable {α : Type}

/-! ## What lasts -/

/-- The second node is the first one at a later time. -/
structure SearchNode.Lasts (n later : SearchNode α) : Prop where
  parent_eq : later.parent = n.parent
  move_eq : later.move = n.move
  cls_eq : later.cls = n.cls
  node_eq : later.node = n.node
  depth_eq : later.depth = n.depth
  children_prefix : n.children <+: later.children
  notes_eq : n.numMoves.isSome → later.numMoves = n.numMoves ∧ later.terminal = n.terminal

theorem SearchNode.Lasts.refl (n : SearchNode α) : n.Lasts n :=
  ⟨rfl, rfl, rfl, rfl, rfl, List.prefix_rfl, fun _ => ⟨rfl, rfl⟩⟩

theorem SearchNode.Lasts.trans {n m k : SearchNode α} (first : n.Lasts m) (second : m.Lasts k) :
    n.Lasts k where
  parent_eq := second.parent_eq.trans first.parent_eq
  move_eq := second.move_eq.trans first.move_eq
  cls_eq := second.cls_eq.trans first.cls_eq
  node_eq := second.node_eq.trans first.node_eq
  depth_eq := second.depth_eq.trans first.depth_eq
  children_prefix := first.children_prefix.trans second.children_prefix
  notes_eq known := by
    obtain ⟨moves, terminal⟩ := first.notes_eq known
    obtain ⟨movesNext, terminalNext⟩ := second.notes_eq (moves ▸ known)
    exact ⟨movesNext.trans moves, terminalNext.trans terminal⟩

variable [Scalar α] {g : EGraph} {tree after : Tree α} {tracker u : Tracker} {i : Nat}

omit [Scalar α] in
theorem SearchNode.lasts_noteMoves (n : SearchNode α) (moves : Nat) (terminal : Bool) :
    n.Lasts (n.noteMoves moves terminal) where
  parent_eq := parent_noteMoves n moves terminal
  move_eq := move_noteMoves n moves terminal
  cls_eq := by unfold noteMoves; split <;> rfl
  node_eq := by unfold noteMoves; split <;> rfl
  depth_eq := by unfold noteMoves; split <;> rfl
  children_prefix := by rw [children_noteMoves]
  notes_eq known := by
    unfold noteMoves
    split
    · exact ⟨rfl, rfl⟩
    · rename_i unknown
      simp [unknown] at known

/-- Every node of the first tree is still there in the second. -/
structure Tree.Lasts (tree after : Tree α) : Prop where
  size_le : tree.size ≤ after.size
  node : ∀ j < tree.size, (tree.node j).Lasts (after.node j)

theorem Tree.Lasts.refl (tree : Tree α) : Tree.Lasts tree tree :=
  ⟨Nat.le_refl _, fun _ _ => .refl _⟩

theorem Tree.Lasts.trans {last : Tree α} (first : Tree.Lasts tree after)
    (second : Tree.Lasts after last) : Tree.Lasts tree last where
  size_le := Nat.le_trans first.size_le second.size_le
  node j inside := (first.node j inside).trans
    (second.node j (Nat.lt_of_lt_of_le inside first.size_le))

theorem Tree.Lasts.kept (lasts : Tree.Lasts tree after) : Tree.Kept tree after where
  size_le := lasts.size_le
  parent_eq j inside := (lasts.node j inside).parent_eq
  move_eq j inside := (lasts.node j inside).move_eq

theorem lasts_noteMoves : Tree.Lasts tree (tree.noteMoves g i tracker) where
  size_le := by simp
  node j _ := by
    rw [Tree.noteMoves, Tree.node_update]
    split
    · exact SearchNode.lasts_noteMoves ..
    · exact .refl _

theorem lasts_expanded {cls move : Nat} (inside : i < tree.size) :
    Tree.Lasts tree (tree.expanded g i cls move u) where
  size_le := by simp
  node j old := by
    by_cases here : j = i
    · rw [here, node_expanded_parent inside]
      exact ⟨rfl, rfl, rfl, rfl, rfl, List.prefix_append _ _, fun _ => ⟨rfl, rfl⟩⟩
    · rw [node_expanded_ne (Nat.ne_of_lt old) here]
      exact .refl _

/-! ## Charts -/

/-- The children of a node are the first legal moves of its tracker, in order, and carry the names
of what they resolve. -/
structure Charts (g : EGraph) (tree : Tree α) (i : Nat) (t : Tracker) : Prop where
  ordered : (tree.node i).children.map Prod.fst <+: t.legalMoves g
  depth_eq : ∀ m c, (m, c) ∈ (tree.node i).children →
    (tree.node c).depth = (tree.node i).depth + 1
  named : ∀ p, t.pending = some p → ∀ m c, (m, c) ∈ (tree.node i).children →
    (tree.node c).cls = g.classLabel p ∧ (tree.node c).node = g.nodeLabel m

structure Charted (g : EGraph) (tree : Tree α) : Prop extends Faithful g tree where
  root_depth : (tree.node 0).depth = 0
  charts : ∀ j < tree.size, ∀ t, replay g tree j = .ok t → Charts g tree j t

theorem Charts.of_lasts {t : Tracker} (linked : tree.Linked) (lasts : Tree.Lasts tree after)
    (inside : i < tree.size) (same : (after.node i).children = (tree.node i).children)
    (charts : Charts g tree i t) : Charts g after i t := by
  have depth := (lasts.node i inside).depth_eq
  refine ⟨by rw [same]; exact charts.ordered, ?_, ?_⟩
  · intro m c member
    rw [same] at member
    have child := lasts.node c (linked.child i inside m c member).2.1
    rw [child.depth_eq, depth, charts.depth_eq m c member]
  · intro p pending m c member
    rw [same] at member
    have child := lasts.node c (linked.child i inside m c member).2.1
    rw [child.cls_eq, child.node_eq]
    exact charts.named p pending m c member

theorem Charted.of_lasts (charted : Charted g tree) (faithful : Faithful g after)
    (lasts : Tree.Lasts tree after) (size : after.size = tree.size)
    (same : ∀ j, (after.node j).children = (tree.node j).children) : Charted g after where
  toFaithful := faithful
  root_depth := by rw [(lasts.node 0 charted.nonempty).depth_eq, charted.root_depth]
  charts j inside t replayed := by
    rw [size] at inside
    rw [replay_congr charted.toLinked lasts.kept inside] at replayed
    exact (charted.charts j inside t replayed).of_lasts charted.toLinked lasts inside (same j)

theorem charts_of_childless {t : Tracker} (childless : (tree.node i).children = []) :
    Charts g tree i t where
  ordered := by simp [childless]
  depth_eq := by simp [childless]
  named := by simp [childless]

theorem charted_initial : Charted g (Tree.initial : Tree α) where
  toFaithful := faithful_initial
  root_depth := by simp [SearchNode.root, SearchNode.fresh]
  charts _ _ _ _ := charts_of_childless (by simp [SearchNode.root, SearchNode.fresh])

theorem Charted.noteMoves (charted : Charted g tree) (inside : i < tree.size)
    (replayed : replay g tree i = .ok tracker) : Charted g (tree.noteMoves g i tracker) :=
  charted.of_lasts (charted.toFaithful.noteMoves inside replayed) lasts_noteMoves size_noteMoves
    fun j => (stats_noteMoves j).2

theorem legalMoves_nodup (wf : g.toArena.WellFormed) (inv : Tracker.Inv g tracker) :
    (tracker.legalMoves g).Nodup := by
  unfold Tracker.legalMoves
  cases pending : tracker.pending with
  | none => exact .nil
  | some p =>
      have isOpen := (Tracker.isOpen_iff.mp (inv.waiting p pending).1).1
      exact (wf.members_nodup p (inv.assigned_size ▸ isOpen)).filter _

section Expanding

variable {p move : Nat} {moved : Tracker}

theorem Charts.expanded (wf : g.toArena.WellFormed) (charted : Charted g tree)
    (inside : i < tree.size) (replayed : replay g tree i = .ok tracker)
    (pending : tracker.pending = some p)
    (first : firstUntried (tree.node i).children (tracker.legalMoves g) = some move) :
    Charts g (tree.expanded g i p move moved) i tracker := by
  have charts := charted.charts i inside tracker replayed
  have lasts : Tree.Lasts tree (tree.expanded g i p move moved) := lasts_expanded inside
  have children : ((tree.expanded g i p move moved).node i).children =
      (tree.node i).children ++ [(move, tree.size)] := by
    rw [node_expanded_parent inside]
  have depth := (lasts.node i inside).depth_eq
  have split : ∀ {m c : Nat}, (m, c) ∈ ((tree.expanded g i p move moved).node i).children →
      (m, c) ∈ (tree.node i).children ∨ m = move ∧ c = tree.size := by
    intro m c member
    rw [children] at member
    simpa using member
  refine ⟨?_, ?_, ?_⟩
  · rw [children, List.map_append, List.map_singleton]
    exact prefix_of_firstUntried charts.ordered
      (legalMoves_nodup wf (inv_of_replay wf replayed)) first
  · intro m c member
    rw [depth]
    rcases split member with old | ⟨rfl, rfl⟩
    · have child := lasts.node c (charted.child i inside m c old).2.1
      rw [child.depth_eq, charts.depth_eq m c old]
    · rw [node_expanded_new, (SearchNode.lasts_noteMoves _ _ _).depth_eq]
      rfl
  · intro q samePending m c member
    obtain rfl : p = q := Option.some.inj (pending.symm.trans samePending)
    rcases split member with old | ⟨rfl, rfl⟩
    · have child := lasts.node c (charted.child i inside m c old).2.1
      rw [child.cls_eq, child.node_eq]
      exact charts.named p pending m c old
    · rw [node_expanded_new, (SearchNode.lasts_noteMoves _ _ _).cls_eq,
        (SearchNode.lasts_noteMoves _ _ _).node_eq]
      exact ⟨rfl, rfl⟩

theorem Charted.expanded (wf : g.toArena.WellFormed) (charted : Charted g tree)
    (inside : i < tree.size) (replayed : replay g tree i = .ok tracker)
    (pending : tracker.pending = some p)
    (first : firstUntried (tree.node i).children (tracker.legalMoves g) = some move)
    (applied : tracker.apply g move = .ok moved) :
    Charted g (tree.expanded g i p move moved) := by
  have lasts : Tree.Lasts tree (tree.expanded g i p move moved) := lasts_expanded inside
  refine ⟨charted.toFaithful.expanded inside replayed (firstUntried_spec first).2 applied, ?_, ?_⟩
  · rw [(lasts.node 0 charted.nonempty).depth_eq, charted.root_depth]
  · intro j insideNew t replayedNew
    rw [size_expanded] at insideNew
    by_cases new : j = tree.size
    · refine charts_of_childless ?_
      rw [new, node_expanded_new, children_noteMoves]
      rfl
    · have old : j < tree.size := by omega
      rw [replay_congr charted.toLinked lasts.kept old] at replayedNew
      by_cases here : j = i
      · subst here
        cases Except.ok.inj (replayed.symm.trans replayedNew)
        exact .expanded wf charted inside replayed pending first
      · refine (charted.charts j old t replayedNew).of_lasts charted.toLinked lasts old ?_
        rw [node_expanded_ne new here]

end Expanding

/-! ## Walks -/

theorem Descends.charted (wf : g.toArena.WellFormed) {below : List Nat}
    (descends : Descends g tree tracker i below after u) (charted : Charted g tree)
    (inside : i < tree.size) (replayed : replay g tree i = .ok tracker) :
    Charted g after ∧ Tree.Lasts tree after := by
  induction descends with
  | stay => exact ⟨charted.noteMoves inside replayed, lasts_noteMoves⟩
  | @grow tree t moved i p move pending first applied =>
      have noted := charted.noteMoves inside replayed
      have insideNoted : i < (tree.noteMoves g i t).size := by simpa using inside
      have replayedNoted := charted.toFaithful.replay_noteMoves inside replayed
      have sameChildren : ((tree.noteMoves g i t).node i).children = (tree.node i).children :=
        (stats_noteMoves i).2
      rw [← sameChildren] at first
      exact ⟨noted.expanded wf insideNoted replayedNoted pending first applied,
        lasts_noteMoves.trans (lasts_expanded insideNoted)⟩
  | follow member applied _ ih =>
      obtain ⟨insideChild, replayedChild⟩ :=
        charted.toFaithful.followed inside replayed member applied
      obtain ⟨chartedEnd, lasts⟩ := ih (charted.noteMoves inside replayed) insideChild replayedChild
      exact ⟨chartedEnd, lasts_noteMoves.trans lasts⟩

/-- Where a walk from node `i` ends: at a node that it added, or at an old node without moves. -/
structure Ends (g : EGraph) (tree after : Tree α) (path : List Nat) (u : Tracker) (last : Nat) :
    Prop where
  path_eq : after.pathFromRoot last = .ok path
  replayed : replay g after last = .ok u
  inside : last < after.size
  noted : (after.node last).numMoves = some (u.legalMoves g).length
  grown : after.size = tree.size + 1 ∧ last = tree.size ∨
    after.size = tree.size ∧ u.legalMoves g = []

theorem numMoves_noteMoves (faithful : Faithful g tree) (inside : i < tree.size)
    (replayed : replay g tree i = .ok tracker) :
    ((tree.noteMoves g i tracker).node i).numMoves = some (tracker.legalMoves g).length := by
  rw [node_noteMoves_self inside, SearchNode.noteMoves]
  split
  · rename_i k known
    rw [known, (faithful.noted i inside tracker k replayed known).1]
  · rfl

theorem Ends.of_noteMoves {path : List Nat} {last : Nat}
    (ends : Ends g (tree.noteMoves g i tracker) after path u last) :
    Ends g tree after path u last :=
  { ends with grown := by simpa using ends.grown }

theorem ends_expanded {before : List Nat} {p move : Nat} (faithful : Faithful g tree)
    (inside : i < tree.size) (replayed : replay g tree i = .ok tracker)
    (untried : ∀ entry ∈ (tree.node i).children, entry.1 ≠ move)
    (applied : tracker.apply g move = .ok u) (path : tree.pathFromRoot i = .ok before) :
    Ends g tree (tree.expanded g i p move u) (before ++ [tree.size]) u tree.size := by
  have linked : (tree.expanded g i p move u).Linked :=
    linked_expanded faithful.toLinked inside untried
  have member : (move, tree.size) ∈ ((tree.expanded g i p move u).node i).children := by
    rw [node_expanded_parent inside]
    simp
  refine ⟨?_, replay_expanded faithful inside replayed untried applied, by simp, ?_, .inl ⟨?_, rfl⟩⟩
  · rw [linked.pathFromRoot_child (by simp; omega) member,
      Tree.pathFromRoot_congr kept_expanded inside, path]
    rfl
  · rw [node_expanded_new]
    rfl
  · exact size_expanded

theorem Descends.ends {below before : List Nat}
    (descends : Descends g tree tracker i below after u) (faithful : Faithful g tree)
    (inside : i < tree.size) (replayed : replay g tree i = .ok tracker)
    (path : tree.pathFromRoot i = .ok before) :
    ∃ last, Ends g tree after (before ++ below) u last := by
  induction descends generalizing before with
  | @stay tree t i stuck =>
      refine ⟨i, ?_, faithful.replay_noteMoves inside replayed, by simpa using inside,
        numMoves_noteMoves faithful inside replayed, .inr ⟨by simp, stuck⟩⟩
      rw [Tree.pathFromRoot_congr kept_noteMoves inside, path, List.append_nil]
  | @grow tree t moved i p move pending first applied =>
      have noted := faithful.noteMoves inside replayed
      have insideNoted : i < (tree.noteMoves g i t).size := by simpa using inside
      have replayedNoted := faithful.replay_noteMoves inside replayed
      have pathNoted : (tree.noteMoves g i t).pathFromRoot i = .ok before :=
        (Tree.pathFromRoot_congr kept_noteMoves inside).trans path
      have sameChildren : ((tree.noteMoves g i t).node i).children = (tree.node i).children :=
        (stats_noteMoves i).2
      rw [← sameChildren] at first
      have ends : Ends g (tree.noteMoves g i t) ((tree.noteMoves g i t).expanded g i p move moved)
          (before ++ [(tree.noteMoves g i t).size]) moved (tree.noteMoves g i t).size :=
        ends_expanded noted insideNoted replayedNoted (firstUntried_spec first).2 applied pathNoted
      rw [size_noteMoves] at ends
      exact ⟨tree.size, ends.of_noteMoves⟩
  | @follow tree end_ t moved u i m c below member applied later ih =>
      have noted := faithful.noteMoves inside replayed
      obtain ⟨insideChild, replayedChild⟩ := faithful.followed inside replayed member applied
      have insideNoted : i < (tree.noteMoves g i t).size := by simpa using inside
      have memberNoted : (m, c) ∈ ((tree.noteMoves g i t).node i).children := by
        rwa [(stats_noteMoves i).2]
      have pathChild : (tree.noteMoves g i t).pathFromRoot c = .ok (before ++ [c]) := by
        rw [noted.toLinked.pathFromRoot_child insideNoted memberNoted,
          Tree.pathFromRoot_congr kept_noteMoves inside, path]
        rfl
      obtain ⟨last, ends⟩ := ih noted insideChild replayedChild pathChild
      rw [List.append_assoc] at ends
      exact ⟨last, ends.of_noteMoves⟩

end EGraphSearch
