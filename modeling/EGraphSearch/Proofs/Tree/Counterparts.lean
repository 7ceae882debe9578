import EGraphSearch.Proofs.EGraph.Matching
import EGraphSearch.Proofs.Tree.Links
import EGraphSearch.Search.Walk
import Mathlib.Data.List.Find

/-!
# Search trees of matched e-graphs

Two search trees are counterparts if their nodes are, one by one: they hang from the same places,
resolve corresponding classes with corresponding members, and have the same statistics.  Selection
sees no difference, and what a search does to both trees keeps them counterparts.
-/

set_option autoImplicit false

namespace EGraphSearch

/-! ## Moves under other numbers -/

/-- The choice of the renamed move. -/
def Choice.rename (f : Nat → Nat) : Choice → Choice
  | untried move => untried (f move)
  | known move child => known (f move) child

section Renaming

variable {β γ : Type} {exceeds : β → β → Bool} {exceeds' : γ → γ → Bool} {key : Nat → β}
  {key' : Nat → γ} (f : Nat → Nat) {children : List (Nat × Nat)} {moves : List Nat}

theorem firstBest_map (same : ∀ c d, exceeds' (key' c) (key' d) = exceeds (key c) (key d))
    (entries : List (Nat × Nat)) : ∀ best : Option (Nat × Nat),
      firstBest exceeds' key' (entries.map (Prod.map f id)) (best.map (Prod.map f id)) =
        (firstBest exceeds key entries best).map (Prod.map f id) := by
  induction entries with
  | nil => exact fun best => rfl
  | cons entry rest ih =>
      intro best
      cases best with
      | none => exact ih (some entry)
      | some known =>
          simp only [List.map_cons, Option.map_some, firstBest, Prod.map_snd, id_eq, same]
          rw [← ih, Option.map_some, apply_ite (Prod.map f id)]

variable (apart : ∀ entry ∈ children, ∀ move ∈ moves, f entry.1 = f move → entry.1 = move)

include apart

theorem any_tried_map {move : Nat} (listed : move ∈ moves) :
    ((children.map (Prod.map f id)).any fun entry => entry.1 == f move) =
      children.any fun entry => entry.1 == move := by
  rw [List.any_map, Bool.eq_iff_iff, List.any_eq_true, List.any_eq_true]
  refine exists_congr fun entry => and_congr_right fun tried => ?_
  simp only [Function.comp_apply, Prod.map_fst, beq_iff_eq]
  exact ⟨apart entry tried move listed, congrArg f⟩

theorem contains_map {entry : Nat × Nat} (tried : entry ∈ children) :
    (moves.map f).contains (f entry.1) = moves.contains entry.1 := by
  rw [Bool.eq_iff_iff, List.contains_iff_mem, List.contains_iff_mem, List.mem_map]
  constructor
  · rintro ⟨move, listed, same⟩
    rwa [apart entry tried move listed same.symm]
  · exact fun listed => ⟨entry.1, listed, rfl⟩

theorem chooseMove_map (same : ∀ c d, exceeds' (key' c) (key' d) = exceeds (key c) (key d)) :
    chooseMove exceeds' key' (children.map (Prod.map f id)) (moves.map f) =
      (chooseMove exceeds key children moves).map (Choice.rename f) := by
  have untried : (moves.map f).find?
      (fun move => !(children.map (Prod.map f id)).any fun entry => entry.1 == move) =
        (moves.find? fun move => !children.any fun entry => entry.1 == move).map f := by
    rw [List.find?_map]
    refine congrArg (Option.map f) (List.find?_congr fun move listed => ?_)
    exact congrArg not (any_tried_map f apart listed)
  have tried : (children.map (Prod.map f id)).filter (fun entry => (moves.map f).contains entry.1) =
      (children.filter fun entry => moves.contains entry.1).map (Prod.map f id) := by
    rw [List.filter_map]
    exact congrArg (List.map _) (List.filter_congr fun entry tried => contains_map f apart tried)
  unfold chooseMove
  rw [untried, tried]
  cases moves.find? fun move => !children.any fun entry => entry.1 == move with
  | some move => rfl
  | none =>
      have best := firstBest_map f same (children.filter fun entry => moves.contains entry.1) none
      simp only [Option.map_none] at best ⊢
      rw [best, Option.map_map, Option.map_map]
      rfl

end Renaming

/-! ## Nodes -/

/-- What a tree node stands for: a class and the member chosen for it, or nothing at the root. -/
def SearchNode.Resolves {α : Type} (g : EGraph) (n : SearchNode α) : Option (Nat × Nat) → Prop
  | none => n.move = none ∧ n.cls = .none ∧ n.node = .none
  | some (c, m) => n.move = some m ∧ n.cls = g.classLabel c ∧ n.node = g.nodeLabel m

namespace Matching

variable {α : Type} {g g' : EGraph} {M : Matching g g'}

/-- Tree nodes that differ only in the numbers and the names of what they stand for. -/
structure Nodes (M : Matching g g') (n n' : SearchNode α) : Prop where
  parent_eq : n'.parent = n.parent
  resolves : ∃ pick, (∀ c m, pick = some (c, m) → g.Offers c m) ∧ n.Resolves g pick ∧
    n'.Resolves g' (pick.map (Prod.map M.cls M.node))
  depth_eq : n'.depth = n.depth
  children_eq : n'.children = n.children.map (Prod.map M.node id)
  offered : ∀ entry ∈ n.children, ∃ c, g.Offers c entry.1
  visits_eq : n'.visits = n.visits
  total_eq : n'.total = n.total
  virtualLoss_eq : n'.virtualLoss = n.virtualLoss
  numMoves_eq : n'.numMoves = n.numMoves
  terminal_eq : n'.terminal = n.terminal

namespace Nodes

variable {n n' : SearchNode α} {c m : Nat}

theorem move_eq (nodes : M.Nodes n n') : n'.move = n.move.map M.node := by
  obtain ⟨_ | ⟨c, m⟩, _, ⟨move, _⟩, ⟨move', _⟩⟩ := nodes.resolves
  · rw [move, move', Option.map_none]
  · rw [move, move', Option.map_some]

theorem status_eq (nodes : M.Nodes n n') : n'.status = n.status := by
  simp only [SearchNode.status, nodes.numMoves_eq, nodes.terminal_eq, nodes.children_eq,
    List.isEmpty_map, List.length_map]

/-- Different moves stay different. -/
theorem apart (nodes : M.Nodes n n') (wf' : g'.toArena.WellFormed) {moves : List Nat}
    (offers : ∀ m ∈ moves, g.Offers c m) :
    ∀ entry ∈ n.children, ∀ move ∈ moves, M.node entry.1 = M.node move → entry.1 = move := by
  intro entry tried move listed same
  obtain ⟨d, offered⟩ := nodes.offered entry tried
  exact M.node_inj wf' offered (offers move listed) same

theorem credit [Scalar α] (nodes : M.Nodes n n') (value : α) :
    M.Nodes (n.credit value) (n'.credit value) :=
  { nodes with
    visits_eq := congrArg (· + 1) nodes.visits_eq
    total_eq := congrArg (· + value) nodes.total_eq }

theorem noteMoves (nodes : M.Nodes n n') (moves : Nat) (terminal : Bool) :
    M.Nodes (n.noteMoves moves terminal) (n'.noteMoves moves terminal) := by
  unfold SearchNode.noteMoves
  rw [nodes.numMoves_eq]
  cases n.numMoves with
  | none => exact { nodes with numMoves_eq := rfl, terminal_eq := rfl }
  | some k => exact nodes

theorem grow (nodes : M.Nodes n n') (offers : g.Offers c m) (i : Nat) :
    M.Nodes { n with children := n.children ++ [(m, i)] }
      { n' with children := n'.children ++ [(M.node m, i)] } :=
  { nodes with
    children_eq := by simp [nodes.children_eq]
    offered := by
      intro entry listed
      rcases List.mem_append.mp listed with old | new
      · exact nodes.offered entry old
      · rw [List.mem_singleton.mp new]
        exact ⟨c, offers⟩ }

variable [Scalar α]

theorem root (M : Matching g g') : M.Nodes (SearchNode.root (α := α)) SearchNode.root where
  parent_eq := rfl
  resolves := ⟨none, nofun, ⟨rfl, rfl, rfl⟩, ⟨rfl, rfl, rfl⟩⟩
  depth_eq := rfl
  children_eq := rfl
  offered := nofun
  visits_eq := rfl
  total_eq := rfl
  virtualLoss_eq := rfl
  numMoves_eq := rfl
  terminal_eq := rfl

theorem fresh (offers : g.Offers c m) (parent : Option Nat) (depth : Nat) :
    M.Nodes (SearchNode.fresh (α := α) parent (some m) (g.classLabel c) (g.nodeLabel m) depth)
      (SearchNode.fresh parent (some (M.node m)) (g'.classLabel (M.cls c))
        (g'.nodeLabel (M.node m)) depth) where
  parent_eq := rfl
  resolves := by
    refine ⟨some (c, m), ?_, ⟨rfl, rfl, rfl⟩, ⟨rfl, rfl, rfl⟩⟩
    rintro _ _ ⟨⟩
    exact offers
  depth_eq := rfl
  children_eq := rfl
  offered := nofun
  visits_eq := rfl
  total_eq := rfl
  virtualLoss_eq := rfl
  numMoves_eq := rfl
  terminal_eq := rfl

theorem presence_eq (nodes : M.Nodes n n') : n'.presence = n.presence := by
  rw [SearchNode.presence, SearchNode.presence, nodes.visits_eq, nodes.virtualLoss_eq]

theorem mean_eq (nodes : M.Nodes n n') : n'.mean = n.mean := by
  rw [SearchNode.mean, SearchNode.mean, nodes.visits_eq, nodes.total_eq]

theorem isUnvisited_eq (nodes : M.Nodes n n') : n'.isUnvisited = n.isUnvisited := by
  rw [SearchNode.isUnvisited, SearchNode.isUnvisited, nodes.presence_eq]

theorem score_eq (nodes : M.Nodes n n') (constants : ScoreConstants α) (visits : α) :
    n'.score constants visits = n.score constants visits := by
  simp only [SearchNode.score]
  rw [nodes.isUnvisited_eq, nodes.presence_eq, nodes.total_eq, nodes.virtualLoss_eq]

theorem score?_eq (nodes : M.Nodes n n') (constants : Option (ScoreConstants α)) (visits : α) :
    n'.score? constants visits = n.score? constants visits := by
  unfold SearchNode.score?
  rw [nodes.isUnvisited_eq]
  cases constants with
  | none => rfl
  | some known => exact congrArg some (nodes.score_eq known visits)

theorem busier_eq {k k' : SearchNode α} (nodes : M.Nodes n n') (others : M.Nodes k k') :
    busier n' k' = busier n k := by
  rw [busier, busier, nodes.visits_eq, others.visits_eq, nodes.mean_eq, others.mean_eq]

end Nodes

/-! ## Trees -/

variable [Scalar α]

structure Trees (M : Matching g g') (tree tree' : Tree α) : Prop where
  size_eq : tree'.size = tree.size
  nodes : ∀ i, M.Nodes (tree.node i) (tree'.node i)

namespace Trees

variable {tree tree' : Tree α} {c m i : Nat}

theorem absent (trees : M.Trees tree tree') (outside : ¬ i < tree.size) :
    tree.nodes[i]? = none ∧ tree'.nodes[i]? = none :=
  ⟨Array.getElem?_eq_none (Nat.not_lt.mp outside),
    Array.getElem?_eq_none (Nat.not_lt.mp fun inside => outside (trees.size_eq ▸ inside))⟩

theorem initial (M : Matching g g') : M.Trees (Tree.initial (α := α)) Tree.initial where
  size_eq := rfl
  nodes i := by
    rw [Tree.node_initial]
    exact .root M

theorem update (trees : M.Trees tree tree') {f f' : SearchNode α → SearchNode α}
    (keeps : ∀ n n', M.Nodes n n' → M.Nodes (f n) (f' n')) (i : Nat) :
    M.Trees (tree.update i f) (tree'.update i f') where
  size_eq := by rw [Tree.size_update, Tree.size_update, trees.size_eq]
  nodes j := by
    rw [Tree.node_update, Tree.node_update, trees.size_eq]
    split
    · exact keeps _ _ (trees.nodes j)
    · exact trees.nodes j

theorem updatePath {f f' : SearchNode α → SearchNode α}
    (keeps : ∀ n n', M.Nodes n n' → M.Nodes (f n) (f' n')) (path : List Nat) :
    ∀ {tree tree' : Tree α}, M.Trees tree tree' →
      (Tree.updatePath f' path tree').1 = (Tree.updatePath f path tree).1 ∧
        M.Trees (Tree.updatePath f path tree).2 (Tree.updatePath f' path tree').2 := by
  induction path with
  | nil => exact fun trees => ⟨rfl, trees⟩
  | cons i rest ih =>
      intro tree tree' trees
      unfold Tree.updatePath
      rw [trees.size_eq]
      split
      · exact ih (trees.update keeps i)
      · exact ⟨rfl, trees⟩

theorem creditPath (trees : M.Trees tree tree') (value : α) (path : List Nat) :
    (tree'.creditPath value path).1 = (tree.creditPath value path).1 ∧
      M.Trees (tree.creditPath value path).2 (tree'.creditPath value path).2 :=
  updatePath (fun _ _ nodes => nodes.credit value) path trees

theorem withChild (trees : M.Trees tree tree') (offers : g.Offers c m) (i : Nat) :
    M.Trees (tree.withChild i m (g.classLabel c) (g.nodeLabel m))
      (tree'.withChild i (M.node m) (g'.classLabel (M.cls c)) (g'.nodeLabel (M.node m))) where
  size_eq := by simp [trees.size_eq]
  nodes j := by
    rcases Nat.lt_trichotomy j tree.size with old | rfl | outside
    · rw [Tree.node_withChild_lt _ _ _ _ old,
        Tree.node_withChild_lt _ _ _ _ (trees.size_eq ▸ old), trees.size_eq]
      split
      · exact (trees.nodes j).grow offers _
      · exact trees.nodes j
    · have new := Tree.node_withChild_self tree' i (M.node m) (g'.classLabel (M.cls c))
        (g'.nodeLabel (M.node m))
      rw [trees.size_eq] at new
      rw [new, Tree.node_withChild_self, (trees.nodes i).depth_eq]
      exact .fresh offers _ _
    · rw [Tree.node_of_le (by simp; omega), Tree.node_of_le (by simp [trees.size_eq]; omega)]
      exact .root M

/-! ## Paths -/

theorem pathToRoot_eq (trees : M.Trees tree tree') (i : Nat) :
    tree'.pathToRoot i = tree.pathToRoot i := by
  induction i using Nat.strongRecOn with
  | _ i ih =>
      rw [Tree.pathToRoot, Tree.pathToRoot]
      by_cases inside : i < tree.size
      · rw [Tree.node_eq inside, Tree.node_eq (trees.size_eq ▸ inside)]
        simp only [(trees.nodes i).parent_eq]
        split
        · rfl
        · rename_i p _
          split
          · rename_i lt
            rw [ih p lt]
          · rfl
      · rw [(trees.absent inside).1, (trees.absent inside).2]

theorem pathFromRoot_eq (trees : M.Trees tree tree') (i : Nat) :
    tree'.pathFromRoot i = tree.pathFromRoot i := by
  rw [Tree.pathFromRoot, Tree.pathFromRoot, trees.pathToRoot_eq]

theorem movesTo_eq (trees : M.Trees tree tree') (i : Nat) :
    tree'.movesTo i = (tree.movesTo i).map (List.map M.node) := by
  rw [Tree.movesTo, Tree.movesTo, trees.pathFromRoot_eq]
  cases tree.pathFromRoot i with
  | error fault => rfl
  | ok path =>
      simp only [Except.map, Except.ok.injEq]
      rw [List.map_filterMap]
      refine List.filterMap_congr fun j _ => ?_
      by_cases inside : j < tree.size
      · rw [Tree.node_eq inside, Tree.node_eq (trees.size_eq ▸ inside)]
        exact (trees.nodes j).move_eq
      · rw [(trees.absent inside).1, (trees.absent inside).2]
        rfl

theorem noteMoves (trees : M.Trees tree tree') {t t' : Tracker}
    (length : (t'.legalMoves g').length = (t.legalMoves g).length)
    (terminal : t'.isTerminal = t.isTerminal) (i : Nat) :
    M.Trees (tree.noteMoves g i t) (tree'.noteMoves g' i t') := by
  rw [Tree.noteMoves, Tree.noteMoves, length, terminal]
  exact trees.update (fun _ _ nodes => nodes.noteMoves _ _) i

/-! ## Selection -/

theorem canScore_eq (wf' : g'.toArena.WellFormed) (trees : M.Trees tree tree')
    {n n' : SearchNode α} (nodes : M.Nodes n n') {moves : List Nat}
    (offers : ∀ m ∈ moves, g.Offers c m) (constants : Option (ScoreConstants α)) :
    tree'.canScore constants n' (moves.map M.node) = tree.canScore constants n moves := by
  rw [Tree.canScore, Tree.canScore, nodes.children_eq, nodes.presence_eq, List.all_map,
    Bool.eq_iff_iff, List.all_eq_true, List.all_eq_true]
  refine forall₂_congr fun entry tried => ?_
  simp only [Function.comp_apply, Prod.map_fst, Prod.map_snd, id_eq,
    contains_map M.node (nodes.apart wf' offers) tried, (trees.nodes entry.2).score?_eq]

theorem selectMove_eq (wf' : g'.toArena.WellFormed) (trees : M.Trees tree tree')
    {moves : List Nat} (offers : ∀ m ∈ moves, g.Offers c m)
    (constants : Option (ScoreConstants α)) (i : Nat) :
    tree'.selectMove constants i (moves.map M.node) =
      (tree.selectMove constants i moves).map (Choice.rename M.node) := by
  unfold Tree.selectMove
  rw [List.isEmpty_map]
  split
  · rfl
  · by_cases inside : i < tree.size
    · have nodes := trees.nodes i
      rw [Tree.node_eq inside, Tree.node_eq (trees.size_eq ▸ inside)]
      simp only [nodes.children_eq, nodes.presence_eq]
      have same : ∀ child,
          ((tree'.node child).score? constants (tree.node i).presence).getD .unvisited =
            ((tree.node child).score? constants (tree.node i).presence).getD .unvisited :=
        fun child => by rw [(trees.nodes child).score?_eq]
      simp only [same]
      rw [chooseMove_map M.node (nodes.apart wf' offers) fun _ _ => rfl]
      generalize chooseMove (Score.exceeds (α := α)) _ (tree.node i).children moves = chosen
      rcases chosen with _ | move | ⟨move, child⟩
      · rfl
      · rfl
      · simp only [Option.map_some, Choice.rename, trees.canScore_eq wf' nodes offers constants]
        split <;> rfl
    · rw [(trees.absent inside).1, (trees.absent inside).2]
      rfl

theorem mostVisited_eq (trees : M.Trees tree tree') (i : Nat) (skip : Bool) :
    tree'.mostVisited i skip =
      (tree.mostVisited i skip).map (Option.map (Prod.map M.node id)) := by
  by_cases inside : i < tree.size
  · rw [Tree.mostVisited_eq inside, Tree.mostVisited_eq (trees.size_eq ▸ inside)]
    have admissible : tree'.admissible i skip =
        (tree.admissible i skip).map (Prod.map M.node id) := by
      rw [Tree.admissible, Tree.admissible, (trees.nodes i).children_eq, List.filter_map]
      refine congrArg (List.map _) (List.filter_congr fun entry _ => ?_)
      simp only [Function.comp_apply, Prod.map_snd, id_eq, (trees.nodes entry.2).status_eq]
    rw [admissible]
    exact congrArg Except.ok (firstBest_map M.node
      (fun c d => (trees.nodes c).busier_eq (trees.nodes d)) _ none)
  · rw [Tree.mostVisited, Tree.mostVisited, Tree.get, Tree.get, (trees.absent inside).1,
      (trees.absent inside).2]
    rfl

end Trees

end Matching

end EGraphSearch
