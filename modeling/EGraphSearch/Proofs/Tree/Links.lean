import EGraphSearch.Proofs.Tree.Choosing
import EGraphSearch.Tree.Backup
import Mathlib.Data.List.Nodup

/-!
# Links in the search tree

Every node but the root is a child of a node that stands before it.  `Linked` says so for a tree;
it is kept by `addChild` and by every update that leaves the links alone.  Paths to the root follow
from the links only.
-/

set_option autoImplicit false

namespace EGraphSearch

namespace Tree

variable {α : Type} [Scalar α] {t u : Tree α}

/-! ## Nodes after an update -/

omit [Scalar α] in
@[simp] theorem size_update (i : Nat) (f : SearchNode α → SearchNode α) :
    (t.update i f).size = t.size := by
  simp [size, update]

theorem node_update (i j : Nat) (f : SearchNode α → SearchNode α) :
    (t.update i f).node j = if i = j ∧ j < t.size then f (t.node j) else t.node j := by
  by_cases inside : j < t.nodes.size
  · by_cases same : i = j <;> simp [node, update, Array.getD, size, inside, same,
      Array.getElem_modify, Array.getInternal_eq_getElem]
  · simp [node, update, Array.getD, size, inside]

theorem node_update_ne {i j : Nat} (apart : j ≠ i) (f : SearchNode α → SearchNode α) :
    (t.update i f).node j = t.node j := by
  rw [node_update, if_neg fun both => apart both.1.symm]

theorem node_update_self {i : Nat} (inside : i < t.size) (f : SearchNode α → SearchNode α) :
    (t.update i f).node i = f (t.node i) := by
  rw [node_update, if_pos ⟨rfl, inside⟩]

theorem ext_node (size : t.size = u.size) (nodes : ∀ i, t.node i = u.node i) : t = u := by
  obtain ⟨first⟩ := t
  obtain ⟨second⟩ := u
  congr 1
  refine Array.ext size fun i left right => ?_
  have same := nodes i
  rw [← Option.some.injEq, ← node_eq left, ← node_eq right] at same
  simpa [left, right] using same

/-- What the change at a node keeps, the changes along a path keep. -/
theorem field_updatePath {β : Type} (field : SearchNode α → β) {f : SearchNode α → SearchNode α}
    (keeps : ∀ n, field (f n) = field n) (path : List Nat) :
    ∀ (t : Tree α) (j : Nat), field ((updatePath f path t).2.node j) = field (t.node j) := by
  induction path with
  | nil => exact fun _ _ => rfl
  | cons i rest ih =>
      intro t j
      unfold updatePath
      split
      · rw [ih, node_update]
        split
        · exact keeps _
        · rfl
      · rfl

/-- Along a path without repetitions each node is changed once. -/
theorem updatePath_spec {f : SearchNode α → SearchNode α} (path : List Nat)
    (distinct : path.Nodup) :
    ∀ {tree : Tree α}, (∀ j ∈ path, j < tree.size) →
      ∃ after, updatePath f path tree = (.ok (), after) ∧ after.size = tree.size ∧
        ∀ j, after.node j = if j ∈ path then f (tree.node j) else tree.node j := by
  induction path with
  | nil => intro tree _; exact ⟨tree, rfl, rfl, by simp⟩
  | cons i rest ih =>
      intro tree inside
      obtain ⟨fresh, distinctRest⟩ := List.nodup_cons.mp distinct
      have here := inside i (by simp)
      have insideRest : ∀ j ∈ rest, j < (tree.update i f).size := fun j hj => by
        simpa using inside j (by simp [hj])
      obtain ⟨after, updated, size, nodes⟩ := ih distinctRest insideRest
      refine ⟨after, by simp [updatePath, here, updated], by simpa using size, ?_⟩
      intro j
      rw [nodes j]
      by_cases same : j = i
      · subst same
        simp [fresh, node_update_self here]
      · simp [same, node_update_ne same]

/-! ## Links -/

/-- Each node hangs from an earlier one, and parents and children know each other. -/
structure Linked (t : Tree α) : Prop where
  nonempty : 0 < t.size
  root_parent : (t.node 0).parent = none
  parent : ∀ i, 0 < i → i < t.size → ∃ p m, p < i ∧ (m, i) ∈ (t.node p).children
  child : ∀ p < t.size, ∀ m c, (m, c) ∈ (t.node p).children →
    p < c ∧ c < t.size ∧ (t.node c).parent = some p ∧ (t.node c).move = some m
  distinct : ∀ p < t.size, ((t.node p).children.map Prod.fst).Nodup

theorem linked_initial : (initial : Tree α).Linked where
  nonempty := by simp [size, initial]
  root_parent := by simp [SearchNode.root, SearchNode.fresh]
  parent i pos inside := by
    have : i < 1 := inside
    omega
  child p _ m c member := by simp [SearchNode.root, SearchNode.fresh] at member
  distinct p _ := by simp [SearchNode.root, SearchNode.fresh]

/-- The nodes of the first tree are at the same places in the second. -/
structure Kept (t u : Tree α) : Prop where
  size_le : t.size ≤ u.size
  parent_eq : ∀ i < t.size, (u.node i).parent = (t.node i).parent
  move_eq : ∀ i < t.size, (u.node i).move = (t.node i).move

theorem Kept.refl (t : Tree α) : Kept t t := ⟨Nat.le_refl _, fun _ _ => rfl, fun _ _ => rfl⟩

theorem Kept.trans {v : Tree α} (first : Kept t u) (second : Kept u v) : Kept t v where
  size_le := Nat.le_trans first.size_le second.size_le
  parent_eq i inside := (second.parent_eq i (Nat.lt_of_lt_of_le inside first.size_le)).trans
    (first.parent_eq i inside)
  move_eq i inside := (second.move_eq i (Nat.lt_of_lt_of_le inside first.size_le)).trans
    (first.move_eq i inside)

/-- An update that changes no links. -/
theorem kept_update {i : Nat} {f : SearchNode α → SearchNode α}
    (parent : (f (t.node i)).parent = (t.node i).parent)
    (move : (f (t.node i)).move = (t.node i).move) : Kept t (t.update i f) where
  size_le := by simp
  parent_eq j _ := by
    rw [node_update]
    split
    · rename_i both
      rw [← both.1, parent]
    · rfl
  move_eq j _ := by
    rw [node_update]
    split
    · rename_i both
      rw [← both.1, move]
    · rfl

theorem Linked.update (linked : t.Linked) {i : Nat} {f : SearchNode α → SearchNode α}
    (parent : (f (t.node i)).parent = (t.node i).parent)
    (move : (f (t.node i)).move = (t.node i).move)
    (children : (f (t.node i)).children = (t.node i).children) : (t.update i f).Linked := by
  have kept := kept_update parent move
  have sameChildren : ∀ j, ((t.update i f).node j).children = (t.node j).children := by
    intro j
    rw [node_update]
    split
    · rename_i both
      rw [← both.1, children]
    · rfl
  constructor
  · simpa using linked.nonempty
  · rw [kept.parent_eq 0 linked.nonempty]
    exact linked.root_parent
  · intro j pos inside
    obtain ⟨p, m, lt, member⟩ := linked.parent j pos (by simpa using inside)
    exact ⟨p, m, lt, by rwa [sameChildren]⟩
  · intro p inside m c member
    rw [sameChildren] at member
    obtain ⟨lt, insideChild, up, moved⟩ := linked.child p (by simpa using inside) m c member
    exact ⟨lt, by simpa using insideChild, by rwa [kept.parent_eq c insideChild],
      by rwa [kept.move_eq c insideChild]⟩
  · intro p inside
    rw [sameChildren]
    exact linked.distinct p (by simpa using inside)

/-! ## A new child -/

/-- The tree with one more child of `parent`. -/
def withChild (t : Tree α) (parent move : Nat) (cls node : Label) : Tree α :=
  ⟨(t.update parent fun p => { p with children := p.children ++ [(move, t.size)] }).nodes.push
    (SearchNode.fresh (some parent) (some move) cls node ((t.node parent).depth + 1))⟩

section WithChild

variable {parent move : Nat} {cls name : Label}

@[simp] theorem size_withChild : (t.withChild parent move cls name).size = t.size + 1 := by
  simp [withChild, size, update]

theorem node_withChild_lt (parent move : Nat) (cls name : Label) {i : Nat} (inside : i < t.size) :
    (t.withChild parent move cls name).node i =
      if parent = i then { t.node i with children := (t.node i).children ++ [(move, t.size)] }
      else t.node i := by
  have bigger : i < (t.update parent fun p =>
      { p with children := p.children ++ [(move, t.size)] }).nodes.size + 1 := by
    have := inside
    simp only [size, update, Array.size_modify] at this ⊢
    omega
  have lookup : (t.withChild parent move cls name).node i =
      (t.update parent fun p => { p with children := p.children ++ [(move, t.size)] }).node i := by
    have : i < t.nodes.size := inside
    simp [node, withChild, Array.getD, update, Array.getElem_push, this, Nat.lt_succ_of_lt this,
      Array.getInternal_eq_getElem]
  rw [lookup, node_update]
  by_cases same : parent = i <;> simp [same, inside]

theorem node_withChild_self (t : Tree α) (parent move : Nat) (cls name : Label) :
    (t.withChild parent move cls name).node t.size =
    SearchNode.fresh (some parent) (some move) cls name ((t.node parent).depth + 1) := by
  have last : (t.update parent fun p =>
      { p with children := p.children ++ [(move, t.size)] }).nodes.size = t.size := size_update ..
  simp only [node, withChild, Array.getD_eq_getD_getElem?]
  rw [Array.getElem?_push, if_pos last.symm]
  rfl

theorem addChild_eq (inside : parent < t.size)
    (untried : ∀ entry ∈ (t.node parent).children, entry.1 ≠ move) :
    t.addChild parent move cls name = .ok (t.size, t.withChild parent move cls name) := by
  have absent : (t.node parent).child? move = none := by
    simp only [SearchNode.child?, Option.map_eq_none_iff, List.find?_eq_none, beq_iff_eq]
    exact untried
  simp [addChild, node_eq inside, absent, withChild]

theorem addChild_cases {parent move child : Nat} {cls name : Label}
    (added : t.addChild parent move cls name = .ok (child, u)) :
    parent < t.size ∧ child = t.size ∧ u = t.withChild parent move cls name := by
  unfold addChild at added
  split at added
  · simp at added
  · rename_i p found
    have inside : parent < t.size := by
      by_contra outside
      rw [Array.getElem?_eq_none (Nat.not_lt.mp outside)] at found
      simp at found
    obtain rfl : t.node parent = p := Option.some.inj ((node_eq inside).symm.trans found)
    split at added
    · simp at added
    · obtain ⟨rfl, rfl⟩ := Prod.mk.inj (Except.ok.inj added)
      exact ⟨inside, rfl, rfl⟩

theorem kept_withChild : Kept t (t.withChild parent move cls name) where
  size_le := by simp
  parent_eq i inside := by
    rw [node_withChild_lt _ _ _ _ inside]
    split <;> rfl
  move_eq i inside := by
    rw [node_withChild_lt _ _ _ _ inside]
    split <;> rfl

theorem Linked.withChild (linked : t.Linked) (inside : parent < t.size)
    (untried : ∀ entry ∈ (t.node parent).children, entry.1 ≠ move) :
    (t.withChild parent move cls name).Linked := by
  have kept : Kept t (t.withChild parent move cls name) := kept_withChild
  have children : ∀ p < t.size, ∀ entry,
      entry ∈ ((t.withChild parent move cls name).node p).children ↔
        entry ∈ (t.node p).children ∨ parent = p ∧ entry = (move, t.size) := by
    intro p inside entry
    rw [node_withChild_lt _ _ _ _ inside]
    split
    · rename_i same
      simp [same]
    · rename_i other
      simp [other]
  constructor
  · simp
  · rw [kept.parent_eq 0 linked.nonempty]
    exact linked.root_parent
  · intro i pos lt
    rcases Nat.lt_succ_iff_lt_or_eq.mp (by simpa using lt) with old | rfl
    · obtain ⟨p, m, before, member⟩ := linked.parent i pos old
      exact ⟨p, m, before, (children p (by omega) _).mpr (.inl member)⟩
    · exact ⟨parent, move, inside, (children parent inside _).mpr (.inr ⟨rfl, rfl⟩)⟩
  · intro p lt m c member
    rcases Nat.lt_succ_iff_lt_or_eq.mp (by simpa using lt) with old | rfl
    · rcases (children p old _).mp member with before | ⟨rfl, same⟩
      · obtain ⟨lower, insideChild, up, moved⟩ := linked.child p old m c before
        refine ⟨lower, by simp; omega, ?_, ?_⟩
        · rw [kept.parent_eq c insideChild, up]
        · rw [kept.move_eq c insideChild, moved]
      · obtain ⟨rfl, rfl⟩ := Prod.mk.inj same
        exact ⟨inside, by simp, by rw [node_withChild_self]; rfl, by rw [node_withChild_self]; rfl⟩
    · rw [node_withChild_self] at member
      simp [SearchNode.fresh] at member
  · intro p lt
    rcases Nat.lt_succ_iff_lt_or_eq.mp (by simpa using lt) with old | rfl
    · rw [node_withChild_lt _ _ _ _ old]
      split
      · rename_i same
        subst same
        rw [List.map_append]
        refine List.nodup_append.mpr ⟨linked.distinct _ old, List.nodup_singleton _, ?_⟩
        intro m tried n new
        obtain ⟨entry, member, rfl⟩ := List.mem_map.mp tried
        rw [List.mem_singleton.mp new]
        exact untried entry member
      · exact linked.distinct p old
    · rw [node_withChild_self]
      simp [SearchNode.fresh]

end WithChild

/-! ## Paths -/

omit [Scalar α] in
theorem inside_of_pathFromRoot {i : Nat} {path : List Nat} (found : t.pathFromRoot i = .ok path) :
    i < t.size := by
  by_contra outside
  have absent : t.nodes[i]? = none := Array.getElem?_eq_none (Nat.not_lt.mp outside)
  rw [pathFromRoot, pathToRoot, absent] at found
  cases found

theorem pathToRoot_congr (kept : Kept t u) (i : Nat) (inside : i < t.size) :
    u.pathToRoot i = t.pathToRoot i := by
  induction i using Nat.strongRecOn with
  | _ i ih =>
      have insideNew := Nat.lt_of_lt_of_le inside kept.size_le
      rw [pathToRoot, pathToRoot, node_eq inside, node_eq insideNew]
      simp only [kept.parent_eq i inside]
      cases (t.node i).parent with
      | none => rfl
      | some p =>
          by_cases lt : p < i
          · simp only [lt, if_true, ih p lt (Nat.lt_trans lt inside)]
          · simp only [lt, if_false]

theorem pathFromRoot_congr (kept : Kept t u) {i : Nat} (inside : i < t.size) :
    u.pathFromRoot i = t.pathFromRoot i := by
  rw [pathFromRoot, pathFromRoot, pathToRoot_congr kept i inside]

theorem pathFromRoot_of_kept (kept : Kept t u) {i : Nat} {path : List Nat}
    (found : t.pathFromRoot i = .ok path) : u.pathFromRoot i = .ok path :=
  (pathFromRoot_congr kept (inside_of_pathFromRoot found)).trans found

theorem Linked.pathFromRoot_root (linked : t.Linked) : t.pathFromRoot 0 = .ok [0] := by
  rw [pathFromRoot, pathToRoot, node_eq linked.nonempty]
  simp [linked.root_parent, Except.map]

theorem Linked.pathFromRoot_child (linked : t.Linked) {p m c : Nat} (inside : p < t.size)
    (member : (m, c) ∈ (t.node p).children) :
    t.pathFromRoot c = (t.pathFromRoot p).map (· ++ [c]) := by
  obtain ⟨lt, insideChild, parent, _⟩ := linked.child p inside m c member
  rw [pathFromRoot, pathToRoot, node_eq insideChild]
  simp only [parent, lt, if_true, pathFromRoot]
  cases t.pathToRoot p <;> simp [Except.map]

/-- Every node of the tree has a path, which ascends to the node. -/
theorem Linked.exists_path (linked : t.Linked) (i : Nat) (inside : i < t.size) :
    ∃ before, t.pathFromRoot i = .ok (before ++ [i]) ∧ (∀ j ∈ before, j < i) ∧
      (before ++ [i]).Nodup := by
  induction i using Nat.strongRecOn with
  | _ i ih =>
      by_cases root : i = 0
      · subst root
        exact ⟨[], linked.pathFromRoot_root, by simp, by simp⟩
      · obtain ⟨p, m, lt, member⟩ := linked.parent i (Nat.pos_of_ne_zero root) inside
        obtain ⟨before, path, earlier, distinct⟩ := ih p lt (Nat.lt_trans lt inside)
        have earlierNext : ∀ j ∈ before ++ [p], j < i := by
          intro j hj
          rcases List.mem_append.mp hj with before | here
          · exact Nat.lt_trans (earlier j before) lt
          · rw [List.mem_singleton.mp here]
            exact lt
        refine ⟨before ++ [p], ?_, earlierNext, ?_⟩
        · rw [linked.pathFromRoot_child (Nat.lt_trans lt inside) member, path]
          rfl
        · refine List.nodup_append.mpr ⟨distinct, List.nodup_singleton _, ?_⟩
          intro a ha b hb
          rw [List.mem_singleton.mp hb]
          exact Nat.ne_of_lt (earlierNext a ha)

/-- Paths begin at the root, and do not come back to it. -/
theorem Linked.exists_path_cons (linked : t.Linked) (i : Nat) : i < t.size →
    ∃ rest, t.pathFromRoot i = .ok (0 :: rest) ∧ 0 ∉ rest := by
  induction i using Nat.strongRecOn with
  | _ i ih =>
      intro inside
      rcases Nat.eq_zero_or_pos i with rfl | pos
      · exact ⟨[], linked.pathFromRoot_root, by simp⟩
      · obtain ⟨p, m, lt, member⟩ := linked.parent i pos inside
        have insideParent := Nat.lt_trans lt inside
        obtain ⟨rest, path, absent⟩ := ih p lt insideParent
        refine ⟨rest ++ [i], ?_, ?_⟩
        · rw [linked.pathFromRoot_child insideParent member, path]
          rfl
        · rw [List.mem_append, List.mem_singleton]
          rintro (again | rfl)
          · exact absent again
          · exact Nat.lt_irrefl _ pos

theorem Linked.root_mem_path (linked : t.Linked) (i : Nat) {path : List Nat} (inside : i < t.size)
    (found : t.pathFromRoot i = .ok path) : 0 ∈ path := by
  obtain ⟨rest, begun, _⟩ := linked.exists_path_cons i inside
  rw [Except.ok.inj (found.symm.trans begun)]
  exact List.mem_cons_self

theorem Linked.movesTo_root (linked : t.Linked) : t.movesTo 0 = .ok [] := by
  rw [movesTo, linked.pathFromRoot_root]
  simp [Except.map]

theorem Linked.movesTo_child (linked : t.Linked) {p m c : Nat} (inside : p < t.size)
    (member : (m, c) ∈ (t.node p).children) :
    t.movesTo c = (t.movesTo p).map (· ++ [m]) := by
  obtain ⟨_, insideChild, _, moved⟩ := linked.child p inside m c member
  obtain ⟨before, path, _, _⟩ := linked.exists_path p inside
  rw [movesTo, movesTo, linked.pathFromRoot_child inside member, path]
  have drops : (before ++ [p] ++ [c]).drop 1 = (before ++ [p]).drop 1 ++ [c] := by
    rw [List.drop_append_of_le_length (by simp)]
  simp only [Except.map, drops, List.filterMap_append, List.filterMap_cons, List.filterMap_nil,
    node_eq insideChild, Option.bind_some, moved]

theorem movesTo_congr (linked : t.Linked) (kept : Kept t u) {i : Nat} (inside : i < t.size) :
    u.movesTo i = t.movesTo i := by
  obtain ⟨before, path, earlier, _⟩ := linked.exists_path i inside
  rw [movesTo, movesTo, pathFromRoot_congr kept inside, path]
  simp only [Except.map, Except.ok.injEq]
  apply List.filterMap_congr
  intro j hj
  have insideHere : j < t.size := by
    rcases List.mem_append.mp (List.mem_of_mem_drop hj) with hj | hj
    · exact Nat.lt_trans (earlier j hj) inside
    · rw [List.mem_singleton.mp hj]
      exact inside
  rw [node_eq insideHere, node_eq (Nat.lt_of_lt_of_le insideHere kept.size_le)]
  exact kept.move_eq j insideHere

/-- Different moves lead to different nodes. -/
theorem Linked.movesTo_inj (linked : t.Linked) (i : Nat) : ∀ {j : Nat} {moves : List Nat},
    i < t.size → j < t.size → t.movesTo i = .ok moves → t.movesTo j = .ok moves → i = j := by
  have last : ∀ {i : Nat} {moves : List Nat}, 0 < i → i < t.size → t.movesTo i = .ok moves →
      ∃ p m before, p < i ∧ (m, i) ∈ (t.node p).children ∧ t.movesTo p = .ok before ∧
        moves = before ++ [m] := by
    intro i moves pos inside path
    obtain ⟨p, m, lt, member⟩ := linked.parent i pos inside
    rw [linked.movesTo_child (Nat.lt_trans lt inside) member] at path
    cases outer : t.movesTo p with
    | error fault => simp [outer, Except.map] at path
    | ok before =>
        rw [outer] at path
        exact ⟨p, m, before, lt, member, outer, (Except.ok.inj path).symm⟩
  induction i using Nat.strongRecOn with
  | _ i ih =>
      intro j moves insideLeft insideRight left right
      rcases Nat.eq_zero_or_pos i with rfl | posLeft <;>
        rcases Nat.eq_zero_or_pos j with rfl | posRight
      · rfl
      · obtain ⟨_, _, _, _, _, _, same⟩ := last posRight insideRight right
        rw [same, linked.movesTo_root] at left
        simp at left
      · obtain ⟨_, _, _, _, _, _, same⟩ := last posLeft insideLeft left
        rw [same, linked.movesTo_root] at right
        simp at right
      · obtain ⟨p, m, before, lt, member, outer, same⟩ := last posLeft insideLeft left
        obtain ⟨q, n, before', lt', member', outer', same'⟩ := last posRight insideRight right
        obtain ⟨rfl, moved⟩ := List.append_inj' (same.symm.trans same') rfl
        obtain rfl : m = n := by simpa using moved
        have insideParent := Nat.lt_trans lt insideLeft
        obtain rfl := ih p lt insideParent (Nat.lt_trans lt' insideRight) outer outer'
        exact congrArg Prod.snd
          (List.inj_on_of_nodup_map (linked.distinct p insideParent) member member' rfl)

end Tree

/-- Among children with distinct moves each one is found behind its move. -/
theorem SearchNode.child?_of_mem {α : Type} {n : SearchNode α} {m c : Nat}
    (distinct : (n.children.map Prod.fst).Nodup) (member : (m, c) ∈ n.children) :
    n.child? m = some c := by
  have found : (n.children.find? fun entry => entry.1 == m).isSome := by
    rw [List.find?_isSome]
    exact ⟨(m, c), member, by simp⟩
  obtain ⟨entry, picked⟩ := Option.isSome_iff_exists.mp found
  have same : entry.1 = m := by simpa using List.find?_some picked
  have here : entry = (m, c) := List.inj_on_of_nodup_map distinct
    (List.mem_of_find?_eq_some picked) member same
  rw [child?, picked, here]
  rfl

end EGraphSearch
