import EGraphSearch.Proofs.Tree.Choosing
import EGraphSearch.Proofs.Tree.Links

/-!
# Following the most visited children

The node that a greedy descent arrives at determines the way it took: the path from the root to that
node, on which no two nodes hang from the same one.
-/

set_option autoImplicit false

namespace EGraphSearch

namespace Tree

variable {α : Type} [Scalar α] {tree : Tree α}

/-! ## Paths in a linked tree -/

/-- What is on the path to a node: with a node its parent, and no two children of one node. -/
structure PathSpec (tree : Tree α) (i : Nat) (path : List Nat) : Prop where
  path_eq : tree.pathFromRoot i = .ok path
  last : i ∈ path
  le : ∀ c ∈ path, c ≤ i
  closed : ∀ c ∈ path, ∀ p, (tree.node c).parent = some p → p ∈ path
  only : ∀ c ∈ path, ∀ d ∈ path, ∀ p, (tree.node c).parent = some p →
    (tree.node d).parent = some p → d = c

theorem PathSpec.child (linked : tree.Linked) {p m c : Nat} {path : List Nat}
    (spec : tree.PathSpec p path) (inside : p < tree.size)
    (member : (m, c) ∈ (tree.node p).children) : tree.PathSpec c (path ++ [c]) := by
  obtain ⟨lt, _, parent, _⟩ := linked.child p inside m c member
  have below : ∀ d ∈ path, d < c := fun d hd => Nat.lt_of_le_of_lt (spec.le d hd) lt
  refine ⟨?_, by simp, ?_, ?_, ?_⟩
  · rw [linked.pathFromRoot_child inside member, spec.path_eq]
    rfl
  · intro d hd
    rcases List.mem_append.mp hd with hd | hd
    · exact Nat.le_of_lt (below d hd)
    · exact Nat.le_of_eq (List.mem_singleton.mp hd)
  · intro d hd q parentD
    rcases List.mem_append.mp hd with hd | hd
    · exact List.mem_append_left _ (spec.closed d hd q parentD)
    · rw [List.mem_singleton.mp hd, parent] at parentD
      cases parentD
      exact List.mem_append_left _ spec.last
  -- A second child of the same node would be on the path to that node, and so before it.
  · have twice : ∀ d ∈ path, (tree.node d).parent ≠ some p := by
      intro d hd parentD
      rcases Nat.eq_zero_or_pos d with rfl | pos
      · simp [linked.root_parent] at parentD
      · have insideD : d < tree.size := Nat.lt_of_le_of_lt (spec.le d hd) inside
        obtain ⟨q, _, ltD, memberD⟩ := linked.parent d pos insideD
        have parentD' := (linked.child q (Nat.lt_trans ltD insideD) _ d memberD).2.2.1
        cases parentD.symm.trans parentD'
        exact absurd (spec.le d hd) (Nat.not_le.mpr ltD)
    intro d hd e he q parentD parentE
    rcases List.mem_append.mp hd with hd | hd <;> rcases List.mem_append.mp he with he | he
    · exact spec.only d hd e he q parentD parentE
    · rw [List.mem_singleton.mp he, parent] at parentE
      exact absurd (parentE ▸ parentD) (twice d hd)
    · rw [List.mem_singleton.mp hd, parent] at parentD
      exact absurd (parentD ▸ parentE) (twice e he)
    · rw [List.mem_singleton.mp hd, List.mem_singleton.mp he]

theorem Linked.pathSpec (linked : tree.Linked) (i : Nat) (inside : i < tree.size) :
    ∃ path, tree.PathSpec i path := by
  induction i using Nat.strongRecOn with
  | _ i ih =>
      rcases Nat.eq_zero_or_pos i with rfl | pos
      · refine ⟨[0], linked.pathFromRoot_root, by simp, by simp, ?_, ?_⟩
        · intro c hc p parent
          rw [List.mem_singleton.mp hc, linked.root_parent] at parent
          simp at parent
        · intro c hc d hd _ _ _
          rw [List.mem_singleton.mp hc, List.mem_singleton.mp hd]
      · obtain ⟨p, m, lt, member⟩ := linked.parent i pos inside
        obtain ⟨path, spec⟩ := ih p lt (Nat.lt_trans lt inside)
        exact ⟨_, spec.child linked (Nat.lt_trans lt inside) member⟩

/-! ## Following the most visited children -/

inductive Follows (tree : Tree α) (skipDeadEnds : Bool) : Nat → Prop
  | root : Follows tree skipDeadEnds 0
  | child {i move c : Nat} (above : Follows tree skipDeadEnds i)
      (picked : tree.mostVisited i skipDeadEnds = .ok (some (move, c))) :
      Follows tree skipDeadEnds c

variable {skip : Bool} {i c move : Nat}

theorem inside_of_mostVisited {entry : Option (Nat × Nat)}
    (picked : tree.mostVisited i skip = .ok entry) : i < tree.size := by
  by_contra outside
  have absent : tree.nodes[i]? = none := Array.getElem?_eq_none (Nat.not_lt.mp outside)
  simp [mostVisited, get, absent, Except.map] at picked

theorem child_of_mostVisited (linked : tree.Linked)
    (picked : tree.mostVisited i skip = .ok (some (move, c))) :
    (move, c) ∈ (tree.node i).children ∧ i < c ∧ c < tree.size ∧
      (tree.node c).parent = some i ∧ (tree.node c).move = some move := by
  have inside := inside_of_mostVisited picked
  have member := member_of_mostVisited inside picked
  exact ⟨member, linked.child i inside move c member⟩

theorem Follows.lt (linked : tree.Linked) (follows : tree.Follows skip i) : i < tree.size := by
  cases follows with
  | root => exact linked.nonempty
  | child _ picked => exact (child_of_mostVisited linked picked).2.2.1

theorem Follows.picks (linked : tree.Linked) (follows : tree.Follows skip i) {path : List Nat}
    (spec : tree.PathSpec i path) : ∀ j ∈ path, j ≠ i → ∃ move c, c ∈ path ∧
      tree.mostVisited j skip = .ok (some (move, c)) := by
  induction follows generalizing path with
  | root =>
      intro j hj apart
      exact absurd (Nat.le_zero.mp (spec.le j hj)) apart
  | @child i move c above picked ih =>
      obtain ⟨member, lt, _⟩ := child_of_mostVisited linked picked
      have inside := above.lt linked
      obtain ⟨path', spec'⟩ := linked.pathSpec i inside
      obtain rfl : path = path' ++ [c] :=
        Except.ok.inj (spec.path_eq.symm.trans (spec'.child linked inside member).path_eq)
      intro j hj apart
      have onPath : j ∈ path' := (List.mem_append.mp hj).resolve_right (by simpa using apart)
      rcases Nat.eq_or_lt_of_le (spec'.le j onPath) with rfl | before
      · exact ⟨move, c, by simp, picked⟩
      · obtain ⟨move', c', listed, picked'⟩ := ih spec' j onPath (Nat.ne_of_lt before)
        exact ⟨move', c', List.mem_append_left _ listed, picked'⟩

/-- A followed node is followed by another rule as well, exactly if the rules agree above it. -/
theorem Follows.iff_agree (linked : tree.Linked) {other : Bool} (follows : tree.Follows skip i)
    {path : List Nat} (spec : tree.PathSpec i path) : tree.Follows other i ↔
      ∀ j ∈ path, j ≠ i → tree.mostVisited j other = tree.mostVisited j skip := by
  constructor
  · intro follows' j hj apart
    obtain ⟨move, c, listed, picked⟩ := follows.picks linked spec j hj apart
    obtain ⟨move', c', listed', picked'⟩ := follows'.picks linked spec j hj apart
    obtain ⟨_, _, _, parent, moved⟩ := child_of_mostVisited linked picked
    obtain ⟨_, _, _, parent', moved'⟩ := child_of_mostVisited linked picked'
    obtain rfl := spec.only c listed c' listed' j parent parent'
    obtain rfl := Option.some.inj (moved.symm.trans moved')
    rw [picked, picked']
  · intro agree
    induction follows generalizing path with
    | root => exact .root
    | @child i move c above picked ih =>
        obtain ⟨member, lt, _⟩ := child_of_mostVisited linked picked
        have inside := above.lt linked
        obtain ⟨path', spec'⟩ := linked.pathSpec i inside
        obtain rfl : path = path' ++ [c] :=
          Except.ok.inj (spec.path_eq.symm.trans (spec'.child linked inside member).path_eq)
        have earlier : ∀ j ∈ path', j ≠ c := fun j hj =>
          Nat.ne_of_lt (Nat.lt_of_le_of_lt (spec'.le j hj) lt)
        have picked' : tree.mostVisited i other = .ok (some (move, c)) := by
          rw [agree i (List.mem_append_left _ spec'.last) (earlier i spec'.last), picked]
        exact .child (ih spec' fun j hj _ => agree j (List.mem_append_left _ hj) (earlier j hj))
          picked'

/-- A node that is followed when dead ends are skipped is followed anyway, unless the descent leaves
the path above a dead end that has as many visits as the child on the path. -/
theorem Follows.or_departs (linked : tree.Linked) (follows : tree.Follows true i) {path : List Nat}
    (spec : tree.PathSpec i path) : tree.Follows false i ∨
      ∃ j ∈ path, tree.Follows false j ∧ ∃ move c, c ∈ path ∧
        tree.mostVisited j true = .ok (some (move, c)) ∧
        tree.mostVisited j false ≠ .ok (some (move, c)) ∧
        ∃ dead ∈ (tree.node j).children, (tree.node dead.2).status = .deadEnd ∧
          (tree.node c).visits ≤ (tree.node dead.2).visits := by
  induction follows generalizing path with
  | root => exact .inl .root
  | @child i move c above picked ih =>
      obtain ⟨member, lt, _⟩ := child_of_mostVisited linked picked
      have inside := above.lt linked
      obtain ⟨path', spec'⟩ := linked.pathSpec i inside
      obtain rfl : path = path' ++ [c] :=
        Except.ok.inj (spec.path_eq.symm.trans (spec'.child linked inside member).path_eq)
      rcases ih spec' with follows | ⟨j, onPath, follows, move', c', listed, departs⟩
      · by_cases same : tree.mostVisited i false = .ok (some (move, c))
        · exact .inl (.child follows same)
        · refine .inr ⟨i, List.mem_append_left _ spec'.last, follows, move, c, by simp, picked,
            same, ?_⟩
          by_contra none_
          refine same ((mostVisited_agree inside picked fun other child dead => ?_).trans picked)
          by_contra busy
          exact none_ ⟨other, child, dead, Nat.not_lt.mp busy⟩
      · exact .inr ⟨j, List.mem_append_left _ onPath, follows, move', c',
          List.mem_append_left _ listed, departs⟩

end Tree

end EGraphSearch
