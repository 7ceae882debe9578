import EGraphSearch.Proofs.EGraph.Construction

/-!
# Records that fit together

Records fit together if names are distinct, references exist and every node is listed by exactly one
class.  Such records are never refused for their structure, in whatever order they are given.
-/

set_option autoImplicit false

namespace EGraphSearch.EGraph

open Label (position?)

structure Fitting (classes : List EClass) (nodes : List ENode) (root : Label) : Prop where
  classes_distinct : classes.Pairwise fun c d => (c.id == d.id) = false
  nodes_distinct : nodes.Pairwise fun m n => (m.id == n.id) = false
  child_known : ∀ n ∈ nodes, ∀ child ∈ n.children, ∃ c ∈ classes, (c.id == child) = true
  listed_known : ∀ c ∈ classes, ∀ label ∈ c.nodes, ∃ n ∈ nodes, (n.id == label) = true
  /-- No node is listed twice, be it by two classes or by one. -/
  listed_once : (classes.flatMap EClass.nodes).Pairwise fun x y => (x == y) = false
  listed : ∀ n ∈ nodes, ∃ label ∈ classes.flatMap EClass.nodes, (n.id == label) = true
  root_known : ∃ c ∈ classes, (c.id == root) = true

theorem exists_position {labels : Array Label} {label : Label}
    (known : ∃ x ∈ labels, (x == label) = true) : ∃ i, position? labels label = some i := by
  cases found : position? labels label with
  | some i => exact ⟨i, rfl⟩
  | none =>
      obtain ⟨x, member, same⟩ := known
      rw [Label.position?_eq_none_iff.mp found x member] at same
      exact absurd same (by simp)

theorem position?_ne_of_beq_false {labels : Array Label} {x y : Label} {i j : Nat}
    (apart : (x == y) = false) (hx : position? labels x = some i)
    (hy : position? labels y = some j) : i ≠ j := by
  rintro rfl
  have sameX := (Label.position?_eq_some hx).2
  have sameY := (Label.position?_eq_some hy).2
  rw [Label.beq_iff_key_eq] at sameX sameY
  exact (Label.beq_false_iff_key_ne x y).mp apart (sameX.symm.trans sameY)

/-! ## Numbering -/

theorem indexClasses_ok (classes : List EClass) : ∀ ids : Array Label,
    classes.Pairwise (fun c d => (c.id == d.id) = false) →
    (∀ x ∈ ids, ∀ c ∈ classes, (x == c.id) = false) →
    ∃ out, indexClasses classes ids = .ok out := by
  induction classes with
  | nil => intro ids _ _; exact ⟨ids, rfl⟩
  | cons c rest ih =>
      intro ids distinct fresh
      obtain ⟨apart, distinctRest⟩ := List.pairwise_cons.mp distinct
      have absent : position? ids c.id = none :=
        Label.position?_eq_none_iff.mpr fun x hx => fresh x hx c List.mem_cons_self
      have freshNext : ∀ x ∈ ids.push c.id, ∀ d ∈ rest, (x == d.id) = false := by
        intro x hx d hd
        rcases Array.mem_push.mp hx with hx | rfl
        · exact fresh x hx d (List.mem_cons_of_mem _ hd)
        · exact apart d hd
      obtain ⟨out, indexed⟩ := ih _ distinctRest freshNext
      exact ⟨out, by simp only [indexClasses, absent, indexed]⟩

theorem resolveChildren_ok (classIds : Array Label) (node : Label) (labels : List Label)
    (known : ∀ child ∈ labels, ∃ c, position? classIds child = some c) :
    ∃ children, resolveChildren classIds node labels = .ok children := by
  induction labels with
  | nil => exact ⟨[], rfl⟩
  | cons child rest ih =>
      obtain ⟨c, found⟩ := known child List.mem_cons_self
      obtain ⟨children, resolved⟩ := ih fun d hd => known d (List.mem_cons_of_mem _ hd)
      exact ⟨c :: children, by simp only [resolveChildren, found, resolved, Except.map]⟩

theorem indexNodes_ok (classIds : Array Label) (nodes : List ENode)
    (known : ∀ n ∈ nodes, ∀ child ∈ n.children, ∃ c, position? classIds child = some c) :
    ∀ index : NodeIndex, nodes.Pairwise (fun m n => (m.id == n.id) = false) →
      (∀ x ∈ index.ids, ∀ n ∈ nodes, (x == n.id) = false) →
      ∃ out, indexNodes classIds nodes index = .ok out := by
  induction nodes with
  | nil => intro index _ _; exact ⟨index, rfl⟩
  | cons n rest ih =>
      intro index distinct fresh
      obtain ⟨apart, distinctRest⟩ := List.pairwise_cons.mp distinct
      have absent : position? index.ids n.id = none :=
        Label.position?_eq_none_iff.mpr fun x hx => fresh x hx n List.mem_cons_self
      obtain ⟨children, resolved⟩ :=
        resolveChildren_ok classIds n.id n.children (known n List.mem_cons_self)
      have freshNext : ∀ x ∈ index.ids.push n.id, ∀ m ∈ rest, (x == m.id) = false := by
        intro x hx m hm
        rcases Array.mem_push.mp hx with hx | rfl
        · exact fresh x hx m (List.mem_cons_of_mem _ hm)
        · exact apart m hm
      obtain ⟨out, indexed⟩ := ih (fun m hm => known m (List.mem_cons_of_mem _ hm))
        ⟨index.ids.push n.id, index.ops.push n.op, index.children.push children⟩ distinctRest
        freshNext
      exact ⟨out, by simp only [indexNodes, absent, resolved, indexed]⟩

/-! ## Handing out the nodes -/

theorem claimMembers_ok (nodeIds : Array Label) (cls : Label) (c : Nat) (labels : List Label) :
    ∀ {owner : Array (Option Nat)}, labels.Pairwise (fun x y => (x == y) = false) →
      (∀ label ∈ labels, ∃ n, position? nodeIds label = some n ∧ owner.getD n none = none) →
      ∃ own after, claimMembers nodeIds cls c labels owner = .ok (own, after) := by
  induction labels with
  | nil => intro owner _ _; exact ⟨[], owner, rfl⟩
  | cons label rest ih =>
      intro owner distinct free
      obtain ⟨apart, distinctRest⟩ := List.pairwise_cons.mp distinct
      obtain ⟨n, found, freeHere⟩ := free label List.mem_cons_self
      have freeRest : ∀ other ∈ rest, ∃ m, position? nodeIds other = some m ∧
          (owner.setIfInBounds n (some c)).getD m none = none := by
        intro other member
        obtain ⟨m, foundOther, freeOther⟩ := free other (List.mem_cons_of_mem _ member)
        have ne := position?_ne_of_beq_false (apart other member) found foundOther
        refine ⟨m, foundOther, ?_⟩
        rw [Array.getD_eq_getD_getElem?, Array.getElem?_setIfInBounds_ne ne,
          ← Array.getD_eq_getD_getElem?, freeOther]
      obtain ⟨own, after, claimed⟩ := ih distinctRest freeRest
      exact ⟨n :: own, after, by simp only [claimMembers, found, freeHere, claimed]⟩

theorem claimAll_ok (nodeIds : Array Label) (classes : List EClass) :
    ∀ (c : Nat) (owner : Array (Option Nat)) (members : Array (List Nat)),
      owner.size = nodeIds.size →
      (classes.flatMap EClass.nodes).Pairwise (fun x y => (x == y) = false) →
      (∀ label ∈ classes.flatMap EClass.nodes,
        ∃ n, position? nodeIds label = some n ∧ owner.getD n none = none) →
      ∃ out after, claimAll nodeIds classes c owner members = .ok (out, after) ∧
        (∀ n, (owner.getD n none).isSome → (after.getD n none).isSome) ∧
        ∀ label ∈ classes.flatMap EClass.nodes, ∀ n, position? nodeIds label = some n →
          (after.getD n none).isSome := by
  induction classes with
  | nil => intro c owner members _ _ _; exact ⟨members, owner, rfl, fun _ owned => owned, by simp⟩
  | cons cls rest ih =>
      intro c owner members sizes distinct free
      rw [List.flatMap_cons] at distinct free
      obtain ⟨distinctHere, distinctRest, apart⟩ := List.pairwise_append.mp distinct
      obtain ⟨own, next, claimed⟩ := claimMembers_ok nodeIds cls.id c cls.nodes
        distinctHere fun label member => free label (List.mem_append_left _ member)
      have positions := claimMembers_positions nodeIds cls.id c cls.nodes claimed
      obtain ⟨size, _, claims, keeps⟩ := claimMembers_spec nodeIds cls.id c cls.nodes claimed sizes
      have mem_own : ∀ n, n ∈ own ↔ ∃ label ∈ cls.nodes, position? nodeIds label = some n := by
        intro n
        have : n ∈ own ↔ some n ∈ own.map some := by simp
        rw [this, ← positions, List.mem_map]
      have freeRest : ∀ label ∈ rest.flatMap EClass.nodes,
          ∃ n, position? nodeIds label = some n ∧ next.getD n none = none := by
        intro label member
        obtain ⟨n, found, freeHere⟩ := free label (List.mem_append_right _ member)
        refine ⟨n, found, ?_⟩
        rw [keeps n, freeHere]
        intro taken
        obtain ⟨other, listed, foundOther⟩ := (mem_own n).mp taken
        exact position?_ne_of_beq_false (apart other listed label member) foundOther found rfl
      have owned : ∀ n, (owner.getD n none).isSome → (next.getD n none).isSome := by
        intro n before
        by_cases taken : n ∈ own
        · simp [(claims n taken).2.2]
        · rwa [keeps n taken]
      obtain ⟨out, after, claimedRest, stays, covers⟩ :=
        ih (c + 1) next (members.push own) (size.trans sizes) distinctRest freeRest
      refine ⟨out, after, by simp only [claimAll, claimed, claimedRest],
        fun n before => stays n (owned n before), ?_⟩
      intro label member n found
      rw [List.flatMap_cons] at member
      rcases List.mem_append.mp member with here | later
      · have taken := (mem_own n).mpr ⟨label, here, found⟩
        exact stays n (by simp [(claims n taken).2.2])
      · exact covers label later n found

theorem unowned_nil {nodeIds : Array Label} {owner : Array (Option Nat)}
    (owned : ∀ n < nodeIds.size, (owner.getD n none).isSome) : unowned nodeIds owner = [] := by
  simp only [unowned, List.map_eq_nil_iff, List.filter_eq_nil_iff, List.mem_range]
  intro n inside
  simpa [Option.isSome_iff_ne_none] using owned n inside

/-! ## The arena of fitting records -/

section Arrange

variable {classes : List EClass} {nodes : List ENode} {root : Label}

/-- The arena numbers the classes and the nodes in the order in which they are given. -/
theorem Fitting.exists_arena (fitting : Fitting classes nodes root) :
    ∃ a, arrange classes nodes root = .ok a ∧ a.classIds.toList = classes.map EClass.id ∧
      a.nodeIds.toList = nodes.map ENode.id ∧ (a.classLabel a.root == root) = true := by
  obtain ⟨classIds, indexedClasses⟩ :=
    indexClasses_ok classes #[] fitting.classes_distinct (by simp)
  have classList := indexClasses_listed classes indexedClasses
  have mem_classIds : ∀ x, x ∈ classIds ↔ ∃ c ∈ classes, c.id = x := by
    intro x
    rw [← Array.mem_toList_iff, classList]
    simp
  have known : ∀ label, (∃ c ∈ classes, (c.id == label) = true) →
      ∃ i, position? classIds label = some i := by
    rintro label ⟨c, member, same⟩
    exact exists_position ⟨c.id, (mem_classIds _).mpr ⟨c, member, rfl⟩, same⟩
  obtain ⟨index, indexedNodes⟩ := indexNodes_ok classIds nodes
    (fun n hn child hc => known child (fitting.child_known n hn child hc)) {}
    fitting.nodes_distinct (by simp)
  have nodeList := (indexNodes_listed classIds nodes indexedNodes).1
  have mem_nodeIds : ∀ x, x ∈ index.ids ↔ ∃ n ∈ nodes, n.id = x := by
    intro x
    rw [← Array.mem_toList_iff, nodeList]
    simp
  have free : ∀ label ∈ classes.flatMap EClass.nodes, ∃ n, position? index.ids label = some n ∧
      (Array.replicate index.ids.size (none : Option Nat)).getD n none = none := by
    intro label member
    obtain ⟨c, listed, here⟩ := List.mem_flatMap.mp member
    obtain ⟨n, hn, same⟩ := fitting.listed_known c listed label here
    obtain ⟨i, found⟩ := exists_position ⟨n.id, (mem_nodeIds _).mpr ⟨n, hn, rfl⟩, same⟩
    have inside := (Label.position?_eq_some found).1
    exact ⟨i, found, by simp [Array.getD, inside]⟩
  obtain ⟨members, owner, claimed, _, covers⟩ := claimAll_ok index.ids classes 0
    (Array.replicate index.ids.size none) #[] (by simp) fitting.listed_once free
  have noOrphans : unowned index.ids owner = [] := by
    apply unowned_nil
    intro i inside
    obtain ⟨n, hn, same⟩ := (mem_nodeIds index.ids[i]).mp (Array.getElem_mem inside)
    obtain ⟨label, member, listed⟩ := fitting.listed n hn
    have sound := indexNodes_sound classIds nodes indexedNodes
      ⟨rfl, rfl, by simp, Label.distinct_empty⟩
    refine covers label member i (sound.distinct.position?_eq inside ?_)
    simpa [Array.getD, inside, same] using listed
  obtain ⟨r, foundRoot⟩ := known root fitting.root_known
  obtain ⟨a, arranged⟩ : ∃ a, arrange classes nodes root = .ok a :=
    ⟨_, by simp [arrange, indexedClasses, indexedNodes, claimed, noOrphans, foundRoot, bind,
      Except.bind, pure, Except.pure]; rfl⟩
  have lists := arrange_lists arranged
  exact ⟨a, arranged, lists.classIds_eq, lists.nodeIds_eq,
    (Label.position?_eq_some lists.root_found).2⟩

end Arrange

end EGraphSearch.EGraph
