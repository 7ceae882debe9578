import EGraphSearch.Proofs.EGraph.Drawing
import EGraphSearch.Proofs.EGraph.Tables
import EGraphSearch.Proofs.Random.Seeded

/-!
# Random e-graphs can be extracted

Whatever is drawn, the first node of every class refers to later classes only, so that each class is
at most as high as there are classes after it.  The remaining nodes may refer to any class and make
cycles, but no level rises by having another node.
-/

set_option autoImplicit false

namespace EGraphSearch

variable {ρ : Type}

namespace EGraph

open Label (position?)

/-! ## Names -/

theorem randomClassLabel_inj {k l : Nat}
    (same : (randomClassLabel k == randomClassLabel l) = true) : k = l := by
  rw [Label.beq_iff_key_eq] at same
  simp only [randomClassLabel, Label.key, Label.Key.text.injEq, String.append_right_inj] at same
  exact Nat.repr_injective same

/-- The digits of the class end at the underscore. -/
theorem randomNodeLabel_inj {k l i j : Nat}
    (same : (randomNodeLabel k i == randomNodeLabel l j) = true) : k = l ∧ i = j := by
  rw [Label.beq_iff_key_eq] at same
  simp only [randomNodeLabel, Label.key, Label.Key.text.injEq, String.append_assoc,
    String.append_right_inj] at same
  have digits : k.repr.toList ++ '_' :: i.repr.toList = l.repr.toList ++ '_' :: j.repr.toList := by
    simpa using congrArg String.toList same
  have absent : ∀ n : Nat, '_' ∉ n.repr.toList := by
    intro n
    rw [Nat.toList_repr]
    exact Nat.underscore_not_in_toDigits
  obtain ⟨front, -, back⟩ :=
    (List.append_cons_inj_of_notMem (absent k) (absent i)).mp digits
  exact ⟨Nat.repr_injective (String.toList_inj.mp front),
    Nat.repr_injective (String.toList_inj.mp back)⟩

/-! ## The records of a drawn table -/

namespace DrawnTable

variable {shape : RandomShape} {table : Table (List ENode)}

theorem known (drawn : DrawnTable shape table) {c : Nat} (inside : c < shape.numClasses.toNat) :
    ∃ e ∈ table, (e.1 == randomClassLabel c) = true := by
  have listed : c < table.length := by
    rw [drawn.length_eq]
    exact inside
  exact ⟨table[c], List.getElem_mem listed, by
    rw [(drawn.classes c listed).label_eq]
    exact beq_self_eq_true _⟩

theorem nodes_distinct (drawn : DrawnTable shape table) :
    (table.flatMap Prod.snd).Pairwise fun m n => (m.id == n.id) = false := by
  have apart : ∀ {k l i j : Nat} {m n : ENode}, DrawnNode shape k i m → DrawnNode shape l j n →
      ¬ (k = l ∧ i = j) → (m.id == n.id) = false := by
    rintro k l i j m n ⟨_, _, rfl⟩ ⟨_, _, rfl⟩ different
    exact Bool.eq_false_iff.mpr fun same => different (randomNodeLabel_inj same)
  rw [List.pairwise_flatMap]
  constructor
  · intro e member
    obtain ⟨k, inside, rfl⟩ := List.getElem_of_mem member
    rw [List.pairwise_iff_getElem]
    intro i j hi hj lt
    have nodes := (drawn.classes k inside).nodes
    exact apart (nodes i hi) (nodes j hj) (by omega)
  · rw [List.pairwise_iff_getElem]
    intro k l hk hl lt m hm n hn
    obtain ⟨i, hi, rfl⟩ := List.getElem_of_mem hm
    obtain ⟨j, hj, rfl⟩ := List.getElem_of_mem hn
    exact apart ((drawn.classes k hk).nodes i hi) ((drawn.classes l hl).nodes j hj) (by omega)

theorem fitting (drawn : DrawnTable shape table) (some_class : 1 ≤ shape.numClasses) :
    Fitting (recordedClasses table) (table.flatMap Prod.snd) (randomClassLabel 0) := by
  refine fitting_of_table ?_ drawn.nodes_distinct ?_ (drawn.known (by omega))
  · rw [List.pairwise_iff_getElem]
    intro k l hk hl lt
    rw [(drawn.classes k hk).label_eq, (drawn.classes l hl).label_eq]
    exact Bool.eq_false_iff.mpr fun same => absurd (randomClassLabel_inj same) (by omega)
  · intro n member child used
    obtain ⟨e, listed, here⟩ := List.mem_flatMap.mp member
    obtain ⟨k, hk, rfl⟩ := List.getElem_of_mem listed
    obtain ⟨j, hj, rfl⟩ := List.getElem_of_mem here
    obtain ⟨children, picked, record⟩ := (drawn.classes k hk).nodes j hj
    rw [record] at used
    obtain ⟨c, inside, rfl⟩ := List.mem_map.mp used
    exact drawn.known (picked.inside c inside)

end DrawnTable

/-! ## The e-graph of a drawn table -/

/-- The arena of a drawn table: the classes in order, and the nodes of each with the children that
were drawn for it. -/
structure Grown (shape : RandomShape) (a : Arena) : Prop where
  classIds_eq : a.classIds.toList = (List.range shape.numClasses.toNat).map randomClassLabel
  root_eq : a.root = 0
  size_pos : ∀ c < a.numClasses, 1 ≤ (a.membersOf c).length
  size_le : ∀ c < a.numClasses, ((a.membersOf c).length : Int) ≤ shape.maxNodes
  picked : ∀ c < a.numClasses, ∀ j (inside : j < (a.membersOf c).length),
    Picked shape c j (a.childrenOf (a.membersOf c)[j])

/-- What the generator promises of an e-graph of this shape. -/
structure Generated (shape : RandomShape) (g : EGraph) : Prop where
  accepted : g.Accepted
  classes : g.classIds.toList =
    (List.range shape.numClasses.toNat).map fun k => .text ("c" ++ toString k)
  root : g.rootLabel = .text "c0"
  nodes_distinct : g.nodeIds.toList.Pairwise fun x y => (x == y) = false
  size_pos : ∀ c < g.numClasses, 1 ≤ (g.membersOf c).length
  size_le : ∀ c < g.numClasses, ((g.membersOf c).length : Int) ≤ shape.maxNodes
  arity_le : ∀ n < g.numNodes, ((g.childrenOf n).length : Int) ≤ shape.maxArity + 1
  first_arity_le : ∀ c < g.numClasses, ∀ n ∈ (g.membersOf c).head?,
    ((g.childrenOf n).length : Int) ≤ shape.maxArity
  level_le : ∀ k : Nat, k < shape.numClasses → ∃ level : Nat,
    g.levelOf (.text ("c" ++ toString k)) = .ok (.finite level) ∧
      (level : Int) ≤ shape.numClasses - 1 - k
  extractable : ∀ k : Nat, k < shape.numClasses →
    g.isExtractable (.text ("c" ++ toString k)) = .ok true

section Grown

variable {shape : RandomShape} {a : Arena} {g : EGraph}

theorem classLabel_of_listed
    (listed : a.classIds.toList = (List.range shape.numClasses.toNat).map randomClassLabel)
    {c : Nat} (inside : c < shape.numClasses.toNat) : a.classLabel c = randomClassLabel c := by
  rw [Arena.classLabel, getD_eq_toList, listed]
  simp [inside]

theorem numClasses_of_listed
    (listed : a.classIds.toList = (List.range shape.numClasses.toNat).map randomClassLabel) :
    a.numClasses = shape.numClasses.toNat := by
  rw [Arena.numClasses, ← Array.length_toList, listed]
  simp

theorem Holds.picked {record : ENode} {k j n : Nat} (wf : a.WellFormed)
    (listed : a.classIds.toList = (List.range shape.numClasses.toNat).map randomClassLabel)
    (holds : Holds a record n) (drawn : DrawnNode shape k j record) :
    Picked shape k j (a.childrenOf n) := by
  obtain ⟨children, picked, rfl⟩ := drawn
  have position : ∀ c ∈ children, position? a.classIds (randomClassLabel c) = some c := by
    intro c member
    have below := picked.inside c member
    have label := classLabel_of_listed listed below
    rw [← numClasses_of_listed listed] at below
    refine Label.Distinct.position?_eq wf.classIds_distinct below ?_
    rw [Label.beq_iff_key_eq]
    exact congrArg Label.key label
  have same : (a.childrenOf n).map some = children.map some := by
    rw [← holds.children, List.map_map]
    exact List.map_congr_left position
  rwa [List.map_injective_iff.mpr (Option.some_injective _) same]

theorem DrawnTable.exists_grown {table : Table (List ENode)} (drawn : DrawnTable shape table)
    (some_class : 1 ≤ shape.numClasses) :
    ∃ a, arrange (recordedClasses table) (table.flatMap Prod.snd) (randomClassLabel 0) = .ok a ∧
      Grown shape a := by
  obtain ⟨a, arranged, classIds_eq, _, rooted⟩ := (drawn.fitting some_class).exists_arena
  have wf := arrange_wellFormed arranged
  have holds := (arrange_lists arranged).holdsTable wf
  have listed : a.classIds.toList =
      (List.range shape.numClasses.toNat).map randomClassLabel := by
    rw [classIds_eq, recordedClasses, List.map_map, ← drawn.length_eq]
    refine List.ext_getElem (by simp) fun c inside _ => ?_
    simp only [List.getElem_map, Function.comp_apply, List.getElem_range]
    exact (drawn.classes c (by simpa using inside)).label_eq
  have members : ∀ c (inside : c < table.length),
      table[c].2.length = (a.membersOf c).length := fun c inside =>
    (holds.members c inside).length_eq
  refine ⟨a, arranged, listed, ?_, fun c inside => ?_, fun c inside => ?_,
    fun c inside j hj => ?_⟩
  · rw [classLabel_of_listed listed (numClasses_of_listed listed ▸ wf.root_lt)] at rooted
    exact randomClassLabel_inj rooted
  · rw [holds.length_eq] at inside
    rw [← members c inside]
    exact (drawn.classes c inside).size_pos
  · rw [holds.length_eq] at inside
    rw [← members c inside]
    exact (drawn.classes c inside).size_le
  · rw [holds.length_eq] at inside
    have recorded : j < table[c].2.length := by
      rw [members c inside]
      exact hj
    have held := (holds.members c inside).get recorded hj
    exact held.picked wf listed ((drawn.classes c inside).nodes j recorded)

/-- If some node of every class refers to later classes only, no class is higher than there are
classes after it. -/
theorem Leveled.classLevel_le_of_forward (leveled : g.Leveled)
    (forward : ∀ c < g.numClasses, ∃ n ∈ g.membersOf c, ∀ d ∈ g.childrenOf n, c < d) :
    ∀ after c, c + after + 1 = g.numClasses → g.classLevel c ≤ .finite after := by
  have wf := leveled.wellFormed
  intro after
  induction after using Nat.strong_induction_on with
  | _ after ih =>
      intro c position
      have inside : c < g.numClasses := by omega
      obtain ⟨n, member, later⟩ := forward c inside
      have insideNode := wf.member_lt c inside n member
      have owner := (wf.member_iff c inside n insideNode).mp member
      have class_le : g.classLevel c ≤ g.nodeLevel n := owner ▸ leveled.classLevel_le insideNode
      refine class_le.trans ?_
      rw [leveled.nodeLevel_eq insideNode, Level.above_le_iff]
      intro level listed
      obtain ⟨d, used, rfl⟩ := List.mem_map.mp listed
      have beyond := later d used
      have insideChild := wf.child_lt n insideNode d used
      have child_le := ih (g.numClasses - 1 - d) (by omega) d (by omega)
      refine (Level.next_mono child_le).trans ?_
      rw [Level.next, Level.finite_le_finite]
      omega

theorem Grown.classLevel_le (grown : Grown shape g.toArena) (leveled : g.Leveled) {c : Nat}
    (inside : c < g.numClasses) : g.classLevel c ≤ .finite (g.numClasses - 1 - c) := by
  refine leveled.classLevel_le_of_forward (fun k known => ?_) _ c (by omega)
  have first := grown.size_pos k known
  exact ⟨_, List.getElem_mem first, (grown.picked k known 0 first).forward rfl⟩

theorem Grown.arity_le (grown : Grown shape g.toArena) (wf : g.toArena.WellFormed) {n : Nat}
    (inside : n < g.numNodes) : ((g.childrenOf n).length : Int) ≤ shape.maxArity + 1 := by
  have owner := wf.owner_lt n inside
  have member := (wf.member_iff _ owner n inside).mpr rfl
  obtain ⟨j, hj, at_j⟩ := List.getElem_of_mem member
  have picked := grown.picked _ owner j hj
  rw [at_j] at picked
  exact picked.arity_le

theorem Grown.levelOf (grown : Grown shape g.toArena) (accepted : g.Accepted) {k : Nat}
    (below : k < shape.numClasses) : ∃ level : Nat,
      g.levelOf (randomClassLabel k) = .ok (.finite level) ∧
        (level : Int) ≤ shape.numClasses - 1 - k := by
  have count := numClasses_of_listed grown.classIds_eq
  have inside : k < g.numClasses := by omega
  have label := classLabel_of_listed grown.classIds_eq (show k < shape.numClasses.toNat by omega)
  have found : g.classIndex (randomClassLabel k) = .ok k := by
    rw [classIndex, ← label,
      position?_classLabel accepted.wellFormed inside (beq_self_eq_true _)]
  have bound := grown.classLevel_le accepted.leveled inside
  cases height : g.classLevel k with
  | infinite =>
      rw [height] at bound
      exact absurd bound (Level.not_infinite_le_finite _)
  | finite level =>
      rw [height, Level.finite_le_finite] at bound
      refine ⟨level, ?_, by omega⟩
      rw [EGraph.levelOf, found, Except.map, height]

theorem Grown.generated (grown : Grown shape g.toArena) (accepted : g.Accepted) :
    Generated shape g := by
  have wf := accepted.wellFormed
  refine
    { accepted := accepted
      classes := grown.classIds_eq
      root := ?_
      nodes_distinct := wf.nodeIds_distinct
      size_pos := grown.size_pos
      size_le := grown.size_le
      arity_le := fun n inside => grown.arity_le wf inside
      first_arity_le := ?_
      level_le := fun k below => grown.levelOf accepted below
      extractable := ?_ }
  · have inside := wf.root_lt
    rw [numClasses_of_listed grown.classIds_eq] at inside
    rw [rootLabel, classLabel_of_listed grown.classIds_eq inside, grown.root_eq]
    rfl
  · intro c inside n first
    have some_member := grown.size_pos c inside
    rw [List.head?_eq_getElem?, List.getElem?_eq_getElem some_member] at first
    obtain rfl := Option.some.inj first
    exact (grown.picked c inside 0 some_member).first_arity_le rfl
  · intro k below
    obtain ⟨level, height, _⟩ := grown.levelOf accepted below
    rw [isExtractable]
    exact (congrArg (Except.map Level.isFinite) height).trans rfl

end Grown

/-- Whatever is drawn, an e-graph is generated, and every class of it can be extracted. -/
theorem random_graph_is_extractable [RangeDraws ρ] (shape : RandomShape)
    (some_class : 1 ≤ shape.numClasses) (some_node : 1 ≤ shape.maxNodes)
    (natural_arity : 0 ≤ shape.maxArity) (answered : shape.Answered ρ) (source : ρ) :
    ∃ g after, random shape source = .ok (g, after) ∧ Generated shape g := by
  obtain ⟨table, after, drew, drawn⟩ := yields_randomTable some_node natural_arity answered source
  obtain ⟨a, arranged, grown⟩ := drawn.exists_grown some_class
  have settled : EGraph.Leveled { a with levels := Levels.ofArena a } :=
    ⟨arrange_wellFormed arranged, rfl⟩
  have bound := Grown.classLevel_le grown settled settled.wellFormed.root_lt
  obtain ⟨height, finite⟩ : ∃ height, (Levels.ofArena a).classLevel a.root = .finite height := by
    cases level : (Levels.ofArena a).classLevel a.root with
    | finite height => exact ⟨height, rfl⟩
    | infinite =>
        have bound : (Levels.ofArena a).classLevel a.root ≤ _ := bound
        rw [level] at bound
        exact absurd bound (Level.not_infinite_le_finite _)
  have accepted : Accepted { a with levels := Levels.ofArena a } :=
    .of_arranged arranged rfl ⟨height, finite⟩
  refine ⟨_, after, ?_, Grown.generated grown accepted⟩
  have built : ofTable table (randomClassLabel 0) =
      .ok { a with levels := Levels.ofArena a } := by
    change build (recordedClasses table) (table.flatMap Prod.snd) (randomClassLabel 0) = _
    simp only [build, arranged, bind, Except.bind, ofArena, finite]
  simp only [random, drew, built]

/-- The graphs of a seed with the shape that experiments use. -/
theorem random_graph_is_extractable_seeded :
    RandomShape.Answered {} Pcg64 ∧ ∃ g after,
      random {} (Pcg64.ofWords (SeedMix.seedWords (SeedMix.words 0) [])) = .ok (g, after) ∧
        Generated {} g := by
  have answered : RandomShape.Answered {} Pcg64 :=
    RandomShape.answered_of_bounded Pcg64.bounded (by decide) (by decide) (by decide)
  exact ⟨answered,
    random_graph_is_extractable {} (by decide) (by decide) (by decide) answered _⟩

end EGraph

end EGraphSearch
