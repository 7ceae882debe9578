import EGraphSearch.EGraph.Reachable
import EGraphSearch.Proofs.EGraph.Matching
import EGraphSearch.Proofs.EGraph.Records
import EGraphSearch.Proofs.Term.Picks

/-!
# Tables and e-graphs

An e-graph written out as a table and read back is the same e-graph, although its nodes are numbered
class by class now, whatever their order was.  The classes keep their numbers, and so every question
by name has the same answer.
-/

set_option autoImplicit false

namespace EGraphSearch

open Label (position?)

namespace EGraph

variable {g g' : EGraph} {a : Arena}

/-! ## What an arena holds -/

structure Holds (a : Arena) (record : ENode) (n : Nat) : Prop where
  lt : n < a.numNodes
  id_eq : a.nodeLabel n = record.id
  op_eq : a.opOf n = record.op
  children : record.children.map (position? a.classIds) = (a.childrenOf n).map some

section Lists

variable {classes : List EClass} {nodes : List ENode} {root : Label}

theorem getD_eq_toList {α : Type} (xs : Array α) (i : Nat) (default : α) :
    xs.getD i default = xs.toList.getD i default := by
  simp [Array.getD_eq_getD_getElem?]

theorem Lists.holds (lists : Lists a classes nodes root) (wf : a.WellFormed) {record : ENode}
    (member : record ∈ nodes) {n : Nat} (found : position? a.nodeIds record.id = some n) :
    Holds a record n := by
  obtain ⟨i, inside, rfl⟩ := List.getElem_of_mem member
  have lt : i < a.numNodes := by
    rw [Arena.numNodes, ← Array.length_toList, lists.nodeIds_eq, List.length_map]
    exact inside
  have label : a.nodeLabel i = nodes[i].id := by
    rw [Arena.nodeLabel, getD_eq_toList, lists.nodeIds_eq]
    simp [inside]
  have here : position? a.nodeIds nodes[i].id = some i :=
    Label.Distinct.position?_eq wf.nodeIds_distinct lt (by
      rw [Label.beq_iff_key_eq]
      exact congrArg Label.key label)
  obtain rfl : i = n := Option.some.inj (here.symm.trans found)
  refine ⟨lt, label, ?_, forall₂_getD lists.children inside []⟩
  rw [Arena.opOf, getD_eq_toList, lists.ops_eq]
  simp [inside]

theorem Lists.holds_all (lists : Lists a classes nodes root) (wf : a.WellFormed)
    (records : List ENode) : ∀ {own : List Nat}, records ⊆ nodes →
      (records.map ENode.id).map (position? a.nodeIds) = own.map some →
      List.Forall₂ (Holds a) records own := by
  induction records with
  | nil =>
      intro own _ positions
      obtain rfl : own = [] := by simpa using positions.symm
      exact .nil
  | cons record rest ih =>
      intro own sub positions
      obtain ⟨first, sub⟩ := List.cons_subset.mp sub
      cases own with
      | nil => simp at positions
      | cons n tail =>
          obtain ⟨found, positions⟩ := List.cons.inj positions
          exact .cons (lists.holds wf first found) (ih sub positions)

end Lists

/-! ## From a table to an e-graph -/

def recordedClasses (table : Table (List ENode)) : List EClass :=
  table.map fun (id, nodes) => ⟨id, nodes.map ENode.id⟩

/-- The entries of a table, as an arena holds them. -/
structure HoldsTable (a : Arena) (table : Table (List ENode)) : Prop where
  length_eq : a.numClasses = table.length
  classLabel_eq : ∀ c (inside : c < table.length), a.classLabel c = table[c].1
  members : ∀ c (inside : c < table.length),
    List.Forall₂ (Holds a) table[c].2 (a.membersOf c)

theorem Lists.holdsTable {table : Table (List ENode)} {root : Label} (wf : a.WellFormed)
    (lists : Lists a (recordedClasses table) (table.flatMap Prod.snd) root) :
    HoldsTable a table := by
  have length : a.numClasses = table.length := by
    rw [Arena.numClasses, ← Array.length_toList, lists.classIds_eq, List.length_map,
      recordedClasses, List.length_map]
  refine ⟨length, fun c inside => ?_, fun c inside => ?_⟩
  · rw [Arena.classLabel, getD_eq_toList, lists.classIds_eq, recordedClasses]
    simp [inside]
  · refine lists.holds_all wf _ (fun record member => ?_) ?_
    · exact List.mem_flatMap.mpr ⟨table[c], List.getElem_mem inside, member⟩
    · have listed : c < (recordedClasses table).length := by simpa [recordedClasses] using inside
      have own := forall₂_getD lists.members listed []
      simp only [Claims, recordedClasses, List.getElem_map] at own
      exact own

theorem recordedClasses_nodes_eq (table : Table (List ENode)) :
    (recordedClasses table).flatMap EClass.nodes = (table.flatMap Prod.snd).map ENode.id := by
  rw [recordedClasses, List.flatMap_map, List.map_flatMap]

/-- The records of a table fit together if their names are distinct and the classes that they refer
to are in the table. -/
theorem fitting_of_table {table : Table (List ENode)} {root : Label}
    (classes_distinct : table.Pairwise fun e f => (e.1 == f.1) = false)
    (nodes_distinct : (table.flatMap Prod.snd).Pairwise fun m n => (m.id == n.id) = false)
    (child_known : ∀ n ∈ table.flatMap Prod.snd, ∀ child ∈ n.children,
      ∃ e ∈ table, (e.1 == child) = true)
    (root_known : ∃ e ∈ table, (e.1 == root) = true) :
    Fitting (recordedClasses table) (table.flatMap Prod.snd) root := by
  have recorded : ∀ {label : Label}, (∃ e ∈ table, (e.1 == label) = true) →
      ∃ c ∈ recordedClasses table, (c.id == label) = true := by
    rintro label ⟨e, member, same⟩
    exact ⟨⟨e.1, e.2.map ENode.id⟩, List.mem_map.mpr ⟨e, member, rfl⟩, same⟩
  refine
    { classes_distinct := List.pairwise_map.mpr classes_distinct
      nodes_distinct := nodes_distinct
      child_known := fun n member child used => recorded (child_known n member child used)
      listed_known := ?_
      listed_once := ?_
      listed := ?_
      root_known := recorded root_known }
  · intro cls member label listed
    have label_listed := List.mem_flatMap.mpr ⟨cls, member, listed⟩
    rw [recordedClasses_nodes_eq] at label_listed
    obtain ⟨n, here, rfl⟩ := List.mem_map.mp label_listed
    exact ⟨n, here, beq_self_eq_true _⟩
  · rw [recordedClasses_nodes_eq]
    exact List.pairwise_map.mpr nodes_distinct
  · intro n member
    rw [recordedClasses_nodes_eq]
    exact ⟨n.id, List.mem_map_of_mem member, beq_self_eq_true _⟩

/-- Equality of node records up to the spelling of the children. -/
structure Alike (m n : ENode) : Prop where
  id_eq : m.id = n.id
  op_eq : m.op = n.op
  children : List.Forall₂ (fun x y => (x == y) = true) m.children n.children

/-- Equality of tables entry by entry, up to the spelling of the children. -/
def AlikeTables (t u : Table (List ENode)) : Prop :=
  List.Forall₂ (fun e f => e.1 = f.1 ∧ List.Forall₂ Alike e.2 f.2) t u

theorem Holds.alike {record : ENode} {n : Nat} (holds : Holds g.toArena record n) :
    Alike (g.nodeRecord n) record := by
  refine ⟨holds.id_eq, holds.op_eq, ?_⟩
  have children := holds.children
  rw [← List.forall₂_eq_eq_eq, List.forall₂_map_left_iff, List.forall₂_map_right_iff] at children
  rw [nodeRecord, List.forall₂_map_left_iff]
  exact (List.Forall₂.flip children).imp fun c label found => (Label.position?_eq_some found).2

theorem HoldsTable.alike {table : Table (List ENode)} (holds : HoldsTable g.toArena table) :
    AlikeTables g.toTable table := by
  refine List.forall₂_iff_get.mpr ⟨by simp [toTable, holds.length_eq], ?_⟩
  intro c inside insideTable
  simp only [toTable, List.get_eq_getElem, List.getElem_map, List.getElem_range]
  refine ⟨holds.classLabel_eq c insideTable, ?_⟩
  rw [List.forall₂_map_left_iff]
  exact (holds.members c insideTable).flip.imp fun n record held => held.alike

theorem toTable_of_ofTable {table : Table (List ENode)} {root : Label}
    (read : ofTable table root = .ok g) :
    AlikeTables g.toTable table ∧ (g.rootLabel == root) = true := by
  simp only [ofTable, build, bind, Except.bind] at read
  split at read
  · simp at read
  · rename_i a arranged
    obtain ⟨rfl, _⟩ := ofArena_spec read
    have lists := arrange_lists arranged
    exact ⟨(lists.holdsTable (arrange_wellFormed arranged)).alike,
      (Label.position?_eq_some lists.root_found).2⟩

/-! ## From an e-graph to its table and back -/

structure Counterpart (g g' : EGraph) (n n' : Nat) : Prop where
  label_eq : g'.nodeLabel n' = g.nodeLabel n
  op_eq : g'.opOf n' = g.opOf n
  children_eq : g'.childrenOf n' = g.childrenOf n

/-- The same classes under the same numbers, with the same members under other numbers. -/
structure Renumbered (g g' : EGraph) : Prop where
  classIds_eq : g'.classIds = g.classIds
  root_eq : g'.root = g.root
  members : ∀ c, List.Forall₂ (Counterpart g g') (g.membersOf c) (g'.membersOf c)

def tabulated (g : EGraph) : List Nat := (List.range g.numClasses).flatMap g.membersOf

theorem toTable_nodes : g.toTable.flatMap Prod.snd = g.tabulated.map g.nodeRecord := by
  rw [toTable, List.flatMap_map, tabulated, List.map_flatMap]

theorem mem_tabulated (wf : g.toArena.WellFormed) {n : Nat} :
    n ∈ g.tabulated ↔ n < g.numNodes := by
  rw [tabulated, List.mem_flatMap]
  constructor
  · rintro ⟨c, inside, member⟩
    exact wf.member_lt c (List.mem_range.mp inside) n member
  · intro inside
    have owner := wf.owner_lt n inside
    exact ⟨g.ownerOf n, List.mem_range.mpr owner, (wf.member_iff _ owner n inside).mpr rfl⟩

theorem nodup_tabulated (wf : g.toArena.WellFormed) : g.tabulated.Nodup := by
  refine List.nodup_flatMap.mpr ⟨fun c inside => wf.members_nodup c (List.mem_range.mp inside), ?_⟩
  refine List.nodup_range.imp_of_mem fun {c d} first second apart n here there => apart ?_
  have insideC := List.mem_range.mp first
  have inside := wf.member_lt c insideC n here
  exact ((wf.member_iff c insideC n inside).mp here).symm.trans
    ((wf.member_iff d (List.mem_range.mp second) n inside).mp there)

theorem fitting_toTable (wf : g.toArena.WellFormed) :
    Fitting (recordedClasses g.toTable) (g.toTable.flatMap Prod.snd) g.rootLabel := by
  have known : ∀ c < g.numClasses, ∃ e ∈ g.toTable, (e.1 == g.classLabel c) = true :=
    fun c inside => ⟨_, List.mem_map_of_mem (List.mem_range.mpr inside), beq_self_eq_true _⟩
  refine fitting_of_table ?_ ?_ ?_ (known g.root wf.root_lt)
  · rw [toTable, List.pairwise_map]
    refine List.nodup_range.imp_of_mem fun {c d} first second apart => ?_
    rw [Label.beq_false_iff_key_ne]
    exact fun same => apart
      (classLabel_inj wf (List.mem_range.mp first) (List.mem_range.mp second) same)
  · rw [toTable_nodes, List.pairwise_map]
    refine (nodup_tabulated wf).imp_of_mem fun {m n} first second apart => ?_
    rw [Label.beq_false_iff_key_ne]
    exact fun same => apart (Label.Distinct.eq_of_beq wf.nodeIds_distinct
      ((mem_tabulated wf).mp first) ((mem_tabulated wf).mp second)
      ((Label.beq_iff_key_eq _ _).mpr same))
  · intro record member child listed
    rw [toTable_nodes] at member
    obtain ⟨n, here, rfl⟩ := List.mem_map.mp member
    obtain ⟨c, used, rfl⟩ := List.mem_map.mp listed
    exact known c (wf.child_lt n ((mem_tabulated wf).mp here) c used)

theorem Holds.counterpart (wf : g.toArena.WellFormed) (classIds_eq : g'.classIds = g.classIds)
    {n n' : Nat} (inside : n < g.numNodes) (holds : Holds g'.toArena (g.nodeRecord n) n') :
    Counterpart g g' n n' := by
  refine ⟨holds.id_eq, holds.op_eq, ?_⟩
  have children := holds.children
  rw [classIds_eq, nodeRecord, List.map_map] at children
  have numbers : (g.childrenOf n).map (position? g.classIds ∘ g.classLabel) =
      (g.childrenOf n).map some := List.map_congr_left fun c used =>
    position?_classLabel wf (wf.child_lt n inside c used) (beq_self_eq_true _)
  exact (List.map_injective_iff.mpr (Option.some_injective _)
    (numbers.symm.trans children)).symm

theorem membersOf_of_le (wf : a.WellFormed) {c : Nat} (outside : a.numClasses ≤ c) :
    a.membersOf c = [] := by
  have : ¬ c < a.members.size := by
    rw [wf.members_size]
    omega
  simp [Arena.membersOf, Array.getD, this]

/-- The table of an e-graph is read into the same e-graph, up to the numbers of its nodes. -/
theorem renumbered_of_arrange (wf : g.toArena.WellFormed)
    (arranged : arrange (recordedClasses g.toTable) (g.toTable.flatMap Prod.snd) g.rootLabel =
      .ok g'.toArena) : Renumbered g g' := by
  have lists := arrange_lists arranged
  have wf' := arrange_wellFormed arranged
  have holds := lists.holdsTable wf'
  have classIds_eq : g'.classIds = g.classIds := by
    refine Array.ext (holds.length_eq.trans (by simp [toTable, Arena.numClasses])) ?_
    intro c inside' inside
    have label := holds.classLabel_eq c (by simpa [toTable] using show c < g.numClasses from inside)
    simpa [Arena.classLabel, toTable, Array.getD, inside, inside'] using label
  refine ⟨classIds_eq, ?_, fun c => ?_⟩
  · have root := lists.root_found
    rw [classIds_eq, rootLabel, position?_classLabel wf wf.root_lt (beq_self_eq_true _)] at root
    exact (Option.some.inj root).symm
  · by_cases inside : c < g.numClasses
    · have members := holds.members c (by simpa [toTable] using inside)
      simp only [toTable, List.getElem_map, List.getElem_range, List.forall₂_map_left_iff]
        at members
      exact ((List.forall₂_and_left _ _).mpr ⟨wf.member_lt c inside, members⟩).imp
        fun n n' both => both.2.counterpart wf classIds_eq both.1
    · have outside : g.numClasses ≤ c := Nat.le_of_not_lt inside
      rw [membersOf_of_le wf outside, membersOf_of_le wf' (by
        rw [Arena.numClasses, classIds_eq]
        exact outside)]
      exact .nil

/-! ## What renumbering leaves alone -/

namespace Renumbered

theorem symm (same : Renumbered g g') : Renumbered g' g where
  classIds_eq := same.classIds_eq.symm
  root_eq := same.root_eq.symm
  members c := (same.members c).flip.imp fun _ _ twin =>
    ⟨twin.label_eq.symm, twin.op_eq.symm, twin.children_eq.symm⟩

theorem numClasses_eq (same : Renumbered g g') : g'.numClasses = g.numClasses := by
  rw [Arena.numClasses, same.classIds_eq]
  rfl

theorem classLabel_eq (same : Renumbered g g') : g'.classLabel = g.classLabel := by
  funext c
  rw [Arena.classLabel, same.classIds_eq]
  rfl

theorem classIndex_eq (same : Renumbered g g') : g'.classIndex = g.classIndex := by
  funext cls
  simp only [classIndex, same.classIds_eq]

theorem nodeRecord_eq (same : Renumbered g g') {n n' : Nat} (twin : Counterpart g g' n n') :
    g'.nodeRecord n' = g.nodeRecord n := by
  rw [nodeRecord, nodeRecord, twin.label_eq, twin.op_eq, twin.children_eq, same.classLabel_eq]

theorem toTable_eq (same : Renumbered g g') : g'.toTable = g.toTable := by
  rw [toTable, toTable, same.numClasses_eq]
  refine List.map_congr_left fun c _ => ?_
  rw [same.classLabel_eq, map_eq_of_forall₂ (same.members c) fun _ _ => same.nodeRecord_eq]

theorem dependencies_eq (same : Renumbered g g') (c : Nat) :
    g'.dependencies c = g.dependencies c := by
  rw [Arena.dependencies, Arena.dependencies, List.flatMap_def, List.flatMap_def,
    map_eq_of_forall₂ (same.members c) fun _ _ twin => twin.children_eq]

theorem reachableFrom_eq (same : Renumbered g g') (c : Nat) :
    g'.reachableFrom c = g.reachableFrom c := by
  have expand : g'.expandAt = g.expandAt := by
    funext found position
    simp only [expandAt, same.dependencies_eq]
  rw [reachableFrom, reachableFrom, same.numClasses_eq, expand]

theorem exists_twin (same : Renumbered g g') (wf : g.toArena.WellFormed)
    (wf' : g'.toArena.WellFormed) {n : Nat} (inside : n < g.numNodes) :
    ∃ n' < g'.numNodes, Counterpart g g' n n' ∧ g'.ownerOf n' = g.ownerOf n := by
  have owner := wf.owner_lt n inside
  obtain ⟨n', member, twin⟩ := exists_of_mem_left (same.members (g.ownerOf n))
    ((wf.member_iff _ owner n inside).mpr rfl)
  have owner' : g.ownerOf n < g'.numClasses := same.numClasses_eq ▸ owner
  have inside' := wf'.member_lt _ owner' n' member
  exact ⟨n', inside', twin, (wf'.member_iff _ owner' n' inside').mp member⟩

theorem nodeIndex_cases (same : Renumbered g g') (wf : g.toArena.WellFormed)
    (wf' : g'.toArena.WellFormed) (node : Label) :
    (g.nodeIndex node = .error (.unknownNode node) ∧
      g'.nodeIndex node = .error (.unknownNode node)) ∨
    ∃ n n', g.nodeIndex node = .ok n ∧ g'.nodeIndex node = .ok n' ∧ n < g.numNodes ∧
      n' < g'.numNodes ∧ Counterpart g g' n n' ∧ g'.ownerOf n' = g.ownerOf n := by
  cases found : position? g.nodeIds node with
  | some n =>
      right
      obtain ⟨inside, label⟩ := Label.position?_eq_some found
      obtain ⟨n', inside', twin, owner⟩ := same.exists_twin wf wf' inside
      have label' : (g'.nodeLabel n' == node) = true := by
        rw [twin.label_eq]
        exact label
      have found' := position?_nodeLabel wf' inside' label'
      exact ⟨n, n', nodeIndex_eq_ok.mpr found, nodeIndex_eq_ok.mpr found', inside, inside', twin,
        owner⟩
  | none =>
      left
      cases found' : position? g'.nodeIds node with
      | none => simp [nodeIndex, found, found']
      | some n' =>
          obtain ⟨inside', label⟩ := Label.position?_eq_some found'
          obtain ⟨n, inside, twin, _⟩ := same.symm.exists_twin wf' wf inside'
          have label' : (g.nodeLabel n == node) = true := by
            rw [twin.label_eq]
            exact label
          rw [position?_nodeLabel wf inside label'] at found
          cases found

theorem classLevel_le (same : Renumbered g g') (leveled : g.Leveled) (leveled' : g'.Leveled)
    {c : Nat} (inside : c < g.numClasses) : g'.classLevel c ≤ g.classLevel c := by
  have wf := leveled.wellFormed
  refine leveled.classLevel_le_of_counterparts leveled'
    (T := fun c d => c = d ∧ c < g.numClasses) ?_ ?_ ⟨rfl, inside⟩
  · rintro c _ ⟨rfl, inside⟩
    exact ⟨inside, same.numClasses_eq ▸ inside⟩
  · rintro c _ ⟨rfl, inside⟩ n member
    obtain ⟨n', member', twin⟩ := exists_of_mem_left (same.members c) member
    refine ⟨n', member', fun e used => ⟨e, twin.children_eq ▸ used, rfl, ?_⟩⟩
    exact wf.child_lt n (wf.member_lt c inside n member) e (twin.children_eq ▸ used)

/-- The order in which the sweep visits the nodes does not matter. -/
theorem classLevel_eq (same : Renumbered g g') (leveled : g.Leveled) (leveled' : g'.Leveled)
    {c : Nat} (inside : c < g.numClasses) : g'.classLevel c = g.classLevel c :=
  le_antisymm (same.classLevel_le leveled leveled' inside)
    (same.symm.classLevel_le leveled' leveled (same.numClasses_eq ▸ inside))

theorem nodeLevel_eq (same : Renumbered g g') (leveled : g.Leveled) (leveled' : g'.Leveled)
    {n n' : Nat} (inside : n < g.numNodes) (inside' : n' < g'.numNodes)
    (twin : Counterpart g g' n n') : g'.nodeLevel n' = g.nodeLevel n := by
  rw [leveled'.nodeLevel_eq inside', leveled.nodeLevel_eq inside, twin.children_eq]
  exact congrArg Level.above (List.map_congr_left fun c used =>
    same.classLevel_eq leveled leveled' (leveled.wellFormed.child_lt n inside c used))

end Renumbered

/-- The e-graphs answer every question by name alike. -/
structure SameByName (g g' : EGraph) : Prop where
  toTable_eq : g'.toTable = g.toTable
  rootLabel_eq : g'.rootLabel = g.rootLabel
  nodesOf_eq : ∀ cls, g'.nodesOf cls = g.nodesOf cls
  childLabels_eq : ∀ node, g'.childLabels node = g.childLabels node
  opLabel_eq : ∀ node, g'.opLabel node = g.opLabel node
  classOf_eq : ∀ node, g'.classOf node = g.classOf node
  levelOf_eq : ∀ cls, g'.levelOf cls = g.levelOf cls
  nodeLevel_eq : ∀ node,
    (g'.nodeIndex node).map g'.nodeLevel = (g.nodeIndex node).map g.nodeLevel
  reachableClasses_eq : ∀ start, g'.reachableClasses start = g.reachableClasses start

theorem Renumbered.sameByName (same : Renumbered g g') (leveled : g.Leveled)
    (leveled' : g'.Leveled) : SameByName g g' := by
  have cases := same.nodeIndex_cases leveled.wellFormed leveled'.wellFormed
  refine ⟨same.toTable_eq, ?_, fun cls => ?_, fun node => ?_, fun node => ?_, fun node => ?_,
    fun cls => ?_, fun node => ?_, fun start => ?_⟩
  · rw [rootLabel, same.root_eq, same.classLabel_eq]
    rfl
  · rw [nodesOf, nodesOf, same.classIndex_eq]
    congr 1
    funext c
    exact map_eq_of_forall₂ (same.members c) fun _ _ twin => twin.label_eq
  · rw [childLabels, childLabels]
    rcases cases node with ⟨unknown, unknown'⟩ | ⟨n, n', found, found', _, _, twin, _⟩
    · rw [unknown, unknown']
      rfl
    · rw [found, found', Except.map, Except.map, twin.children_eq, same.classLabel_eq]
  · rw [opLabel, opLabel]
    rcases cases node with ⟨unknown, unknown'⟩ | ⟨n, n', found, found', _, _, twin, _⟩
    · rw [unknown, unknown']
      rfl
    · rw [found, found', Except.map, Except.map, twin.op_eq]
  · rw [classOf, classOf]
    rcases cases node with ⟨unknown, unknown'⟩ | ⟨n, n', found, found', _, _, _, owner⟩
    · rw [unknown, unknown']
      rfl
    · rw [found, found', Except.map, Except.map, owner, same.classLabel_eq]
  · rw [levelOf, levelOf, same.classIndex_eq]
    cases index : g.classIndex cls with
    | error fault => rfl
    | ok c =>
        rw [Except.map, Except.map, same.classLevel_eq leveled leveled' (classIndex_lt index)]
  · rcases cases node with ⟨unknown, unknown'⟩ | ⟨n, n', found, found', inside, inside', twin, _⟩
    · rw [unknown, unknown']
      rfl
    · rw [found, found', Except.map, Except.map,
        same.nodeLevel_eq leveled leveled' inside inside' twin]
  · cases start with
    | none =>
        simp only [reachableClasses, same.root_eq, same.reachableFrom_eq, same.classLabel_eq]
    | some cls =>
        simp only [reachableClasses, same.classIndex_eq, same.reachableFrom_eq,
          same.classLabel_eq]

theorem ofTable_toTable (accepted : g.Accepted) :
    ∃ g', ofTable g.toTable g.rootLabel = .ok g' ∧ SameByName g g' := by
  have wf := accepted.wellFormed
  obtain ⟨a, arranged, _⟩ := (fitting_toTable wf).exists_arena
  have settled : EGraph.Leveled { a with levels := Levels.ofArena a } :=
    ⟨arrange_wellFormed arranged, rfl⟩
  have same : Renumbered g { a with levels := Levels.ofArena a } :=
    renumbered_of_arrange wf arranged
  refine ⟨_, ?_, same.sameByName accepted.leveled settled⟩
  obtain ⟨h, finite⟩ := accepted.root_finite
  rw [← same.classLevel_eq accepted.leveled settled wf.root_lt, ← same.root_eq] at finite
  have finite : (Levels.ofArena a).classLevel a.root = .finite h := finite
  change build (recordedClasses g.toTable) (g.toTable.flatMap Prod.snd) g.rootLabel = _
  simp only [build, arranged, bind, Except.bind, ofArena, finite]

/-- Writing tables and reading them are inverse to each other. -/
theorem tables_and_egraphs_are_inverse :
    (∀ table root g, ofTable table root = .ok g →
      AlikeTables g.toTable table ∧ (g.rootLabel == root) = true) ∧
    ∀ g : EGraph, g.Accepted →
      ∃ g', ofTable g.toTable g.rootLabel = .ok g' ∧ SameByName g g' :=
  ⟨fun _ _ _ => toTable_of_ofTable, fun _ => ofTable_toTable⟩

/-- The nodes are given against the order of the classes. -/
def shuffledGraph : EGraph where
  classIds := #[.text "a", .text "b"]
  nodeIds := #[.text "y", .text "x", .text "f"]
  ops := #[.text "y", .text "x", .text "f"]
  children := #[[], [], [1, 1]]
  owner := #[1, 0, 0]
  members := #[[2, 1], [0]]
  root := 0
  levels := ⟨#[.finite 0, .finite 0], #[.finite 0, .finite 0, .finite 1]⟩

theorem shuffledGraph_accepted : shuffledGraph.Accepted := by
  have arranged : arrange [⟨.text "a", [.text "f", .text "x"]⟩, ⟨.text "b", [.text "y"]⟩]
      [⟨.text "y", .text "y", []⟩, ⟨.text "x", .text "x", []⟩,
        ⟨.text "f", .text "f", [.text "b", .text "b"]⟩] (.text "a") =
      .ok shuffledGraph.toArena := by
    with_unfolding_all rfl
  exact .of_settled arranged 2 rfl ⟨0, rfl⟩

/-- The first node is the last one when the graph has been read back. -/
theorem tables_and_egraphs_are_inverse_shuffled :
    shuffledGraph.Accepted ∧ ∃ g', ofTable shuffledGraph.toTable shuffledGraph.rootLabel = .ok g' ∧
      SameByName shuffledGraph g' ∧ AlikeTables g'.toTable shuffledGraph.toTable ∧
      shuffledGraph.nodeIndex (.text "y") = .ok 0 ∧ g'.nodeIndex (.text "y") = .ok 2 := by
  obtain ⟨g', read, same⟩ := tables_and_egraphs_are_inverse.2 shuffledGraph shuffledGraph_accepted
  refine ⟨shuffledGraph_accepted, g', read, same,
    (tables_and_egraphs_are_inverse.1 _ _ _ read).1, by with_unfolding_all rfl, ?_⟩
  have listed : g'.nodeIds.toList = (shuffledGraph.toTable.flatMap Prod.snd).map ENode.id := by
    change build _ _ _ = _ at read
    simp only [build, bind, Except.bind] at read
    split at read
    · simp at read
    · rename_i a arranged
      obtain ⟨rfl, _⟩ := ofArena_spec read
      exact (arrange_lists arranged).nodeIds_eq
  have ids : g'.nodeIds = #[.text "f", .text "x", .text "y"] := Array.toList_inj.mp listed
  rw [nodeIndex, ids]
  with_unfolding_all rfl

end EGraph

end EGraphSearch
