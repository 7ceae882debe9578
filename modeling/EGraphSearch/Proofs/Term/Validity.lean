import EGraphSearch.Proofs.Term.Dependencies

/-!
# What validation checks

`validate` accepts a table if and only if its entries are members of their classes and the choice it
makes is a term in the sense of `Picks.IsTerm`: the graph algorithms that it runs decide what the
definition says.
-/

set_option autoImplicit false

namespace EGraphSearch

open Relation (TransGen ReflTransGen)

namespace Term

variable {g : EGraph} {t : Term} {d : Dependencies}

/-! ## Entries and picks -/

theorem picks_eq_some (keyed : t.assignment.Keyed) {c n : Nat} :
    t.picks g c = some n ↔ c < g.numClasses ∧ ∃ entry ∈ t.assignment,
      entry.1.key = (g.classLabel c).key ∧ g.nodeIndex entry.2 = .ok n := by
  unfold picks
  constructor
  · intro picked
    split at picked
    · rename_i inside
      obtain ⟨node, found, position⟩ := Option.bind_eq_some_iff.mp picked
      obtain ⟨k, member, same⟩ := Table.get?_eq_some_mem found
      exact ⟨inside, (k, node), member, same, EGraph.nodeIndex_eq_ok.mpr position⟩
    · simp at picked
  · rintro ⟨inside, entry, member, same, index⟩
    have found := keyed.get?_of_mem (show (entry.1, entry.2) ∈ _ from member)
    rw [Table.get?_congr _ same] at found
    rw [if_pos inside, found]
    exact EGraph.nodeIndex_eq_ok.mp index

/-- The entries of a table whose names are in order. -/
def Sound (g : EGraph) (t : Term) : Prop := ∀ entry ∈ t.assignment, Dependencies.Sound g entry

theorem picked_iff_contains (sound : t.Sound g) {c : Nat} (inside : c < g.numClasses) :
    (t.picks g c).isSome ↔ t.assignment.contains (g.classLabel c) = true := by
  unfold picks Table.contains
  rw [if_pos inside]
  cases found : t.assignment.get? (g.classLabel c) with
  | none => simp
  | some node =>
      obtain ⟨k, member, _⟩ := Table.get?_eq_some_mem found
      obtain ⟨n, index, _⟩ := sound _ member
      simp [EGraph.nodeIndex_eq_ok.mp index]

theorem Sound.picks_member (wf : g.toArena.WellFormed) (keyed : t.assignment.Keyed)
    (sound : t.Sound g) {c n : Nat} (picked : t.picks g c = some n) :
    c < g.numClasses ∧ n < g.numNodes ∧ g.ownerOf n = c := by
  obtain ⟨inside, entry, member, same, index⟩ := (picks_eq_some keyed).mp picked
  obtain ⟨m, indexAgain, owner⟩ := sound entry member
  cases Except.ok.inj (index.symm.trans indexAgain)
  have nodeInside := EGraph.nodeIndex_lt index
  exact ⟨inside, nodeInside,
    EGraph.classLabel_inj wf (wf.owner_lt n nodeInside) inside (owner.trans same)⟩

theorem Sound.picks_of_mem (wf : g.toArena.WellFormed) (keyed : t.assignment.Keyed)
    (sound : t.Sound g) {entry : Label × Label} (member : entry ∈ t.assignment) :
    ∃ c n, t.picks g c = some n ∧ entry.1.key = (g.classLabel c).key ∧
      g.nodeIndex entry.2 = .ok n := by
  obtain ⟨n, index, owner⟩ := sound entry member
  have inside := wf.owner_lt n (EGraph.nodeIndex_lt index)
  exact ⟨g.ownerOf n, n, (picks_eq_some keyed).mpr ⟨inside, entry, member, owner.symm, index⟩,
    owner.symm, index⟩

/-- The numbers of the assigned classes, in order of resolution. -/
def classNumbers (g : EGraph) (t : Term) : List Nat :=
  t.assignment.map fun entry => (Label.position? g.classIds entry.1).getD 0

theorem length_classNumbers : (t.classNumbers g).length = t.size := by
  simp [classNumbers, size]

theorem Sound.exists_classNumber (wf : g.toArena.WellFormed) (keyed : t.assignment.Keyed)
    (sound : t.Sound g) {entry : Label × Label} (member : entry ∈ t.assignment) :
    ∃ c n, t.picks g c = some n ∧ entry.1.key = (g.classLabel c).key ∧
      g.nodeIndex entry.2 = .ok n ∧ (Label.position? g.classIds entry.1).getD 0 = c := by
  obtain ⟨c, n, picked, label, index⟩ := sound.picks_of_mem wf keyed member
  refine ⟨c, n, picked, label, index, ?_⟩
  rw [EGraph.position?_classLabel wf (sound.picks_member wf keyed picked).1
    ((Label.beq_iff_key_eq _ _).mpr label.symm), Option.getD_some]

theorem Sound.nodup_classNumbers (wf : g.toArena.WellFormed) (keyed : t.assignment.Keyed)
    (sound : t.Sound g) : (t.classNumbers g).Nodup := by
  refine List.pairwise_map.mpr (keyed.imp_of_mem ?_)
  intro a b first second apart equal
  obtain ⟨c, _, _, labelFirst, _, numberFirst⟩ := sound.exists_classNumber wf keyed first
  obtain ⟨d, _, _, labelSecond, _, numberSecond⟩ := sound.exists_classNumber wf keyed second
  rw [numberFirst, numberSecond] at equal
  rw [Label.beq_false_iff_key_ne, labelFirst, labelSecond, equal] at apart
  exact apart rfl

theorem Sound.mem_classNumbers (wf : g.toArena.WellFormed) (keyed : t.assignment.Keyed)
    (sound : t.Sound g) {c : Nat} : c ∈ t.classNumbers g ↔ (t.picks g c).isSome := by
  rw [classNumbers, List.mem_map]
  constructor
  · rintro ⟨entry, member, rfl⟩
    obtain ⟨c, n, picked, _, _, number⟩ := sound.exists_classNumber wf keyed member
    simp [number, picked]
  · intro picked
    obtain ⟨n, picked⟩ := Option.isSome_iff_exists.mp picked
    obtain ⟨inside, entry, member, label, _⟩ := (picks_eq_some keyed).mp picked
    obtain ⟨d, _, picked', labelAgain, _, number⟩ := sound.exists_classNumber wf keyed member
    exact ⟨entry, member, number.trans (EGraph.classLabel_inj wf
      (sound.picks_member wf keyed picked').1 inside (labelAgain.symm.trans label))⟩

/-! ## Edges and uses -/

namespace Dependencies

/-- The recorded uses of a class are the children of its node. -/
theorem Records.picked_of_usesOf (keyed : t.assignment.Keyed)
    (records : Records g d t.assignment) {v a : Nat} {vs : List Nat} (isClass : d.IsClass g v a)
    (used : d.usesOf v = some vs) :
    ∃ n, t.picks g a = some n ∧ List.Forall₂ (d.IsClass g) vs (g.childrenOf n) := by
  obtain ⟨entry, member, n, index, same, _, all⟩ := records.uses_from v vs used
  exact ⟨n, (picks_eq_some keyed).mpr
    ⟨isClass.2.1, entry, member, same.symm.trans isClass.2.2, index⟩, all⟩

theorem Records.uses_of_edge (keyed : t.assignment.Keyed)
    (records : Records g d t.assignment) {v w a : Nat} (isClass : d.IsClass g v a)
    (edge : d.digraph.Edge v w) : ∃ b, d.IsClass g w b ∧ (t.picks g).Uses g a b := by
  obtain ⟨vs, used, member⟩ := edge_iff.mp edge
  obtain ⟨n, picked, all⟩ := records.picked_of_usesOf keyed isClass used
  obtain ⟨b, child, target⟩ := exists_of_mem_left all member
  exact ⟨b, target, n, picked, child⟩

theorem Records.vertex_of_entry (records : Records g d t.assignment) {c : Nat}
    (inside : c < g.numClasses) {entry : Label × Label} (member : entry ∈ t.assignment)
    (same : entry.1.key = (g.classLabel c).key) :
    ∃ v, d.IsClass g v c ∧ (d.usesOf v).isSome := by
  obtain ⟨v, lt, labelSame, used⟩ := records.recorded entry member
  exact ⟨v, ⟨lt, inside, labelSame.trans same⟩, used⟩

theorem Records.vertex_of_picked (keyed : t.assignment.Keyed)
    (records : Records g d t.assignment) {c n : Nat} (picked : t.picks g c = some n) :
    ∃ v vs, d.IsClass g v c ∧ d.usesOf v = some vs ∧
      List.Forall₂ (d.IsClass g) vs (g.childrenOf n) := by
  obtain ⟨inside, entry, member, same, _⟩ := (picks_eq_some keyed).mp picked
  obtain ⟨v, isClass, used⟩ := records.vertex_of_entry inside member same
  obtain ⟨vs, used⟩ := Option.isSome_iff_exists.mp used
  obtain ⟨m, picked', all⟩ := records.picked_of_usesOf keyed isClass used
  cases Option.some.inj (picked.symm.trans picked')
  exact ⟨v, vs, isClass, used, all⟩

theorem Records.edge_of_uses (keyed : t.assignment.Keyed)
    (records : Records g d t.assignment) {a b : Nat} (uses : (t.picks g).Uses g a b) :
    ∃ v w, d.IsClass g v a ∧ d.IsClass g w b ∧ d.digraph.Edge v w := by
  obtain ⟨n, picked, child⟩ := uses
  obtain ⟨v, vs, isClass, used, all⟩ := records.vertex_of_picked keyed picked
  obtain ⟨w, listed, target⟩ := exists_of_mem_right all child
  exact ⟨v, w, isClass, target, edge_iff.mpr ⟨vs, used, listed⟩⟩

theorem Records.uses_of_walk (keyed : t.assignment.Keyed)
    (records : Records g d t.assignment) {v w a : Nat} (isClass : d.IsClass g v a)
    (walk : ReflTransGen d.digraph.Edge v w) :
    ∃ b, d.IsClass g w b ∧ ReflTransGen ((t.picks g).Uses g) a b := by
  induction walk with
  | refl => exact ⟨a, isClass, .refl⟩
  | tail _ edge ih =>
      obtain ⟨b, target, walked⟩ := ih
      obtain ⟨c, next, uses⟩ := records.uses_of_edge keyed target edge
      exact ⟨c, next, walked.tail uses⟩

theorem Records.walk_of_uses (keyed : t.assignment.Keyed)
    (records : Records g d t.assignment) {v a b : Nat} (isClass : d.IsClass g v a)
    (walk : ReflTransGen ((t.picks g).Uses g) a b) :
    ∃ w, d.IsClass g w b ∧ ReflTransGen d.digraph.Edge v w := by
  induction walk with
  | refl => exact ⟨v, isClass, .refl⟩
  | tail _ uses ih =>
      obtain ⟨u, target, walked⟩ := ih
      obtain ⟨u', w, source, next, edge⟩ := records.edge_of_uses keyed uses
      obtain rfl := target.vertex_eq records.toShaped source
      exact ⟨w, next, walked.tail edge⟩

theorem Records.acyclic_iff (wf : g.toArena.WellFormed) (keyed : t.assignment.Keyed)
    (records : Records g d t.assignment) :
    d.digraph.isAcyclic = true ↔ ∀ c, ¬ TransGen ((t.picks g).Uses g) c c := by
  rw [Digraph.isAcyclic_iff records.proper]
  constructor
  · intro acyclic c cycle
    obtain ⟨a, uses, rest⟩ := TransGen.head'_iff.mp cycle
    obtain ⟨v, w, source, target, edge⟩ := records.edge_of_uses keyed uses
    obtain ⟨v', back, walk⟩ := records.walk_of_uses keyed target rest
    obtain rfl := back.vertex_eq records.toShaped source
    exact acyclic _ (.head' edge walk)
  · intro acyclic v cycle
    obtain ⟨w, edge, rest⟩ := TransGen.head'_iff.mp cycle
    obtain ⟨vs, used, _⟩ := edge_iff.mp edge
    obtain ⟨_, _, _, _, _, inside, _⟩ := records.uses_from v vs used
    obtain ⟨a, source⟩ := records.isClass v inside
    obtain ⟨b, target, uses⟩ := records.uses_of_edge keyed source edge
    obtain ⟨a', back, walk⟩ := records.uses_of_walk keyed target rest
    obtain rfl := back.class_eq wf source
    exact acyclic _ (.head' uses walk)

end Dependencies

/-! ## The checks -/

/-- The node is a member of the class, and all its children are assigned. -/
def Fits (g : EGraph) (t : Term) (entry : Label × Label) : Prop :=
  ∃ n, g.nodeIndex entry.2 = .ok n ∧ (g.classLabel (g.ownerOf n)).key = entry.1.key ∧
    ∀ c ∈ g.childrenOf n, t.assignment.contains (g.classLabel c) = true

theorem Fits.sound {entry : Label × Label} (fits : t.Fits g entry) :
    Dependencies.Sound g entry := by
  obtain ⟨n, index, owner, _⟩ := fits
  exact ⟨n, index, owner⟩

/-- No assigned class has a name that a comparison tells apart from itself. -/
def Comparable (t : Term) : Prop := ∀ entry ∈ t.assignment, entry.1.key.isNaN = false

theorem validateEntry_iff {entry : Label × Label} :
    t.validateEntry g entry = .ok () ↔ t.Fits g entry ∧ entry.1.key.isNaN = false := by
  obtain ⟨cls, node⟩ := entry
  simp only [validateEntry, EGraph.classOf, EGraph.childLabels, Fits]
  cases index : g.nodeIndex node with
  | error fault => simp [bind, Except.bind, Except.map]
  | ok n =>
      simp only [Except.map, bind, Except.bind, Except.ok.injEq, exists_eq_left']
      rw [and_right_comm, ← Label.differs_false_iff]
      cases owner : (g.classLabel (g.ownerOf n)).differs cls with
      | true => simp [throw, throwThe, MonadExceptOf.throw]
      | false =>
          simp only [Bool.false_eq_true, if_false, pure, Except.pure, true_and]
          cases missing : ((g.childrenOf n).map g.classLabel).find?
              fun child => !t.assignment.contains child with
          | none => simpa using missing
          | some child =>
              have member := List.mem_of_find?_eq_some missing
              obtain ⟨c, listed, rfl⟩ := List.mem_map.mp member
              have absent := List.find?_some missing
              simp only [throw, throwThe, MonadExceptOf.throw, reduceCtorEq, false_iff, not_forall]
              exact ⟨c, listed, by simpa using absent⟩

theorem forM_eq_ok {α : Type} {check : α → Except Fault Unit} {xs : List α} :
    xs.forM check = .ok () ↔ ∀ x ∈ xs, check x = .ok () := by
  induction xs with
  | nil => simp [List.forM, pure, Except.pure]
  | cons x rest ih =>
      rw [List.forall_mem_cons, ← ih]
      cases first : check x <;> simp [List.forM, first, bind, Except.bind]

theorem entries_eq_ok : t.assignment.forM (t.validateEntry g) = .ok () ↔
    (∀ entry ∈ t.assignment, t.Fits g entry) ∧ t.Comparable := by
  simp only [forM_eq_ok, validateEntry_iff, Comparable, ← forall₂_and]

theorem fits_iff (wf : g.toArena.WellFormed) (keyed : t.assignment.Keyed) :
    (∀ entry ∈ t.assignment, t.Fits g entry) ↔
      t.Sound g ∧ ∀ c d, (t.picks g).Uses g c d → (t.picks g d).isSome := by
  constructor
  · intro valid
    have sound : t.Sound g := fun entry member => (valid entry member).sound
    refine ⟨sound, ?_⟩
    rintro c d ⟨n, picked, child⟩
    obtain ⟨_, entry, member, _, index⟩ := (picks_eq_some keyed).mp picked
    obtain ⟨m, indexAgain, _, children⟩ := valid entry member
    cases Except.ok.inj (index.symm.trans indexAgain)
    have inside := wf.child_lt n (EGraph.nodeIndex_lt index) d child
    exact (picked_iff_contains sound inside).mpr (children d child)
  · rintro ⟨sound, closed⟩ entry member
    obtain ⟨n, index, owner⟩ := sound entry member
    refine ⟨n, index, owner, ?_⟩
    intro d child
    obtain ⟨c, m, picked, _, indexAgain⟩ := sound.picks_of_mem wf keyed member
    cases Except.ok.inj (index.symm.trans indexAgain)
    have inside := wf.child_lt n (EGraph.nodeIndex_lt index) d child
    exact (picked_iff_contains sound inside).mp (closed c d ⟨n, picked, child⟩)

/-! ## The dependency graph -/

theorem contains_none_iff :
    t.assignment.contains .none = true ↔ ∃ entry ∈ t.assignment, entry.1 = .none := by
  rw [Table.contains_iff]
  exact exists_congr fun entry => and_congr_right fun _ => Label.key_eq_none_iff entry.1

theorem dependencies_of_fits (wf : g.toArena.WellFormed)
    (fits : ∀ entry ∈ t.assignment, t.Fits g entry)
    (named : t.assignment.contains .none = false) :
    ∃ d, t.dependencies g = .ok d ∧ Dependencies.Records g d t.assignment := by
  refine dependencies_spec wf (fun entry member => (fits entry member).sound) ?_
  rw [← Bool.not_eq_true] at named
  intro entry member
  refine ⟨fun none_ => named (contains_none_iff.mpr ⟨entry, member, none_⟩), ?_⟩
  intro n index c child none_
  obtain ⟨m, indexAgain, _, children⟩ := fits entry member
  cases Except.ok.inj (index.symm.trans indexAgain)
  exact named (none_ ▸ children c child)

theorem dependencies_nameless (fits : ∀ entry ∈ t.assignment, t.Fits g entry)
    (nameless : t.assignment.contains .none = true) :
    t.dependencies g = .error (.outOfRange .namelessVertex) :=
  Dependencies.foldlM_addEntry_nameless t.assignment
    (fun entry member => (fits entry member).sound) (contains_none_iff.mp nameless)

/-- The edges of a cycle, by name. -/
def Dependencies.cycle (d : Dependencies) : List (Label × Label) :=
  (d.digraph.findCycle?.getD []).map fun (v, w) => (d.label v, d.label w)

/-- The assigned classes that the search from the root does not find. -/
def Dependencies.unreached (g : EGraph) (t : Term) (d : Dependencies) : List Label :=
  t.assignment.keys.filter fun cls => !((Label.position? d.classes cls).any
    (d.digraph.reachableFrom ((Label.position? d.classes g.rootLabel).getD 0)).contains)

/-- The search from the root finds the classes that the picks lead to. -/
theorem mem_unreached_iff (wf : g.toArena.WellFormed) (keyed : t.assignment.Keyed)
    (sound : t.Sound g) (records : Dependencies.Records g d t.assignment)
    (rooted : (t.picks g g.root).isSome) (cls : Label) :
    cls ∈ d.unreached g t ↔ cls ∈ t.assignment.keys ∧
      ∀ c < g.numClasses, cls.key = (g.classLabel c).key →
        ¬ ReflTransGen ((t.picks g).Uses g) g.root c := by
  obtain ⟨n, picked⟩ := Option.isSome_iff_exists.mp rooted
  obtain ⟨_, entry, member, same, _⟩ := (picks_eq_some keyed).mp picked
  obtain ⟨r, isRoot, _⟩ := records.vertex_of_entry wf.root_lt member same
  have rootAt : Label.position? d.classes g.rootLabel = some r :=
    records.distinct.position?_eq isRoot.1 ((Label.beq_iff_key_eq _ _).mpr isRoot.2.2)
  have rootInside : r < d.digraph.size := by
    simpa [Digraph.size, Dependencies.digraph, records.size_eq] using isRoot.1
  simp only [Dependencies.unreached, rootAt, Option.getD_some, List.mem_filter]
  refine and_congr_right fun listed => ?_
  obtain ⟨entry, member, rfl⟩ := List.mem_map.mp listed
  obtain ⟨c, m, pickedHere, same, _⟩ := sound.picks_of_mem wf keyed member
  have inside := ((picks_eq_some keyed).mp pickedHere).1
  obtain ⟨v, isClass, _⟩ := records.vertex_of_entry inside member same
  have position : Label.position? d.classes entry.1 = some v :=
    records.distinct.position?_eq isClass.1
      ((Label.beq_iff_key_eq _ _).mpr (isClass.2.2.trans same.symm))
  rw [position, Option.any_some, Bool.not_eq_true', ← Bool.not_eq_true, List.contains_iff_mem,
    Digraph.mem_reachableFrom_iff records.proper rootInside]
  constructor
  · intro missed a insideA sameA walked
    obtain ⟨w, target, walk⟩ := records.walk_of_uses keyed isRoot walked
    obtain rfl := EGraph.classLabel_inj wf inside insideA (same.symm.trans sameA)
    obtain rfl := target.vertex_eq records.toShaped isClass
    exact missed walk
  · intro apart walk
    obtain ⟨c', target, walked⟩ := records.uses_of_walk keyed isRoot walk
    obtain rfl := target.class_eq wf isClass
    exact apart _ inside same walked

theorem unreached_nil_iff (wf : g.toArena.WellFormed) (keyed : t.assignment.Keyed)
    (sound : t.Sound g) (records : Dependencies.Records g d t.assignment)
    (rooted : (t.picks g g.root).isSome) :
    d.unreached g t = [] ↔
      ∀ c, (t.picks g c).isSome → ReflTransGen ((t.picks g).Uses g) g.root c := by
  rw [List.eq_nil_iff_forall_not_mem]
  simp only [mem_unreached_iff wf keyed sound records rooted, not_and, not_forall, not_not]
  constructor
  · intro reached c picked
    obtain ⟨n, picked⟩ := Option.isSome_iff_exists.mp picked
    obtain ⟨inside, entry, member, same, _⟩ := (picks_eq_some keyed).mp picked
    obtain ⟨b, insideB, sameB, walked⟩ := reached entry.1 (List.mem_map_of_mem member)
    obtain rfl := EGraph.classLabel_inj wf inside insideB (same.symm.trans sameB)
    exact walked
  · intro connected cls listed
    obtain ⟨entry, member, rfl⟩ := List.mem_map.mp listed
    obtain ⟨c, n, picked, same, _⟩ := sound.picks_of_mem wf keyed member
    exact ⟨c, ((picks_eq_some keyed).mp picked).1, same, connected c (by simp [picked])⟩

/-! ## Step by step -/

theorem validate_unrooted (unrooted : t.assignment.contains g.rootLabel = false) :
    t.validate g = .error (.violation .rootUnassigned) := by
  simp [validate, unrooted, throw, throwThe, MonadExceptOf.throw, bind, Except.bind]

theorem validate_entries {fault : Fault} (rooted : t.assignment.contains g.rootLabel = true)
    (failed : t.assignment.forM (t.validateEntry g) = .error fault) :
    t.validate g = .error fault := by
  simp [validate, rooted, failed, bind, Except.bind]

theorem validate_dependencies {fault : Fault} (rooted : t.assignment.contains g.rootLabel = true)
    (passed : t.assignment.forM (t.validateEntry g) = .ok ())
    (failed : t.dependencies g = .error fault) : t.validate g = .error fault := by
  simp [validate, rooted, passed, failed, bind, Except.bind]

theorem validate_cyclic (rooted : t.assignment.contains g.rootLabel = true)
    (passed : t.assignment.forM (t.validateEntry g) = .ok ()) (built : t.dependencies g = .ok d)
    (cyclic : d.digraph.isAcyclic = false) :
    t.validate g = .error (.violation (.cyclic d.cycle)) := by
  simp [validate, rooted, passed, built, cyclic, bind, Except.bind, throw,
    throwThe, MonadExceptOf.throw, Dependencies.cycle]

theorem validate_acyclic (rooted : t.assignment.contains g.rootLabel = true)
    (passed : t.assignment.forM (t.validateEntry g) = .ok ()) (built : t.dependencies g = .ok d)
    (acyclic : d.digraph.isAcyclic = true) :
    t.validate g = if d.unreached g t = [] then .ok ()
      else .error (.violation (.unreachable (d.unreached g t))) := by
  simp only [validate, rooted, passed, built, acyclic, bind, Except.bind, pure,
    Except.pure, throw, throwThe, MonadExceptOf.throw, Bool.not_true, Bool.false_eq_true, if_false]
  split
  · rename_i none_
    exact (if_pos none_).symm
  · rename_i some_
    exact (if_neg some_).symm

/-- Validation accepts what is a term, unless it assigns the label that stands for nothing or one
that differs from itself. -/
theorem validate_eq_ok_iff (wf : g.toArena.WellFormed) (keyed : t.assignment.Keyed) :
    t.validate g = .ok () ↔
      (t.Sound g ∧ (t.picks g).IsTerm g) ∧ t.assignment.contains .none = false ∧
        t.Comparable := by
  constructor
  · intro valid
    cases rooted : t.assignment.contains g.rootLabel with
    | false => simp [validate_unrooted rooted] at valid
    | true =>
    cases passed : t.assignment.forM (t.validateEntry g) with
    | error fault => simp [validate_entries rooted passed] at valid
    | ok _ =>
    obtain ⟨fits, comparable⟩ := entries_eq_ok.mp passed
    cases named : t.assignment.contains .none with
    | true =>
        simp [validate_dependencies rooted passed (dependencies_nameless fits named)] at valid
    | false =>
    obtain ⟨sound, closed⟩ := (fits_iff wf keyed).mp fits
    obtain ⟨d, built, records⟩ := dependencies_of_fits wf fits named
    have rootPicked : (t.picks g g.root).isSome :=
      (picked_iff_contains sound wf.root_lt).mpr rooted
    cases acyclic : d.digraph.isAcyclic with
    | false => simp [validate_cyclic rooted passed built acyclic] at valid
    | true =>
    rw [validate_acyclic rooted passed built acyclic] at valid
    split at valid
    · rename_i none_
      exact ⟨⟨sound, rootPicked, fun _ _ => sound.picks_member wf keyed, closed,
        (records.acyclic_iff wf keyed).mp acyclic,
        (unreached_nil_iff wf keyed sound records rootPicked).mp none_⟩, rfl, comparable⟩
    · simp at valid
  · rintro ⟨⟨sound, isTerm⟩, named, comparable⟩
    have rooted : t.assignment.contains g.rootLabel = true :=
      (picked_iff_contains sound wf.root_lt).mp isTerm.root_picked
    have fits := (fits_iff wf keyed).mpr ⟨sound, isTerm.closed⟩
    obtain ⟨d, built, records⟩ := dependencies_of_fits wf fits named
    have acyclic := (records.acyclic_iff wf keyed).mpr isTerm.acyclic
    rw [validate_acyclic rooted (entries_eq_ok.mpr ⟨fits, comparable⟩) built acyclic, if_pos]
    exact (unreached_nil_iff wf keyed sound records isTerm.root_picked).mpr isTerm.connected

/-- Where every class has a name, validation decides what it means to be a comparable term. -/
theorem validate_iff (wf : g.toArena.WellFormed) (named : g.Named) (keyed : t.assignment.Keyed) :
    t.validate g = .ok () ↔ (t.Sound g ∧ (t.picks g).IsTerm g) ∧ t.Comparable := by
  rw [validate_eq_ok_iff wf keyed]
  refine and_congr_right fun ⟨sound, _⟩ => and_iff_right ?_
  rw [← Bool.not_eq_true, contains_none_iff]
  rintro ⟨entry, member, none_⟩
  obtain ⟨n, index, owner⟩ := sound entry member
  refine named (g.ownerOf n) (wf.owner_lt n (EGraph.nodeIndex_lt index)) ?_
  rw [← Label.key_eq_none_iff, owner, none_]
  rfl

/-- No table is valid over a root that a comparison tells apart from itself. -/
theorem not_valid_of_unequal_root (unequal : g.rootLabel.key.isNaN = true) (t : Term) :
    t.validate g ≠ .ok () := by
  intro valid
  cases rooted : t.assignment.contains g.rootLabel with
  | false => simp [validate_unrooted rooted] at valid
  | true =>
      cases passed : t.assignment.forM (t.validateEntry g) with
      | error fault => simp [validate_entries rooted passed] at valid
      | ok _ =>
          obtain ⟨entry, member, same⟩ := Table.contains_iff.mp rooted
          have comparable := (entries_eq_ok.mp passed).2 entry member
          rw [same, unequal] at comparable
          cases comparable

/-- The root leads to all classes of a term. -/
theorem comparable_of_isTerm (wf : g.toArena.WellFormed) (checkable : g.Checkable)
    (keyed : t.assignment.Keyed) (sound : t.Sound g) (isTerm : (t.picks g).IsTerm g) :
    t.Comparable := by
  intro entry member
  obtain ⟨c, n, picked, same, _⟩ := sound.picks_of_mem wf keyed member
  rw [same]
  exact checkable.comparable c (isTerm.reaches wf (by simp [picked]))

end Term

end EGraphSearch
