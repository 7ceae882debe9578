import EGraphSearch.EGraph.Basic
import EGraphSearch.Proofs.Naming
import Mathlib.Data.List.Forall2

/-!
# Construction yields well-formed e-graphs

Each stage of construction is followed by what it promises: distinct class names, nodes whose
children are classes, and members handed out so that no node is taken twice.  Together they are
the numbering promises of the arena, which every later theorem starts from.
-/

set_option autoImplicit false

namespace EGraphSearch

/-! ## Lists side by side -/

theorem exists_of_mem_left {α β : Type} {R : α → β → Prop} {xs : List α} {ys : List β}
    (all : List.Forall₂ R xs ys) {x : α} (member : x ∈ xs) : ∃ y ∈ ys, R x y := by
  induction all with
  | nil => simp at member
  | cons related _ ih =>
      rcases List.mem_cons.mp member with rfl | later
      · exact ⟨_, List.mem_cons_self, related⟩
      · obtain ⟨y, memberRight, related⟩ := ih later
        exact ⟨y, List.mem_cons_of_mem _ memberRight, related⟩

theorem exists_of_mem_right {α β : Type} {R : α → β → Prop} {xs : List α} {ys : List β}
    (all : List.Forall₂ R xs ys) {y : β} (member : y ∈ ys) : ∃ x ∈ xs, R x y :=
  exists_of_mem_left all.flip member

theorem forall₂_getD {α β : Type} {R : α → β → Prop} {xs : List α} {ys : Array β}
    (all : List.Forall₂ R xs ys.toList) {i : Nat} (inside : i < xs.length) (default : β) :
    R xs[i] (ys.getD i default) := by
  obtain ⟨sameLength, each⟩ := List.forall₂_iff_get.mp all
  have insideRight : i < ys.size := by
    rw [← Array.length_toList]
    omega
  simpa [Array.getD, insideRight] using each i inside (by simpa using insideRight)

theorem map_eq_of_forall₂ {α β γ : Type} {R : α → β → Prop} {f : α → γ} {h : β → γ}
    {xs : List α} {ys : List β} (all : List.Forall₂ R xs ys)
    (same : ∀ x y, R x y → h y = f x) : ys.map h = xs.map f := by
  induction all with
  | nil => rfl
  | cons related _ ih => rw [List.map_cons, List.map_cons, same _ _ related, ih]

/-! ## Levels after a few passes -/

namespace Levels

/-- The levels that the passes settle at, if that takes at most so many passes. -/
def settledWithin (a : Arena) : Nat → Levels → Option Levels
  | 0, _ => none
  | passes + 1, l =>
    if (pass a l).2 = true then settledWithin a passes (pass a l).1 else some (pass a l).1

theorem settle_of_within {a : Arena} (passes : Nat) : ∀ {l settled : Levels},
    settledWithin a passes l = some settled → settle a l = settled := by
  induction passes with
  | zero => exact nofun
  | succ passes ih =>
      intro l settled within
      rw [settle]
      rw [settledWithin] at within
      split at within
      · rename_i changed
        rw [if_pos changed]
        exact ih within
      · rename_i quiet
        rw [if_neg quiet]
        exact Option.some.inj within

end Levels

namespace EGraph

open Label (Distinct position?)

/-- The e-graphs that construction yields. -/
def Accepted (g : EGraph) : Prop :=
  ∃ classes nodes root, EGraph.build classes nodes root = .ok g

/-- No class is called by the label that stands for nothing. -/
def Named (g : EGraph) : Prop := ∀ c < g.numClasses, g.classLabel c ≠ .none

theorem named_of_labels {g : EGraph} (labelled : ∀ label ∈ g.classIds, label ≠ .none) :
    g.Named := by
  intro c inside
  have listed : c < g.classIds.size := inside
  rw [Arena.classLabel, Array.getD_eq_getD_getElem?, Array.getElem?_eq_getElem listed]
  exact labelled _ (Array.getElem_mem listed)

/-- The root leads to the class, through members of classes and their children. -/
inductive Reaches (g : EGraph) : Nat → Prop
  | root : g.Reaches g.root
  | child {c n d : Nat} (reached : g.Reaches c) (member : n ∈ g.membersOf c)
      (child : d ∈ g.childrenOf n) : g.Reaches d

/-- Terms can be checked: every class has a name, and no class that the root leads to has a name
that a comparison tells apart from itself. -/
structure Checkable (g : EGraph) : Prop where
  named : g.Named
  comparable : ∀ c, g.Reaches c → (g.classLabel c).key.isNaN = false

theorem checkable_of_labels {g : EGraph}
    (labelled : ∀ label ∈ g.classIds, label ≠ .none ∧ label.key.isNaN = false) :
    g.Checkable := by
  refine ⟨named_of_labels fun label listed => (labelled label listed).1, fun c _ => ?_⟩
  rw [Arena.classLabel, Array.getD_eq_getD_getElem?]
  cases listed : g.classIds[c]? with
  | none => rfl
  | some label => exact (labelled label (Array.mem_of_getElem? listed)).2

/-! ## Classes and nodes -/

theorem indexClasses_spec (classes : List EClass) :
    ∀ {ids out : Array Label}, indexClasses classes ids = .ok out → Distinct ids →
      Distinct out ∧ out.size = ids.size + classes.length := by
  induction classes with
  | nil =>
      intro ids out indexed distinct
      simp only [indexClasses, Except.ok.injEq] at indexed
      subst indexed
      exact ⟨distinct, by simp⟩
  | cons c rest ih =>
      intro ids out indexed distinct
      simp only [indexClasses] at indexed
      split at indexed
      · simp at indexed
      · rename_i fresh
        obtain ⟨distinctOut, sizeOut⟩ := ih indexed (distinct.push fresh)
        refine ⟨distinctOut, ?_⟩
        rw [sizeOut, Array.size_push, List.length_cons]
        omega

theorem indexClasses_listed (classes : List EClass) :
    ∀ {ids out : Array Label}, indexClasses classes ids = .ok out →
      out.toList = ids.toList ++ classes.map EClass.id := by
  induction classes with
  | nil =>
      intro ids out indexed
      cases indexed
      simp
  | cons c rest ih =>
      intro ids out indexed
      simp only [indexClasses] at indexed
      split at indexed
      · simp at indexed
      · rw [ih indexed]
        simp

theorem resolveChildren_positions (classIds : Array Label) (node : Label) (labels : List Label) :
    ∀ {children : List Nat}, resolveChildren classIds node labels = .ok children →
      labels.map (position? classIds) = children.map some := by
  induction labels with
  | nil =>
      intro children resolved
      cases resolved
      rfl
  | cons label rest ih =>
      intro children resolved
      simp only [resolveChildren] at resolved
      split at resolved
      · simp at resolved
      · rename_i first found
        cases later : resolveChildren classIds node rest with
        | error cause => simp [later, Except.map] at resolved
        | ok tail =>
            simp only [later, Except.map, Except.ok.injEq] at resolved
            subst resolved
            rw [List.map_cons, List.map_cons, found, ih later]

theorem resolveChildren_lt (classIds : Array Label) (node : Label) (labels : List Label)
    {children : List Nat} (resolved : resolveChildren classIds node labels = .ok children) :
    ∀ c ∈ children, c < classIds.size := by
  intro c member
  have listed : some c ∈ labels.map (position? classIds) := by
    rw [resolveChildren_positions classIds node labels resolved]
    exact List.mem_map_of_mem member
  obtain ⟨label, _, found⟩ := List.mem_map.mp listed
  exact (Label.position?_eq_some found).1

/-- What the numbering of nodes keeps true. -/
structure NodeIndex.Sound (classCount : Nat) (index : NodeIndex) : Prop where
  ops_size : index.ops.size = index.ids.size
  children_size : index.children.size = index.ids.size
  child_lt : ∀ own ∈ index.children, ∀ c ∈ own, c < classCount
  distinct : Distinct index.ids

theorem indexNodes_sound (classIds : Array Label) (nodes : List ENode) :
    ∀ {index out : NodeIndex}, indexNodes classIds nodes index = .ok out →
      index.Sound classIds.size → out.Sound classIds.size := by
  induction nodes with
  | nil =>
      intro index out indexed sound
      simp only [indexNodes, Except.ok.injEq] at indexed
      subst indexed
      exact sound
  | cons n rest ih =>
      intro index out indexed sound
      simp only [indexNodes] at indexed
      split at indexed
      · simp at indexed
      · rename_i fresh
        split at indexed
        · simp at indexed
        · rename_i children resolved
          refine ih indexed ⟨?_, ?_, ?_, sound.distinct.push fresh⟩
          · simp [sound.ops_size]
          · simp [sound.children_size]
          · intro own member c hc
            rcases Array.mem_push.mp member with earlier | rfl
            · exact sound.child_lt own earlier c hc
            · exact resolveChildren_lt classIds n.id n.children resolved c hc

/-- The children of a node record are the classes of these numbers. -/
def Resolves (classIds : Array Label) (n : ENode) (own : List Nat) : Prop :=
  n.children.map (position? classIds) = own.map some

theorem indexNodes_listed (classIds : Array Label) (nodes : List ENode) :
    ∀ {index out : NodeIndex}, indexNodes classIds nodes index = .ok out →
      out.ids.toList = index.ids.toList ++ nodes.map ENode.id ∧
      out.ops.toList = index.ops.toList ++ nodes.map ENode.op ∧
      ∃ later, out.children.toList = index.children.toList ++ later ∧
        List.Forall₂ (Resolves classIds) nodes later := by
  induction nodes with
  | nil =>
      intro index out indexed
      cases indexed
      exact ⟨by simp, by simp, [], by simp, .nil⟩
  | cons n rest ih =>
      intro index out indexed
      simp only [indexNodes] at indexed
      split at indexed
      · simp at indexed
      · split at indexed
        · simp at indexed
        · rename_i children resolved
          obtain ⟨ids, ops, later, listed, resolves⟩ := ih indexed
          exact ⟨by simp [ids], by simp [ops], children :: later, by simp [listed],
            .cons (resolveChildren_positions classIds n.id n.children resolved) resolves⟩

/-! ## Members -/

theorem claimMembers_positions (nodeIds : Array Label) (cls : Label) (c : Nat)
    (labels : List Label) : ∀ {owner after : Array (Option Nat)} {own : List Nat},
      claimMembers nodeIds cls c labels owner = .ok (own, after) →
      labels.map (position? nodeIds) = own.map some := by
  induction labels with
  | nil =>
      intro owner after own claimed
      cases claimed
      rfl
  | cons label rest ih =>
      intro owner after own claimed
      simp only [claimMembers] at claimed
      split at claimed
      · simp at claimed
      · rename_i n found
        split at claimed
        · simp at claimed
        · split at claimed
          · simp at claimed
          · rename_i later
            cases claimed
            rw [List.map_cons, List.map_cons, found, ih later]

/-- The members that a class record lists are the nodes of these numbers. -/
def Claims (nodeIds : Array Label) (cls : EClass) (own : List Nat) : Prop :=
  cls.nodes.map (position? nodeIds) = own.map some

theorem claimAll_listed (nodeIds : Array Label) (classes : List EClass) :
    ∀ {c : Nat} {owner after : Array (Option Nat)} {members out : Array (List Nat)},
      claimAll nodeIds classes c owner members = .ok (out, after) →
      ∃ later, out.toList = members.toList ++ later ∧
        List.Forall₂ (Claims nodeIds) classes later := by
  induction classes with
  | nil =>
      intro c owner after members out claimed
      cases claimed
      exact ⟨[], by simp, .nil⟩
  | cons cls rest ih =>
      intro c owner after members out claimed
      simp only [claimAll] at claimed
      split at claimed
      · simp at claimed
      · rename_i own next taken
        obtain ⟨later, listed, claims⟩ := ih claimed
        exact ⟨own :: later, by simp [listed],
          .cons (claimMembers_positions nodeIds cls.id c cls.nodes taken) claims⟩

theorem claimMembers_spec (nodeIds : Array Label) (cls : Label) (c : Nat) (labels : List Label) :
    ∀ {owner after : Array (Option Nat)} {own : List Nat},
      claimMembers nodeIds cls c labels owner = .ok (own, after) → owner.size = nodeIds.size →
      after.size = owner.size ∧ own.Nodup ∧
      (∀ n ∈ own, n < owner.size ∧ owner.getD n none = none ∧ after.getD n none = some c) ∧
      ∀ n, n ∉ own → after.getD n none = owner.getD n none := by
  induction labels with
  | nil =>
      intro owner after own claimed _
      simp only [claimMembers, Except.ok.injEq, Prod.mk.injEq] at claimed
      obtain ⟨rfl, rfl⟩ := claimed
      simp
  | cons label rest ih =>
      intro owner after own claimed sizes
      simp only [claimMembers] at claimed
      split at claimed
      · simp at claimed
      · rename_i n found
        have inside : n < owner.size := sizes ▸ (Label.position?_eq_some found).1
        split at claimed
        · simp at claimed
        · rename_i free
          split at claimed
          · simp at claimed
          · rename_i tail last later
            simp only [Except.ok.injEq, Prod.mk.injEq] at claimed
            obtain ⟨rfl, rfl⟩ := claimed
            obtain ⟨size, nodup, claims, keeps⟩ := ih later (by simpa using sizes)
            have taken : (owner.setIfInBounds n (some c)).getD n none = some c := by
              simp [Array.getD, inside]
            have others : ∀ m, m ≠ n →
                (owner.setIfInBounds n (some c)).getD m none = owner.getD m none := by
              intro m apart
              simp only [Array.getD_eq_getD_getElem?]
              rw [Array.getElem?_setIfInBounds_ne (Ne.symm apart)]
            have absent : n ∉ tail := by
              intro member
              have := (claims n member).2.1
              rw [taken] at this
              simp at this
            refine ⟨by simpa using size, List.nodup_cons.mpr ⟨absent, nodup⟩, ?_, ?_⟩
            · intro m member
              rcases List.mem_cons.mp member with rfl | member
              · exact ⟨inside, free, (keeps m absent).trans taken⟩
              · obtain ⟨lt, freeBefore, owned⟩ := claims m member
                have apart : m ≠ n := fun same => absent (same ▸ member)
                exact ⟨by simpa using lt, (others m apart) ▸ freeBefore, owned⟩
            · intro m outside
              have apart : m ≠ n := fun same => outside (same ▸ List.mem_cons_self)
              have outside : m ∉ tail := fun member => outside (List.mem_cons_of_mem _ member)
              exact (keeps m outside).trans (others m apart)

/-- Who owns which node after the first classes have been handed their members. -/
structure Handed (owner : Array (Option Nat)) (members : Array (List Nat)) : Prop where
  owned : ∀ c < members.size, ∀ n ∈ members.getD c [], n < owner.size ∧ owner.getD n none = some c
  listed : ∀ n c, owner.getD n none = some c → c < members.size ∧ n ∈ members.getD c []
  nodup : ∀ c < members.size, (members.getD c []).Nodup

theorem Handed.push {owner after : Array (Option Nat)} {members : Array (List Nat)}
    {own : List Nat} (handed : Handed owner members) (size : after.size = owner.size)
    (nodup : own.Nodup)
    (claims : ∀ n ∈ own, n < owner.size ∧ owner.getD n none = none ∧
      after.getD n none = some members.size)
    (keeps : ∀ n, n ∉ own → after.getD n none = owner.getD n none) :
    Handed after (members.push own) := by
  have old : ∀ c < members.size, (members.push own).getD c [] = members.getD c [] := by
    intro c lt
    simp [Array.getD, Array.getElem_push, lt, Nat.lt_succ_of_lt lt]
  have new : (members.push own).getD members.size [] = own := by
    simp [Array.getD]
  refine ⟨?_, ?_, ?_⟩
  · intro c lt n member
    rw [size]
    rcases Nat.lt_succ_iff_lt_or_eq.mp (by simpa using lt) with lt | rfl
    · rw [old c lt] at member
      obtain ⟨inside, owned⟩ := handed.owned c lt n member
      have outside : n ∉ own := by
        intro taken
        have := (claims n taken).2.1
        rw [owned] at this
        simp at this
      exact ⟨inside, (keeps n outside).trans owned⟩
    · rw [new] at member
      exact ⟨(claims n member).1, (claims n member).2.2⟩
  · intro n c owned
    by_cases taken : n ∈ own
    · rw [(claims n taken).2.2] at owned
      cases Option.some.inj owned
      exact ⟨by simp, by rw [new]; exact taken⟩
    · rw [keeps n taken] at owned
      obtain ⟨lt, member⟩ := handed.listed n c owned
      exact ⟨by simp; omega, (old c lt) ▸ member⟩
  · intro c lt
    rcases Nat.lt_succ_iff_lt_or_eq.mp (by simpa using lt) with lt | rfl
    · rw [old c lt]
      exact handed.nodup c lt
    · rw [new]
      exact nodup

theorem claimAll_spec (nodeIds : Array Label) (classes : List EClass) :
    ∀ {c : Nat} {owner after : Array (Option Nat)} {members out : Array (List Nat)},
      claimAll nodeIds classes c owner members = .ok (out, after) → c = members.size →
      owner.size = nodeIds.size → Handed owner members →
      after.size = nodeIds.size ∧ out.size = members.size + classes.length ∧ Handed after out := by
  induction classes with
  | nil =>
      intro c owner after members out claimed _ sizes handed
      simp only [claimAll, Except.ok.injEq, Prod.mk.injEq] at claimed
      obtain ⟨rfl, rfl⟩ := claimed
      exact ⟨sizes, by simp, handed⟩
  | cons cls rest ih =>
      intro c owner after members out claimed here sizes handed
      subst here
      simp only [claimAll] at claimed
      split at claimed
      · simp at claimed
      · rename_i own next taken
        obtain ⟨size, nodup, claims, keeps⟩ :=
          claimMembers_spec nodeIds cls.id members.size cls.nodes taken sizes
        obtain ⟨sizeAfter, sizeOut, handedOut⟩ := ih claimed (by simp) (size.trans sizes)
          (handed.push size nodup claims keeps)
        refine ⟨sizeAfter, ?_, handedOut⟩
        rw [sizeOut, Array.size_push, List.length_cons]
        omega

theorem unowned_eq_nil {nodeIds : Array Label} {owner : Array (Option Nat)}
    (none_left : unowned nodeIds owner = []) {n : Nat} (inside : n < nodeIds.size) :
    ∃ c, owner.getD n none = some c := by
  simp only [unowned, List.map_eq_nil_iff, List.filter_eq_nil_iff, List.mem_range] at none_left
  exact Option.isSome_iff_exists.mp
    (by simpa [← Option.isSome_iff_ne_none] using none_left n inside)

/-! ## The arena -/

/-- The steps that make an arena, none of which failed. -/
structure Arranged (classes : List EClass) (nodes : List ENode) (root : Label) (a : Arena)
    (classIds : Array Label) (index : NodeIndex) (members : Array (List Nat))
    (owner : Array (Option Nat)) : Prop where
  indexedClasses : indexClasses classes #[] = .ok classIds
  indexedNodes : indexNodes classIds nodes {} = .ok index
  claimed : claimAll index.ids classes 0 (Array.replicate index.ids.size none) #[] =
    .ok (members, owner)
  none_left : unowned index.ids owner = []
  root_found : position? classIds root = some a.root
  arena_eq : a = ⟨classIds, index.ids, index.ops, index.children,
    owner.map fun c => c.getD classIds.size, members, a.root⟩

theorem arrange_steps {classes : List EClass} {nodes : List ENode} {root : Label} {a : Arena}
    (arranged : arrange classes nodes root = .ok a) :
    ∃ classIds index members owner, Arranged classes nodes root a classIds index members owner := by
  simp only [arrange, bind, Except.bind] at arranged
  split at arranged
  · simp at arranged
  · rename_i classIds indexedClasses
    split at arranged
    · simp at arranged
    · rename_i index indexedNodes
      split at arranged
      · simp at arranged
      · rename_i claimed claims
        obtain ⟨members, owner⟩ := claimed
        dsimp only at arranged
        split at arranged
        · simp at arranged
        · rename_i none_left
          split at arranged
          · simp at arranged
          · rename_i r found
            simp only [pure, Except.pure, Except.ok.injEq] at arranged
            subst arranged
            exact ⟨classIds, index, members, owner, indexedClasses, indexedNodes, claims,
              none_left, found, rfl⟩

section Arranged

variable {classes : List EClass} {nodes : List ENode} {root : Label} {a : Arena}
  {classIds : Array Label} {index : NodeIndex} {members : Array (List Nat)}
  {owner : Array (Option Nat)}

theorem Arranged.handed (steps : Arranged classes nodes root a classIds index members owner) :
    owner.size = index.ids.size ∧ members.size = classIds.size ∧ Handed owner members := by
  have nobody : Handed (Array.replicate index.ids.size none) #[] := by
    refine ⟨by simp, ?_, by simp⟩
    intro n c owned
    by_cases inside : n < index.ids.size <;> simp [Array.getD, inside] at owned
  obtain ⟨ownerSize, membersSize, handed⟩ :=
    claimAll_spec index.ids classes steps.claimed (by simp) (by simp) nobody
  obtain ⟨_, classCount⟩ := indexClasses_spec classes steps.indexedClasses Label.distinct_empty
  refine ⟨ownerSize, ?_, handed⟩
  rw [membersSize, classCount]
  simp

theorem Arranged.ownerOf (steps : Arranged classes nodes root a classIds index members owner)
    {n : Nat} (inside : n < index.ids.size) : owner.getD n none = some (a.ownerOf n) := by
  obtain ⟨c, owned⟩ := unowned_eq_nil steps.none_left inside
  have insideOwner : n < owner.size := steps.handed.1 ▸ inside
  rw [steps.arena_eq, owned]
  simp only [Array.getD_eq_getD_getElem?, getElem?_pos owner n insideOwner, Option.getD_some]
    at owned
  simp [Arena.ownerOf, insideOwner, owned]

end Arranged

/-- The arena lists what it was made from, in order. -/
structure Lists (a : Arena) (classes : List EClass) (nodes : List ENode) (root : Label) : Prop where
  classIds_eq : a.classIds.toList = classes.map EClass.id
  nodeIds_eq : a.nodeIds.toList = nodes.map ENode.id
  ops_eq : a.ops.toList = nodes.map ENode.op
  children : List.Forall₂ (Resolves a.classIds) nodes a.children.toList
  members : List.Forall₂ (Claims a.nodeIds) classes a.members.toList
  root_found : position? a.classIds root = some a.root

theorem arrange_lists {classes : List EClass} {nodes : List ENode} {root : Label} {a : Arena}
    (arranged : arrange classes nodes root = .ok a) : Lists a classes nodes root := by
  obtain ⟨classIds, index, members, owner, steps⟩ := arrange_steps arranged
  have rooted := steps.root_found
  have classList := indexClasses_listed classes steps.indexedClasses
  obtain ⟨nodeList, opList, children, childList, resolves⟩ :=
    indexNodes_listed classIds nodes steps.indexedNodes
  obtain ⟨owns, memberList, claims⟩ := claimAll_listed index.ids classes steps.claimed
  rw [List.nil_append] at classList nodeList opList childList memberList
  rw [steps.arena_eq]
  exact ⟨classList, nodeList, opList, childList ▸ resolves, memberList ▸ claims, rooted⟩

theorem arrange_wellFormed {classes : List EClass} {nodes : List ENode} {root : Label} {a : Arena}
    (arranged : arrange classes nodes root = .ok a) : a.WellFormed := by
  obtain ⟨classIds, index, members, owner, steps⟩ := arrange_steps arranged
  obtain ⟨ownerSize, sameCount, handed⟩ := steps.handed
  have sound := indexNodes_sound classIds nodes steps.indexedNodes
    ⟨rfl, rfl, by simp, Label.distinct_empty⟩
  have ownerOf := fun n (inside : n < index.ids.size) => steps.ownerOf inside
  have distinct := (indexClasses_spec classes steps.indexedClasses Label.distinct_empty).1
  have root_lt := (Label.position?_eq_some steps.root_found).1
  rw [steps.arena_eq] at ownerOf ⊢
  refine
    { ops_size := sound.ops_size
      children_size := sound.children_size
      owner_size := by simpa [Arena.numNodes] using ownerSize
      members_size := sameCount
      root_lt := root_lt
      child_lt := ?_
      owner_lt := ?_
      member_lt := ?_
      member_iff := ?_
      members_nodup := fun c lt => handed.nodup c (sameCount ▸ lt)
      classIds_distinct := distinct
      nodeIds_distinct := sound.distinct }
  · intro n inside c child
    have insideChildren : n < index.children.size := sound.children_size ▸ inside
    simp only [Arena.childrenOf, Array.getD, insideChildren, dif_pos] at child
    exact sound.child_lt _ (Array.getElem_mem insideChildren) c child
  · intro n inside
    exact lt_of_lt_of_eq (handed.listed n _ (ownerOf n inside)).1 sameCount
  · intro c lt n member
    exact lt_of_lt_of_eq (handed.owned c (sameCount ▸ lt) n member).1 ownerSize
  · intro c lt n inside
    constructor
    · intro member
      have owned := (handed.owned c (sameCount ▸ lt) n member).2
      exact Option.some.inj ((ownerOf n inside).symm.trans owned)
    · intro owns
      rw [← owns]
      exact (handed.listed n _ (ownerOf n inside)).2

theorem ofArena_spec {a : Arena} {root : Label} {g : EGraph} (made : ofArena a root = .ok g) :
    g.toArena = a ∧ g.levels = Levels.ofArena a ∧ ∃ h, g.classLevel g.root = .finite h := by
  simp only [ofArena] at made
  split at made
  · rename_i h finite
    simp only [Except.ok.injEq] at made
    subst made
    exact ⟨rfl, rfl, h, finite⟩
  · simp at made

namespace Accepted

variable {g : EGraph}

theorem wellFormed (accepted : g.Accepted) : g.toArena.WellFormed := by
  obtain ⟨classes, nodes, root, built⟩ := accepted
  simp only [build, bind, Except.bind] at built
  split at built
  · simp at built
  · rename_i a arranged
    rw [(ofArena_spec built).1]
    exact arrange_wellFormed arranged

theorem levels_eq (accepted : g.Accepted) : g.levels = Levels.ofArena g.toArena := by
  obtain ⟨classes, nodes, root, built⟩ := accepted
  simp only [build, bind, Except.bind] at built
  split at built
  · simp at built
  · obtain ⟨arena, levels, _⟩ := ofArena_spec built
    rw [levels, arena]

theorem root_finite (accepted : g.Accepted) : ∃ h, g.classLevel g.root = .finite h := by
  obtain ⟨classes, nodes, root, built⟩ := accepted
  simp only [build, bind, Except.bind] at built
  split at built
  · simp at built
  · exact (ofArena_spec built).2.2

theorem of_arranged {classes : List EClass} {nodes : List ENode} {root : Label}
    (arranged : arrange classes nodes root = .ok g.toArena)
    (levels : Levels.ofArena g.toArena = g.levels) (finite : ∃ h, g.classLevel g.root = .finite h) :
    g.Accepted := by
  obtain ⟨h, finite⟩ := finite
  have finite : (Levels.ofArena g.toArena).classLevel g.root = .finite h := levels.symm ▸ finite
  refine ⟨classes, nodes, root, ?_⟩
  simp only [build, arranged, bind, Except.bind, ofArena, finite]
  rw [levels]

theorem of_settled {classes : List EClass} {nodes : List ENode} {root : Label}
    (arranged : arrange classes nodes root = .ok g.toArena) (passes : Nat)
    (levels : Levels.settledWithin g.toArena passes (Levels.unknown g.toArena) = some g.levels)
    (finite : ∃ h, g.classLevel g.root = .finite h) : g.Accepted :=
  of_arranged arranged (Levels.settle_of_within passes levels) finite

end Accepted

/-! ## A graph with a cycle -/

/-- Two classes, each with a leaf and a node that refers to the other class. -/
def loopGraph : EGraph where
  classIds := #[.text "a", .text "b"]
  nodeIds := #[.text "f", .text "x", .text "g", .text "y"]
  ops := #[.text "f", .text "x", .text "g", .text "y"]
  children := #[[1], [], [0], []]
  owner := #[0, 0, 1, 1]
  members := #[[0, 1], [2, 3]]
  root := 0
  levels := ⟨#[.finite 0, .finite 0], #[.finite 1, .finite 0, .finite 1, .finite 0]⟩

theorem loopGraph_accepted : loopGraph.Accepted := by
  have arranged : arrange [⟨.text "a", [.text "f", .text "x"]⟩, ⟨.text "b", [.text "g", .text "y"]⟩]
      [⟨.text "f", .text "f", [.text "b"]⟩, ⟨.text "x", .text "x", []⟩,
        ⟨.text "g", .text "g", [.text "a"]⟩, ⟨.text "y", .text "y", []⟩] (.text "a") =
      .ok loopGraph.toArena := by
    with_unfolding_all rfl
  exact .of_settled arranged 3 rfl ⟨0, rfl⟩

theorem loopGraph_checkable : loopGraph.Checkable :=
  checkable_of_labels (by simp [loopGraph, Label.key, Label.Key.isNaN])

/-! ## A class that differs from itself -/

/-- One class with one leaf, called by the label that is not a number. -/
def unequalGraph : EGraph where
  classIds := #[.number (.float (0 / 0))]
  nodeIds := #[.text "x"]
  ops := #[.text "x"]
  children := #[[]]
  owner := #[0]
  members := #[[0]]
  root := 0
  levels := ⟨#[.finite 0], #[.finite 0]⟩

theorem unequalGraph_accepted : unequalGraph.Accepted := by
  have arranged : arrange [⟨.number (.float (0 / 0)), [.text "x"]⟩] [⟨.text "x", .text "x", []⟩]
      (.number (.float (0 / 0))) = .ok unequalGraph.toArena := by
    with_unfolding_all rfl
  exact .of_settled arranged 2 rfl ⟨0, rfl⟩

theorem unequalGraph_named : unequalGraph.Named :=
  named_of_labels (by simp [unequalGraph])

theorem unequalGraph_root : unequalGraph.rootLabel.key.isNaN = true := by
  with_unfolding_all rfl

end EGraph

end EGraphSearch
