import EGraphSearch.Proofs.Digraph.Distances
import EGraphSearch.Proofs.EGraph.Tables
import EGraphSearch.Proofs.Tracker.Twins

/-!
# Reachable classes, breadth first

From every class that callers can name, the search lists that class first and then exactly the
classes that it leads to, each once and the nearest ones first.  The empty label stands for the
root, from which everything is listed that a partial extraction ever resolves.
-/

set_option autoImplicit false

namespace EGraphSearch

open Relation (ReflTransGen)

namespace EGraph

variable {g : EGraph} {c d : Nat}

/-! ## The classes as a digraph -/

def Refers (g : EGraph) (c d : Nat) : Prop := ∃ n ∈ g.membersOf c, d ∈ g.childrenOf n

def references (g : EGraph) : Digraph :=
  ⟨((List.range g.numClasses).map g.dependencies).toArray⟩

theorem size_references (g : EGraph) : g.references.size = g.numClasses := by
  simp [references, Digraph.size]

theorem next_references (wf : g.toArena.WellFormed) : g.references.next = g.dependencies := by
  funext c
  by_cases inside : c < g.numClasses
  · simp [references, Digraph.next, Array.getD, inside]
  · have memberless : g.membersOf c = [] := membersOf_of_le wf (Nat.le_of_not_lt inside)
    rw [Digraph.next_eq_nil (size_references g ▸ inside), Arena.dependencies, memberless]
    rfl

theorem edge_references (wf : g.toArena.WellFormed) : g.references.Edge = g.Refers := by
  funext c d
  rw [Digraph.Edge, next_references wf]
  exact propext List.mem_flatMap

theorem reachableFrom_references (wf : g.toArena.WellFormed) (c : Nat) :
    g.references.reachableFrom c = g.reachableFrom c := by
  have expand : g.references.expanded = g.expandAt := by
    funext found position
    rw [Digraph.expanded, next_references wf]
    rfl
  rw [Digraph.reachableFrom_eq, size_references, expand]
  rfl

theorem Refers.lt (wf : g.toArena.WellFormed) (refers : g.Refers c d) : d < g.numClasses := by
  rw [← edge_references wf, Digraph.Edge, next_references wf] at refers
  obtain ⟨n, member, child⟩ := List.mem_flatMap.mp refers
  by_cases inside : c < g.numClasses
  · exact wf.child_lt n (wf.member_lt c inside n member) d child
  · rw [membersOf_of_le wf (Nat.le_of_not_lt inside)] at member
    cases member

/-! ## The order of the search -/

/-- A list of the classes that a class leads to, breadth first. -/
structure BreadthFirst (g : EGraph) (c : Nat) (found : List Nat) : Prop where
  first : found.head? = some c
  nodup : found.Nodup
  mem_iff : ∀ d, d ∈ found ↔ ReflTransGen g.Refers c d
  nearest : found.Pairwise fun d e => distance g.Refers c d ≤ distance g.Refers c e
  /-- No position is left to expand when the search ends. -/
  length_le : found.length ≤ g.numClasses

theorem breadthFirst_reachableFrom (wf : g.toArena.WellFormed) (inside : c < g.numClasses) :
    BreadthFirst g c (g.reachableFrom c) := by
  have bounded : ∀ v, ∀ w ∈ g.references.next v, w < g.references.size := by
    intro v w edge
    rw [size_references]
    exact Refers.lt wf ((edge_references wf ▸ edge : g.Refers v w))
  have insideReferences : c < g.references.size := size_references g ▸ inside
  rw [← reachableFrom_references wf]
  refine ⟨Digraph.head?_reachableFrom _ c, Digraph.reachableFrom_nodup _ c, ?_, ?_, ?_⟩
  · rw [← edge_references wf]
    exact Digraph.mem_reachableFrom_iff_of_bounded bounded insideReferences
  · rw [← edge_references wf]
    exact Digraph.reachableFrom_sorted _ c
  · rw [← size_references]
    exact (Digraph.reachableFrom_inside bounded insideReferences).2

/-! ## What extraction resolves -/

theorem Reaches.refers (reached : g.Reaches c) : ReflTransGen g.Refers g.root c := by
  induction reached with
  | root => exact .refl
  | child _ member child ih => exact ih.tail ⟨_, member, child⟩

/-- Whatever a partial extraction has resolved is among the classes that the root leads to. -/
theorem BreadthFirst.resolved (wf : g.toArena.WellFormed) {found : List Nat}
    (listed : BreadthFirst g g.root found) {moves : List Nat} {t : Tracker}
    (run : Tracker.Leads g (Tracker.start g) moves t) (chosen : (t.choice c).isSome) :
    c ∈ found := by
  obtain ⟨n, chosen⟩ := Option.isSome_iff_exists.mp chosen
  have inv := run.inv wf (Tracker.inv_start wf)
  exact (listed.mem_iff c).mpr (inv.offers wf chosen).reached.refers

/-! ## The search by name -/

theorem reachableFromLabel_named {cls : Label} (named : cls ≠ .none)
    (found : g.classIndex cls = .ok c) :
    g.reachableFromLabel cls = .ok ((g.reachableFrom c).map g.classLabel) := by
  have asked : g.reachableFromLabel cls = g.reachableClasses (some cls) := by
    unfold reachableFromLabel
    split
    · exact absurd rfl named
    · rfl
  rw [asked, reachableClasses, found]
  rfl

/-- The classes that a class leads to are listed breadth first, under whatever label callers name
it; only the empty label names no class but stands for the root.  From the root everything is listed
that extraction ever resolves. -/
theorem reachable_classes_are_breadth_first (accepted : g.Accepted) :
    (∀ cls c, cls ≠ .none → g.classIndex cls = .ok c →
      ∃ found, g.reachableFromLabel cls = .ok (found.map g.classLabel) ∧ BreadthFirst g c found) ∧
    ∃ found, g.reachableFromLabel .none = .ok (found.map g.classLabel) ∧
      BreadthFirst g g.root found ∧
      ∀ moves t, Tracker.Leads g (Tracker.start g) moves t →
        ∀ c, (t.choice c).isSome → c ∈ found := by
  have wf := accepted.wellFormed
  constructor
  · intro cls c named found
    exact ⟨g.reachableFrom c, reachableFromLabel_named named found,
      breadthFirst_reachableFrom wf (classIndex_lt found)⟩
  · have fromRoot := breadthFirst_reachableFrom wf wf.root_lt
    exact ⟨g.reachableFrom g.root, rfl, fromRoot, fun _ _ run _ chosen =>
      fromRoot.resolved wf run chosen⟩

/-- From `b` the cycle leads back to the root. -/
theorem reachable_classes_are_breadth_first_loop :
    loopGraph.Accepted ∧ (.text "b" : Label) ≠ .none ∧ loopGraph.classIndex (.text "b") = .ok 1 ∧
      (∃ found, loopGraph.reachableFromLabel (.text "b") = .ok (found.map loopGraph.classLabel) ∧
        BreadthFirst loopGraph 1 found) ∧
      ∃ t found, Tracker.Leads loopGraph (Tracker.start loopGraph) [0] t ∧
        loopGraph.reachableFromLabel .none = .ok (found.map loopGraph.classLabel) ∧
        BreadthFirst loopGraph 0 found ∧ (t.choice 0).isSome ∧ 0 ∈ found := by
  obtain ⟨named, found, listed, fromRoot, resolved⟩ :=
    reachable_classes_are_breadth_first loopGraph_accepted
  have index : loopGraph.classIndex (.text "b") = .ok 1 := by with_unfolding_all rfl
  have run : Tracker.Leads loopGraph (Tracker.start loopGraph) [0]
      ⟨#[some 0, none], [0], #[true, false], [⟨0, 0, 0⟩], some 1⟩ :=
    .move (by decide) rfl (.stay _)
  exact ⟨loopGraph_accepted, by simp, index, named _ 1 (by simp) index, _, found, run, listed,
    fromRoot, rfl, resolved _ _ run 0 rfl⟩

/-- A graph with a class under the empty label, which is not the root. -/
def blankGraph : EGraph where
  classIds := #[.text "a", .none]
  nodeIds := #[.text "x", .text "y"]
  ops := #[.text "x", .text "y"]
  children := #[[], []]
  owner := #[0, 1]
  members := #[[0], [1]]
  root := 0
  levels := ⟨#[.finite 0, .finite 0], #[.finite 0, .finite 0]⟩

theorem blankGraph_accepted : blankGraph.Accepted := by
  have arranged : arrange [⟨.text "a", [.text "x"]⟩, ⟨.none, [.text "y"]⟩]
      [⟨.text "x", .text "x", []⟩, ⟨.text "y", .text "y", []⟩] (.text "a") =
      .ok blankGraph.toArena := by
    with_unfolding_all rfl
  exact .of_settled arranged 2 rfl ⟨0, rfl⟩

/-- The class under the empty label is not listed when callers name it. -/
theorem blank_class_is_not_named :
    blankGraph.Accepted ∧ blankGraph.classIndex .none = .ok 1 ∧
      blankGraph.reachableFromLabel .none = .ok [.text "a"] ∧
      ¬ ∃ found, blankGraph.reachableFromLabel .none = .ok (found.map blankGraph.classLabel) ∧
        BreadthFirst blankGraph 1 found := by
  have answer : blankGraph.reachableFromLabel .none = .ok [.text "a"] := by with_unfolding_all rfl
  refine ⟨blankGraph_accepted, by with_unfolding_all rfl, answer, ?_⟩
  rintro ⟨found, listed, breadth⟩
  have same := congrArg List.head? (Except.ok.inj (answer.symm.trans listed))
  rw [List.head?_map, breadth.first] at same
  exact absurd same (by simp [blankGraph, Arena.classLabel])

end EGraph

end EGraphSearch
