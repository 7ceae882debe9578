import EGraphSearch.Proofs.Naming
import EGraphSearch.Proofs.Tree.Choosing
import EGraphSearch.Tree.Statistics
import Mathlib.Algebra.BigOperators.Group.List.Basic
import Mathlib.Algebra.Ring.Nat

/-!
# What the statistics by class add up

The statistics by class are written node by node.  The visits that they hold for a class are the
visits of all nodes of the tree that resolve the class, apart from the root.
-/

set_option autoImplicit false

namespace EGraphSearch

/-! ## Writing to tables -/

namespace Table

variable {α β : Type}

theorem get?_put (t : Table β) (key : Label) (value : β) (other : Label) :
    (t.put key value).get? other = if key == other then some value else t.get? other := by
  induction t with
  | nil => rfl
  | cons entry rest ih =>
      obtain ⟨k, v⟩ := entry
      by_cases here : (k == key) = true
      · have agree : (k == other) = (key == other) := by
          rw [Bool.eq_iff_iff, Label.beq_iff_key_eq, Label.beq_iff_key_eq,
            (Label.beq_iff_key_eq _ _).mp here]
        simp only [put, here, if_true, get?, agree]
        split <;> rfl
      · rw [put, if_neg here, get?, get?, ih]
        by_cases there : (k == other) = true
        · have apart : (key == other) = false := by
            rw [Bool.eq_false_iff]
            intro same
            refine here ((Label.beq_iff_key_eq _ _).mpr ?_)
            exact ((Label.beq_iff_key_eq _ _).mp there).trans
              ((Label.beq_iff_key_eq _ _).mp same).symm
          simp [there, apart]
        · simp [there]

theorem sum_put (t : Table β) (key : Label) (value : β) (weight : β → Nat) :
    ((t.put key value).values.map weight).sum + ((t.get? key).map weight).getD 0 =
      (t.values.map weight).sum + weight value := by
  induction t with
  | nil => simp [put, values, get?]
  | cons entry rest ih =>
      obtain ⟨k, v⟩ := entry
      by_cases here : (k == key) = true
      · simp only [put, here, if_true, get?, values, List.map_cons, List.sum_cons, Option.map_some,
          Option.getD_some]
        omega
      · simp only [values] at ih
        simp only [put, here, get?, values, List.map_cons, List.sum_cons, if_false,
          Bool.false_eq_true]
        omega

theorem get?_filterMap (t : Table β) (keys : List Label) (key : Label) :
    get? (keys.filterMap fun k => (t.get? k).map fun value => (k, value)) key =
      if keys.any (· == key) then t.get? key else none := by
  induction keys with
  | nil => rfl
  | cons first rest ih =>
      by_cases here : (first == key) = true
      · have same := get?_congr t ((Label.beq_iff_key_eq _ _).mp here)
        cases found : t.get? first with
        | none => simp [found, ih, ← same]
        | some value => simp [found, get?, here, ← same]
      · cases found : t.get? first with
        | none => simp [found, ih, here]
        | some value => simp [found, get?, here, ih]

end Table

/-! ## Visits by class -/

namespace Tree

variable {α : Type} [Scalar α] {t : Tree α} {g : EGraph}

omit [Scalar α] in
/-- The visits that statistics by class hold for a class. -/
def visitsOf (stats : Table (Table (Usage α))) (cls : Label) : Nat :=
  (((stats.get? cls).getD []).values.map Usage.visits).sum

theorem visitsOf_addUsage (stats : Table (Table (Usage α))) (n : SearchNode α) (cls : Label) :
    visitsOf (addUsage stats n) cls =
      visitsOf stats cls + if n.cls == cls then n.visits else 0 := by
  simp only [visitsOf, addUsage, Table.get?_put]
  by_cases here : (n.cls == cls) = true
  · have same := Table.get?_congr stats ((Label.beq_iff_key_eq _ _).mp here)
    have written := fun total => Table.sum_put ((stats.get? n.cls).getD []) n.node
      ⟨((((stats.get? n.cls).getD []).get? n.node).getD ⟨0, Scalar.zero⟩).visits + n.visits, total⟩
      Usage.visits
    simp only [here, if_true, Option.getD_some, ← same]
    generalize (stats.get? n.cls).getD [] = ofClass at written ⊢
    have added := written
      (((ofClass.get? n.node).getD ⟨0, Scalar.zero⟩).total + n.total)
    cases found : ofClass.get? n.node with
    | none =>
        simp only [found, Option.map_none, Option.getD_none] at added ⊢
        omega
    | some usage =>
        simp only [found, Option.map_some, Option.getD_some] at added ⊢
        omega
  · simp [here]

theorem visitsOf_foldl (nodes : List (SearchNode α)) (cls : Label) :
    ∀ stats : Table (Table (Usage α)), visitsOf (nodes.foldl addUsage stats) cls =
      visitsOf stats cls + (nodes.map fun n => if n.cls == cls then n.visits else 0).sum := by
  induction nodes with
  | nil => exact fun _ => rfl
  | cons n rest ih =>
      intro stats
      rw [List.foldl_cons, ih, visitsOf_addUsage, List.map_cons, List.sum_cons, Nat.add_assoc]

theorem toList_nodes (t : Tree α) : t.nodes.toList = (List.range t.size).map t.node := by
  refine List.ext_getElem? fun i => ?_
  rw [Array.getElem?_toList, List.getElem?_map]
  by_cases inside : i < t.size
  · rw [node_eq inside, List.getElem?_range inside]
    rfl
  · have outside := Nat.not_lt.mp inside
    rw [Array.getElem?_eq_none outside, List.getElem?_eq_none (by simpa using outside)]
    rfl

/-- The visits of a class are those of all nodes but the root that resolve it. -/
theorem visitsOf_usageByClass (t : Tree α) (cls : Label) :
    visitsOf t.usageByClass cls = ((List.range' 1 (t.size - 1)).map fun v =>
      if (t.node v).cls == cls then (t.node v).visits else 0).sum := by
  have nothing : visitsOf ([] : Table (Table (Usage α))) cls = 0 := rfl
  rw [usageByClass, visitsOf_foldl, nothing, Nat.zero_add, toList_nodes, List.range_eq_range',
    ← List.map_drop, List.drop_range', List.map_map, Nat.zero_add]
  rfl

theorem visitsOf_classStatistics (t : Tree α) (g : EGraph) (cls : Label) :
    visitsOf (t.classStatistics g) cls =
      if g.classIds.toList.any (· == cls) then visitsOf t.usageByClass cls else 0 := by
  rw [visitsOf, classStatistics, Table.get?_filterMap]
  split
  · rfl
  · rfl

end Tree

end EGraphSearch
