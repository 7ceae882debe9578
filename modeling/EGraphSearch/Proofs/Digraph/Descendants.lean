import EGraphSearch.Proofs.Digraph.Acyclicity
import Mathlib.Data.List.Nodup

/-!
# Descendants are what edges lead to

The list of the vertices found so far is its own queue.  Whatever stands in it is reached from the
start, and once a position has been expanded all successors of its vertex are in the list.  No
vertex is listed twice, so after as many positions as there are vertices the list is closed.
-/

set_option autoImplicit false

namespace EGraphSearch.Digraph

open Relation (ReflTransGen)

variable {d : Digraph}

/-- Appends a vertex that is not yet listed. -/
def listed (found : List Nat) (w : Nat) : List Nat :=
  if found.contains w then found else found ++ [w]

/-- Appends the successors of the vertex at a position. -/
def expanded (d : Digraph) (found : List Nat) (position : Nat) : List Nat :=
  match found[position]? with
  | none => found
  | some v => (d.next v).foldl listed found

theorem reachableFrom_eq (d : Digraph) (start : Nat) :
    d.reachableFrom start = (List.range d.size).foldl d.expanded [start] := rfl

theorem listed_spec (found : List Nat) (w : Nat) :
    found <+: listed found w ∧ (found.Nodup → (listed found w).Nodup) ∧
      ∀ v, v ∈ listed found w ↔ v ∈ found ∨ v = w := by
  unfold listed
  split
  · rename_i member
    have member : w ∈ found := by simpa using member
    refine ⟨List.prefix_rfl, id, fun v => ⟨.inl, ?_⟩⟩
    rintro (h | rfl) <;> assumption
  · rename_i absent
    have absent : w ∉ found := by simpa using absent
    refine ⟨List.prefix_append _ _, ?_, by simp⟩
    intro nodup
    refine List.nodup_append.mpr ⟨nodup, by simp, ?_⟩
    intro a ha b hb same
    exact absent (List.mem_singleton.mp hb ▸ same ▸ ha)

theorem foldl_listed_spec (heads : List Nat) :
    ∀ found : List Nat, found <+: heads.foldl listed found ∧
      (found.Nodup → (heads.foldl listed found).Nodup) ∧
      ∀ v, v ∈ heads.foldl listed found ↔ v ∈ found ∨ v ∈ heads := by
  induction heads with
  | nil => simp
  | cons w rest ih =>
      intro found
      obtain ⟨pre, nodup, mem⟩ := listed_spec found w
      obtain ⟨preRest, nodupRest, memRest⟩ := ih (listed found w)
      rw [List.foldl_cons]
      refine ⟨pre.trans preRest, fun h => nodupRest (nodup h), ?_⟩
      intro v
      rw [memRest, mem, List.mem_cons, or_assoc]

theorem expanded_spec (found : List Nat) (position : Nat) :
    found <+: d.expanded found position ∧
      (found.Nodup → (d.expanded found position).Nodup) ∧
      ∀ w, w ∈ d.expanded found position ↔
        w ∈ found ∨ ∃ v, found[position]? = some v ∧ d.Edge v w := by
  unfold expanded
  cases at_ : found[position]? with
  | none => simp
  | some v =>
      obtain ⟨pre, nodup, mem⟩ := foldl_listed_spec (d.next v) found
      refine ⟨pre, nodup, fun w => ?_⟩
      rw [mem]
      simp [Edge]

/-- The search after it has expanded the first `k` positions. -/
structure Searching (d : Digraph) (start k : Nat) (found : List Nat) : Prop where
  nodup : found.Nodup
  start_mem : start ∈ found
  reached : ∀ v ∈ found, ReflTransGen d.Edge start v
  closed : ∀ i < k, ∀ v, found[i]? = some v → ∀ w, d.Edge v w → w ∈ found

theorem Searching.step {start k : Nat} {found : List Nat} (searching : Searching d start k found) :
    Searching d start (k + 1) (d.expanded found k) := by
  obtain ⟨pre, nodup, mem⟩ := expanded_spec (d := d) found k
  refine ⟨nodup searching.nodup, pre.subset searching.start_mem, ?_, ?_⟩
  · intro w member
    rcases (mem w).mp member with old | ⟨v, at_, edge⟩
    · exact searching.reached w old
    · exact (searching.reached v (List.mem_of_getElem? at_)).tail edge
  · intro i hi v at_ w edge
    by_cases inside : i < found.length
    · have same : found[i]? = some v := by
        obtain ⟨more, eq⟩ := pre
        rw [← eq, List.getElem?_append_left inside] at at_
        exact at_
      rcases Nat.lt_succ_iff_lt_or_eq.mp hi with lt | rfl
      · exact pre.subset (searching.closed i lt v same w edge)
      · exact (mem w).mpr (.inr ⟨v, same, edge⟩)
    · have none_here : found[k]? = none := by
        rw [List.getElem?_eq_none_iff]
        omega
      have unchanged : d.expanded found k = found := by
        simp [expanded, none_here]
      rw [unchanged] at at_ ⊢
      rw [List.getElem?_eq_none_iff.mpr (by omega)] at at_
      simp at at_

theorem searching_range (start k : Nat) :
    Searching d start k ((List.range k).foldl d.expanded [start]) := by
  induction k with
  | zero =>
      refine ⟨by simp, by simp, ?_, by simp⟩
      intro v member
      rw [List.mem_singleton.mp member]
  | succ k ih =>
      rw [List.range_succ, List.foldl_append]
      exact ih.step

theorem length_le_of_lt {vertices : List Nat} {size : Nat} (nodup : vertices.Nodup)
    (inside : ∀ v ∈ vertices, v < size) : vertices.length ≤ size := by
  have sub : vertices ⊆ List.range size := fun v hv => List.mem_range.mpr (inside v hv)
  simpa using nodup.length_le_of_subset sub

/-- Edges that end in vertices lead to vertices only, so the search expands every position. -/
theorem reachableFrom_inside (bounded : ∀ v, ∀ w ∈ d.next v, w < d.size) {start : Nat}
    (inside : start < d.size) :
    (∀ v ∈ d.reachableFrom start, v < d.size) ∧ (d.reachableFrom start).length ≤ d.size := by
  have searching := searching_range (d := d) start d.size
  rw [← reachableFrom_eq] at searching
  have lt : ∀ v ∈ d.reachableFrom start, v < d.size := by
    intro v member
    rcases (searching.reached v member).cases_tail with same | ⟨u, _, edge⟩
    · exact same ▸ inside
    · exact bounded u v edge
  exact ⟨lt, length_le_of_lt searching.nodup lt⟩

theorem mem_reachableFrom_iff_of_bounded (bounded : ∀ v, ∀ w ∈ d.next v, w < d.size) {start : Nat}
    (inside : start < d.size) (v : Nat) :
    v ∈ d.reachableFrom start ↔ ReflTransGen d.Edge start v := by
  have searching := searching_range (d := d) start d.size
  rw [← reachableFrom_eq] at searching
  have short := (reachableFrom_inside bounded inside).2
  refine ⟨searching.reached v, ?_⟩
  intro walk
  induction walk with
  | refl => exact searching.start_mem
  | tail _ edge ih =>
      obtain ⟨i, hi, at_⟩ := List.getElem_of_mem ih
      exact searching.closed i (by omega) _ (by rw [List.getElem?_eq_getElem hi, at_]) _ edge

/-- The vertices found from a vertex are those that it leads to. -/
theorem mem_reachableFrom_iff (proper : d.Proper) {start : Nat} (inside : start < d.size)
    (v : Nat) :
    v ∈ d.reachableFrom start ↔ ReflTransGen d.Edge start v :=
  mem_reachableFrom_iff_of_bounded proper.next_lt inside v

end EGraphSearch.Digraph
