import EGraphSearch.Proofs.Digraph.Descendants
import Mathlib.Order.Lattice.Nat

/-!
# Descendants are listed nearest first

The distance of a vertex is the least number of edges that lead to it.  When a position comes up for
expansion, everything that is no farther than its vertex stands in the list already, and nothing in
the list is more than one edge farther.  So whatever is appended is exactly one edge farther, and
the list stays in the order of distance.
-/

set_option autoImplicit false

namespace EGraphSearch

open Relation (ReflTransGen)

/-! ## Steps and distances -/

section Distance

variable {α : Type} {r : α → α → Prop} {start v w : α} {k : Nat}

inductive Steps (r : α → α → Prop) (start : α) : Nat → α → Prop
  | here : Steps r start 0 start
  | next {k : Nat} {v w : α} (steps : Steps r start k v) (step : r v w) : Steps r start (k + 1) w

theorem reaches_iff_steps : ReflTransGen r start v ↔ ∃ k, Steps r start k v := by
  constructor
  · intro walk
    induction walk with
    | refl => exact ⟨0, .here⟩
    | tail _ step ih =>
        obtain ⟨k, steps⟩ := ih
        exact ⟨k + 1, steps.next step⟩
  · rintro ⟨k, steps⟩
    induction steps with
    | here => exact .refl
    | next _ step ih => exact ih.tail step

noncomputable def distance (r : α → α → Prop) (start v : α) : Nat := sInf {k | Steps r start k v}

theorem Steps.distance_le (steps : Steps r start k v) : distance r start v ≤ k := Nat.sInf_le steps

theorem steps_distance (reached : ReflTransGen r start v) :
    Steps r start (distance r start v) v := Nat.sInf_mem (reaches_iff_steps.mp reached)

theorem distance_next_le (reached : ReflTransGen r start v) (step : r v w) :
    distance r start w ≤ distance r start v + 1 := ((steps_distance reached).next step).distance_le

/-- The last step of a shortest way comes from exactly one step nearer. -/
theorem exists_nearer (reached : ReflTransGen r start w) (away : distance r start w ≠ 0) :
    ∃ v, ReflTransGen r start v ∧ r v w ∧ distance r start w = distance r start v + 1 := by
  have steps := steps_distance reached
  generalize shortest : distance r start w = k at steps away
  cases steps with
  | here => exact absurd rfl away
  | @next k v w steps step =>
      have reachedV := reaches_iff_steps.mpr ⟨k, steps⟩
      refine ⟨v, reachedV, step, ?_⟩
      have near := steps.distance_le
      have far := distance_next_le reachedV step
      omega

end Distance

/-! ## The order of the search -/

namespace Digraph

variable {d : Digraph} {start k : Nat} {found : List Nat}

/-- The list when position `k` comes up for expansion. -/
structure Nearest (d : Digraph) (start k : Nat) (found : List Nat) : Prop where
  sorted : found.Pairwise fun v w => distance d.Edge start v ≤ distance d.Edge start w
  /-- Nothing listed is more than one edge farther than the vertex that comes up. -/
  spread : ∀ u, found[k]? = some u → ∀ v ∈ found,
    distance d.Edge start v ≤ distance d.Edge start u + 1
  /-- What is no farther than the vertex that comes up is listed. -/
  covers : ∀ u, found[k]? = some u → ∀ v, ReflTransGen d.Edge start v →
    distance d.Edge start v ≤ distance d.Edge start u → v ∈ found

theorem nearest_start (d : Digraph) (start : Nat) : Nearest d start 0 [start] := by
  have stays : Steps d.Edge start 0 start := .here
  have here : distance d.Edge start start = 0 := Nat.le_zero.mp stays.distance_le
  refine ⟨List.pairwise_singleton _ _, ?_, ?_⟩
  · intro u _ v member
    rw [List.mem_singleton.mp member, here]
    exact Nat.zero_le _
  · intro u at_ v reached near
    obtain rfl : start = u := Option.some.inj at_
    have steps := steps_distance reached
    rw [Nat.le_zero.mp (near.trans (Nat.le_of_eq here))] at steps
    cases steps
    exact List.mem_singleton_self _

theorem le_of_sorted {f : Nat → Nat} (sorted : found.Pairwise fun v w => f v ≤ f w) {i j v w : Nat}
    (le : i ≤ j) (first : found[i]? = some v) (second : found[j]? = some w) : f v ≤ f w := by
  obtain ⟨insideI, rfl⟩ := List.getElem?_eq_some_iff.mp first
  obtain ⟨insideJ, rfl⟩ := List.getElem?_eq_some_iff.mp second
  rcases Nat.lt_or_eq_of_le le with less | rfl
  · exact List.pairwise_iff_getElem.mp sorted i j insideI insideJ less
  · exact Nat.le_refl _

/-- What an expansion appends is one edge farther than the vertex expanded. -/
theorem Nearest.appended (nearest : Nearest d start k found) (searching : Searching d start k found)
    {u : Nat} (at_ : found[k]? = some u) :
    ∃ more, d.expanded found k = found ++ more ∧
      ∀ w ∈ more, distance d.Edge start w = distance d.Edge start u + 1 := by
  obtain ⟨⟨more, appended⟩, nodup, mem⟩ := expanded_spec (d := d) found k
  refine ⟨more, appended.symm, fun w member => ?_⟩
  have unlisted : w ∉ found := fun listed =>
    (List.nodup_append.mp (appended ▸ nodup searching.nodup)).2.2 w listed w member rfl
  obtain old | ⟨v, same, edge⟩ := (mem w).mp (appended ▸ List.mem_append_right found member)
  · exact absurd old unlisted
  · obtain rfl : u = v := Option.some.inj (at_.symm.trans same)
    have reached := searching.reached u (List.mem_of_getElem? at_)
    have near := distance_next_le reached edge
    have far : ¬ distance d.Edge start w ≤ distance d.Edge start u := fun le =>
      unlisted (nearest.covers u at_ w (reached.tail edge) le)
    omega

theorem Nearest.step (nearest : Nearest d start k found) (searching : Searching d start k found) :
    Nearest d start (k + 1) (d.expanded found k) := by
  cases at_ : found[k]? with
  | none =>
      have unchanged : d.expanded found k = found := by simp [expanded, at_]
      have ended : found[k + 1]? = none := by
        rw [List.getElem?_eq_none_iff] at at_ ⊢
        omega
      rw [unchanged]
      exact ⟨nearest.sorted, by simp [ended], by simp [ended]⟩
  | some u =>
      have next := searching.step
      obtain ⟨more, appended, farther⟩ := nearest.appended searching at_
      rw [appended] at next ⊢
      have sorted : (found ++ more).Pairwise
          fun v w => distance d.Edge start v ≤ distance d.Edge start w := by
        refine List.pairwise_append.mpr ⟨nearest.sorted, ?_, ?_⟩
        · refine List.pairwise_of_forall_mem_list fun v hv w hw => ?_
          rw [farther v hv, farther w hw]
        · intro v hv w hw
          rw [farther w hw]
          exact nearest.spread u at_ v hv
      have spread : ∀ v ∈ found ++ more,
          distance d.Edge start v ≤ distance d.Edge start u + 1 := by
        intro v member
        rcases List.mem_append.mp member with old | new
        · exact nearest.spread u at_ v old
        · exact Nat.le_of_eq (farther v new)
      have here : (found ++ more)[k]? = some u := by
        rw [List.getElem?_append_left (List.getElem?_eq_some_iff.mp at_).1, at_]
      have later : ∀ u', (found ++ more)[k + 1]? = some u' →
          distance d.Edge start u ≤ distance d.Edge start u' := fun u' at' =>
        le_of_sorted sorted (Nat.le_succ k) here at'
      refine ⟨sorted, fun u' at' v member => ?_, fun u' at' v reached near => ?_⟩
      · exact Nat.le_trans (spread v member) (Nat.succ_le_succ (later u' at'))
      · by_cases old : distance d.Edge start v ≤ distance d.Edge start u
        · exact List.mem_append_left _ (nearest.covers u at_ v reached old)
        · -- The vertex before `v` on a shortest way has been expanded, since `u'` is farther.
          have bound := spread u' (List.mem_of_getElem? at')
          obtain ⟨p, reachedP, edge, farP⟩ := exists_nearer reached (by omega)
          have listed := nearest.covers u at_ p reachedP (by omega)
          obtain ⟨i, inside, rfl⟩ := List.getElem_of_mem listed
          have atP : (found ++ more)[i]? = some found[i] := by
            rw [List.getElem?_append_left inside, List.getElem?_eq_getElem inside]
          refine next.closed i ?_ _ atP v edge
          by_contra after
          have farther := le_of_sorted sorted (Nat.le_of_not_lt after) at' atP
          omega

/-- The vertices found from a vertex come in the order of their distance. -/
theorem reachableFrom_sorted (d : Digraph) (start : Nat) :
    (d.reachableFrom start).Pairwise
      fun v w => distance d.Edge start v ≤ distance d.Edge start w := by
  have nearest : ∀ k, Nearest d start k ((List.range k).foldl d.expanded [start]) := by
    intro k
    induction k with
    | zero => exact nearest_start d start
    | succ k ih =>
        rw [List.range_succ, List.foldl_append]
        exact ih.step (searching_range start k)
  rw [reachableFrom_eq]
  exact (nearest d.size).sorted

theorem reachableFrom_nodup (d : Digraph) (start : Nat) : (d.reachableFrom start).Nodup :=
  (searching_range start d.size).nodup

theorem head?_reachableFrom (d : Digraph) (start : Nat) :
    (d.reachableFrom start).head? = some start := by
  have grows : ∀ positions : List Nat, [start] <+: positions.foldl d.expanded [start] := by
    intro positions
    induction positions using List.reverseRecOn with
    | nil => exact List.prefix_rfl
    | append_singleton rest position ih =>
        rw [List.foldl_append]
        exact ih.trans (expanded_spec _ position).1
  obtain ⟨rest, eq⟩ := grows (List.range d.size)
  rw [reachableFrom_eq, ← eq]
  rfl

end Digraph

end EGraphSearch
