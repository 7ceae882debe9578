import EGraphSearch.Proofs.Digraph.Acyclicity

/-!
# The topological order

The sort lists the vertices of an acyclic graph once each, and edges point forward in its list: when
a vertex is taken, all its predecessors have been taken in earlier generations.
-/

set_option autoImplicit false

namespace EGraphSearch.Digraph

variable {d : Digraph}

/-- All vertices once, such that no edge leads back. -/
structure Ordered (d : Digraph) (order : List Nat) : Prop where
  nodup : order.Nodup
  mem_iff : ∀ v, v ∈ order ↔ v < d.size
  forward : order.Pairwise fun v w => ¬ d.Edge w v

theorem exists_topologicalOrder (proper : d.Proper) (acyclic : d.isAcyclic = true) :
    ∃ order, d.topologicalOrder? = some order ∧ d.Ordered order := by
  have listed := sorted_all proper
  obtain ⟨order, sorted⟩ := Option.isSome_iff_exists.mp acyclic
  have unfolded := sorted
  simp only [topologicalOrder?] at unfolded
  split at unfolded
  · cases unfolded
  · rename_i long
    cases unfolded
    exact ⟨_, sorted, listed.nodup,
      fun v => ⟨listed.lt v, listed.mem_of_long (Nat.not_lt.mp long)⟩, listed.forward⟩

end EGraphSearch.Digraph
