import EGraphSearch.Digraph
import Mathlib.Data.Finset.Card
import Mathlib.Data.Finset.Range
import Mathlib.Data.Fintype.EquivFin
import Mathlib.Tactic.Push
import Mathlib.Tactic.Set
import Mathlib.Logic.Relation
import Mathlib.Order.WellFounded

/-!
# Sorting decides acyclicity

The topological sort takes away, generation after generation, the vertices into which no edge is
left.  The degrees that it keeps count the edges out of vertices not yet taken, so a generation is
exactly the set of vertices all of whose predecessors have been taken.  Hence a vertex that is taken
lies on no cycle, and vertices that are never taken contain one: the sort reaches every vertex if
and only if the graph is acyclic.
-/

set_option autoImplicit false

namespace EGraphSearch.Digraph

open Relation (TransGen)

structure Proper (d : Digraph) : Prop where
  next_lt : ∀ v, ∀ w ∈ d.next v, w < d.size
  next_nodup : ∀ v, (d.next v).Nodup

variable {d : Digraph}

theorem next_eq_nil {v : Nat} (outside : ¬ v < d.size) : d.next v = [] := by
  have : ¬ v < d.successors.size := outside
  simp [next, Array.getD, this]

theorem Edge.tail_lt {v w : Nat} (edge : d.Edge v w) : v < d.size := by
  by_contra outside
  rw [Edge, next_eq_nil outside] at edge
  simp at edge

/-! ## The degrees -/

def blockers (d : Digraph) (taken : Finset Nat) (w : Nat) : Finset Nat :=
  (Finset.range d.size).filter fun v => v ∉ taken ∧ w ∈ d.next v

/-- The degrees count the vertices that block each vertex. -/
structure Counts (d : Digraph) (taken : Finset Nat) (degrees : Array Nat) : Prop where
  size_eq : degrees.size = d.size
  getD_eq : ∀ w < d.size, degrees.getD w 0 = (d.blockers taken w).card

theorem mem_blockers {taken : Finset Nat} {v w : Nat} :
    v ∈ d.blockers taken w ↔ v ∉ taken ∧ d.Edge v w := by
  simp only [blockers, Finset.mem_filter, Finset.mem_range, Edge]
  exact ⟨fun h => h.2, fun h => ⟨Edge.tail_lt h.2, h⟩⟩

theorem blockers_insert (taken : Finset Nat) (v w : Nat) :
    d.blockers (insert v taken) w = (d.blockers taken w).erase v := by
  ext u
  simp only [mem_blockers, Finset.mem_insert, Finset.mem_erase, not_or]
  tauto

theorem blockers_antitone {taken more : Finset Nat} (sub : taken ⊆ more) {w : Nat}
    (free : d.blockers taken w = ∅) : d.blockers more w = ∅ := by
  rw [Finset.eq_empty_iff_forall_notMem] at *
  intro v member
  obtain ⟨outside, edge⟩ := mem_blockers.mp member
  exact free v (mem_blockers.mpr ⟨fun inside => outside (sub inside), edge⟩)

theorem foldl_modify_getD (heads : List Nat) :
    ∀ (degrees : Array Nat) (w : Nat), w < degrees.size →
      (heads.foldl (fun degrees w => degrees.modify w (· + 1)) degrees).size = degrees.size ∧
      (heads.foldl (fun degrees w => degrees.modify w (· + 1)) degrees).getD w 0 =
        degrees.getD w 0 + heads.count w := by
  induction heads with
  | nil => simp
  | cons head rest ih =>
      intro degrees w inside
      obtain ⟨size, count⟩ := ih (degrees.modify head (· + 1)) w (by simpa using inside)
      rw [List.foldl_cons]
      refine ⟨by simpa using size, ?_⟩
      rw [count]
      by_cases same : head = w
      · subst same
        simp only [Array.getD, Array.size_modify, inside, dif_pos, Array.getInternal_eq_getElem,
          Array.getElem_modify, if_pos, List.count_cons_self]
        omega
      · simp [Array.getD, inside, Array.getElem_modify, same]

theorem count_flatten_range (proper : d.Proper) (w : Nat) :
    ∀ k, ((List.range k).map d.next).flatten.count w =
      ((Finset.range k).filter fun v => w ∈ d.next v).card := by
  intro k
  induction k with
  | zero => simp
  | succ k ih =>
      rw [List.range_succ, List.map_append, List.flatten_append, List.count_append, ih,
        Finset.range_add_one, Finset.filter_insert]
      simp only [List.map_cons, List.map_nil, List.flatten_cons, List.flatten_nil, List.append_nil]
      by_cases member : w ∈ d.next k
      · rw [if_pos member, Finset.card_insert_of_notMem (by simp),
          List.count_eq_one_of_mem (proper.next_nodup k) member]
      · rw [if_neg member, List.count_eq_zero_of_not_mem member]
        omega

theorem successors_eq (d : Digraph) : d.successors.toList = (List.range d.size).map d.next := by
  apply List.ext_getElem
  · simp [size]
  · intro i hi hj
    have : i < d.successors.size := by simpa using hi
    simp [next, Array.getD, this]

theorem counts_inDegrees (proper : d.Proper) : Counts d ∅ d.inDegrees := by
  have folded : ∀ w < d.size, d.inDegrees.size = d.size ∧
      d.inDegrees.getD w 0 = (d.blockers ∅ w).card := by
    intro w inside
    obtain ⟨size, count⟩ := foldl_modify_getD d.successors.toList.flatten
      (Array.replicate d.size 0) w (by simpa using inside)
    refine ⟨by simpa [inDegrees] using size, ?_⟩
    rw [inDegrees, count, successors_eq, count_flatten_range proper]
    simp [Array.getD, inside, blockers]
  refine ⟨?_, fun w inside => (folded w inside).2⟩
  by_cases empty : d.size = 0
  · have : d.successors.toList = [] := by simpa [size] using empty
    simp [inDegrees, this]
  · exact (folded 0 (Nat.pos_of_ne_zero empty)).1

/-! ## One generation -/

theorem release_spec (heads : List Nat) :
    ∀ (degrees : Array Nat), heads.Nodup → (∀ w ∈ heads, w < degrees.size) →
      (release heads degrees).1 = heads.filter (fun w => degrees.getD w 0 - 1 = 0) ∧
      (release heads degrees).2.size = degrees.size ∧
      ∀ w, (release heads degrees).2.getD w 0 =
        if w ∈ heads then degrees.getD w 0 - 1 else degrees.getD w 0 := by
  induction heads with
  | nil => simp [release]
  | cons head rest ih =>
      intro degrees nodup inside
      obtain ⟨absent, nodup⟩ := List.nodup_cons.mp nodup
      have headInside : head < degrees.size := inside head (by simp)
      obtain ⟨freed, size, after⟩ := ih (degrees.setIfInBounds head (degrees.getD head 0 - 1))
        nodup fun w hw => by simpa using inside w (by simp [hw])
      have others : ∀ w, w ≠ head →
          (degrees.setIfInBounds head (degrees.getD head 0 - 1)).getD w 0 =
            degrees.getD w 0 := by
        intro w apart
        simp only [Array.getD_eq_getD_getElem?]
        rw [Array.getElem?_setIfInBounds_ne (Ne.symm apart)]
      have here : (degrees.setIfInBounds head (degrees.getD head 0 - 1)).getD head 0 =
          degrees.getD head 0 - 1 := by
        simp [Array.getD, headInside]
      refine ⟨?_, by simpa [release] using size, ?_⟩
      · have same : rest.filter (fun w =>
            (degrees.setIfInBounds head (degrees.getD head 0 - 1)).getD w 0 - 1 = 0) =
            rest.filter (fun w => degrees.getD w 0 - 1 = 0) := by
          apply List.filter_congr
          intro w hw
          rw [others w fun same => absent (same ▸ hw)]
        simp only [release, freed, same, List.filter_cons]
        split <;> simp_all
      · intro w
        simp only [release]
        rw [after w]
        by_cases same : w = head
        · subst same
          rw [if_neg absent, if_pos (by simp), here]
        · simp only [List.mem_cons, same, false_or, others w same]

/-- Taking a vertex: the degrees count on, and exactly the vertices that it alone still blocked come
out. -/
theorem release_next (proper : d.Proper) {taken : Finset Nat} {degrees : Array Nat} {v : Nat}
    (counts : Counts d taken degrees) (fresh : v ∉ taken) :
    Counts d (insert v taken) (release (d.next v) degrees).2 ∧
    (release (d.next v) degrees).1.Nodup ∧
    ∀ w, w ∈ (release (d.next v) degrees).1 ↔
      w < d.size ∧ d.blockers taken w ≠ ∅ ∧ d.blockers (insert v taken) w = ∅ := by
  obtain ⟨freed, size, after⟩ := release_spec (d.next v) degrees (proper.next_nodup v)
    fun w hw => counts.size_eq ▸ proper.next_lt v w hw
  have erased : ∀ w, w < d.size → (d.blockers (insert v taken) w).card =
      if w ∈ d.next v then degrees.getD w 0 - 1 else degrees.getD w 0 := by
    intro w inside
    rw [blockers_insert, counts.getD_eq w inside]
    split
    · rename_i edge
      exact Finset.card_erase_of_mem (mem_blockers.mpr ⟨fresh, edge⟩)
    · rename_i noEdge
      rw [Finset.erase_eq_of_notMem fun member => noEdge (mem_blockers.mp member).2]
  refine ⟨⟨size.trans counts.size_eq, ?_⟩, ?_, ?_⟩
  · intro w inside
    rw [after w, erased w inside]
  · rw [freed]
    exact (proper.next_nodup v).filter _
  · intro w
    rw [freed]
    simp only [List.mem_filter, decide_eq_true_eq]
    constructor
    · rintro ⟨edge, left⟩
      have inside := proper.next_lt v w edge
      refine ⟨inside, Finset.ne_empty_of_mem (mem_blockers.mpr ⟨fresh, edge⟩), ?_⟩
      rw [← Finset.card_eq_zero, erased w inside, if_pos edge]
      exact left
    · rintro ⟨inside, blocked, free⟩
      have edge : w ∈ d.next v := by
        by_contra noEdge
        apply blocked
        rw [blockers_insert,
          Finset.erase_eq_of_notMem fun member => noEdge (mem_blockers.mp member).2] at free
        exact free
      refine ⟨edge, ?_⟩
      have := erased w inside
      rw [if_pos edge, Finset.card_eq_zero.mpr free] at this
      exact this.symm

theorem releaseAll_spec (proper : d.Proper) (current : List Nat) :
    ∀ {taken : Finset Nat} {degrees : Array Nat}, Counts d taken degrees → current.Nodup →
      (∀ v ∈ current, v ∉ taken) →
      Counts d (taken ∪ current.toFinset) (d.releaseAll current degrees).2 ∧
      (d.releaseAll current degrees).1.Nodup ∧
      ∀ w, w ∈ (d.releaseAll current degrees).1 ↔
        w < d.size ∧ d.blockers taken w ≠ ∅ ∧ d.blockers (taken ∪ current.toFinset) w = ∅ := by
  induction current with
  | nil =>
      intro taken degrees counts _ _
      simp only [releaseAll, List.toFinset_nil, Finset.union_empty]
      refine ⟨counts, List.nodup_nil, ?_⟩
      intro w
      simp only [List.not_mem_nil, false_iff]
      rintro ⟨_, blocked, free⟩
      exact blocked free
  | cons v rest ih =>
      intro taken degrees counts nodup fresh
      obtain ⟨absent, nodup⟩ := List.nodup_cons.mp nodup
      obtain ⟨countsNext, nodupNow, now⟩ := release_next proper counts (fresh v (by simp))
      obtain ⟨countsAll, nodupLater, later⟩ := ih countsNext nodup (by
        intro u hu
        simp only [Finset.mem_insert, not_or]
        exact ⟨fun same => absent (same ▸ hu), fresh u (by simp [hu])⟩)
      have union : insert v taken ∪ rest.toFinset = taken ∪ (v :: rest).toFinset := by
        ext u
        simp only [Finset.mem_union, Finset.mem_insert, List.mem_toFinset, List.mem_cons]
        tauto
      rw [union] at countsAll later
      simp only [releaseAll]
      refine ⟨countsAll, ?_, ?_⟩
      · refine List.nodup_append.mpr ⟨nodupNow, nodupLater, ?_⟩
        intro a ha b hb same
        subst same
        exact ((later a).mp hb).2.1 ((now a).mp ha).2.2
      · intro w
        rw [List.mem_append, now, later]
        have mono : insert v taken ⊆ taken ∪ (v :: rest).toFinset :=
          union ▸ Finset.subset_union_left
        constructor
        · rintro (⟨inside, blocked, free⟩ | ⟨inside, blocked, free⟩)
          · exact ⟨inside, blocked, blockers_antitone mono free⟩
          · refine ⟨inside, fun empty => blocked ?_, free⟩
            exact blockers_antitone (Finset.subset_insert v taken) empty
        · rintro ⟨inside, blocked, free⟩
          by_cases freeNow : d.blockers (insert v taken) w = ∅
          · exact .inl ⟨inside, blocked, freeNow⟩
          · exact .inr ⟨inside, freeNow, free⟩

/-! ## All generations -/

/-- The sort between two generations: what has been taken has been unblocked before, and the current
generation is what is unblocked now. -/
structure Sorting (d : Digraph) (taken : Finset Nat) (current : List Nat) (degrees : Array Nat) :
    Prop where
  counts : Counts d taken degrees
  nodup : current.Nodup
  current_iff : ∀ w, w ∈ current ↔ w < d.size ∧ w ∉ taken ∧ d.blockers taken w = ∅
  taken_lt : ∀ w ∈ taken, w < d.size
  taken_free : ∀ w ∈ taken, d.blockers taken w = ∅
  taken_acc : ∀ w ∈ taken, Acc d.Edge w

theorem Sorting.next (proper : d.Proper) {taken : Finset Nat} {current : List Nat}
    {degrees : Array Nat} (sorting : Sorting d taken current degrees) :
    Sorting d (taken ∪ current.toFinset) (d.releaseAll current degrees).1
      (d.releaseAll current degrees).2 := by
  have fresh : ∀ v ∈ current, v ∉ taken := fun v hv => ((sorting.current_iff v).mp hv).2.1
  obtain ⟨counts, nodup, freed⟩ := releaseAll_spec proper current sorting.counts sorting.nodup fresh
  have grows : taken ⊆ taken ∪ current.toFinset := Finset.subset_union_left
  have free : ∀ w ∈ taken ∪ current.toFinset, d.blockers taken w = ∅ := by
    intro w member
    rcases Finset.mem_union.mp member with member | member
    · exact sorting.taken_free w member
    · exact ((sorting.current_iff w).mp (List.mem_toFinset.mp member)).2.2
  refine ⟨counts, nodup, ?_, ?_, fun w member => blockers_antitone grows (free w member), ?_⟩
  · intro w
    rw [freed w]
    constructor
    · rintro ⟨inside, blocked, open_⟩
      exact ⟨inside, fun member => blocked (free w member), open_⟩
    · rintro ⟨inside, outside, open_⟩
      refine ⟨inside, fun empty => outside ?_, open_⟩
      by_cases member : w ∈ taken
      · exact grows member
      · exact Finset.mem_union_right _
          (List.mem_toFinset.mpr ((sorting.current_iff w).mpr ⟨inside, member, empty⟩))
  · intro w member
    rcases Finset.mem_union.mp member with member | member
    · exact sorting.taken_lt w member
    · exact ((sorting.current_iff w).mp (List.mem_toFinset.mp member)).1
  · intro w member
    refine Acc.intro w fun v edge => sorting.taken_acc v ?_
    by_contra outside
    have := mem_blockers.mpr ⟨outside, edge⟩
    rw [free w member] at this
    simp at this

theorem Sorting.fresh {taken : Finset Nat} {current : List Nat} {degrees : Array Nat}
    (sorting : Sorting d taken current degrees) {w : Nat} (now : w ∈ current) : w ∉ taken :=
  ((sorting.current_iff w).mp now).2.1

theorem Sorting.tail_taken {taken : Finset Nat} {current : List Nat} {degrees : Array Nat}
    (sorting : Sorting d taken current degrees) {v w : Nat} (now : w ∈ current)
    (edge : d.Edge v w) : v ∈ taken := by
  by_contra outside
  have blocks := mem_blockers.mpr ⟨outside, edge⟩
  rw [((sorting.current_iff w).mp now).2.2] at blocks
  simp at blocks

theorem Sorting.enough_next {taken : Finset Nat} {current : List Nat} {degrees : Array Nat}
    (sorting : Sorting d taken current degrees) (some_current : current ≠ []) {fuel : Nat}
    (enough : d.size ≤ fuel + 1 + taken.card) :
    d.size ≤ fuel + (taken ∪ current.toFinset).card := by
  have disjoint : Disjoint taken current.toFinset := by
    rw [Finset.disjoint_right]
    exact fun v now => sorting.fresh (List.mem_toFinset.mp now)
  have positive : 0 < current.toFinset.card := by
    simpa [Finset.card_pos] using some_current
  rw [Finset.card_union_of_disjoint disjoint]
  omega

/-! ## The order -/

/-- What the sort lists when some vertices have been taken before: others, once each, on no cycle
and none before its predecessors.  Whatever is left out has a predecessor that is left out. -/
structure Sorted (d : Digraph) (taken : Finset Nat) (order : List Nat) : Prop where
  nodup : order.Nodup
  lt : ∀ w ∈ order, w < d.size
  fresh : ∀ w ∈ order, w ∉ taken
  acc : ∀ w ∈ order, Acc d.Edge w
  forward : order.Pairwise fun v w => ¬ d.Edge w v
  blocked : ∀ w < d.size, w ∉ taken → w ∉ order →
    ∃ v < d.size, v ∉ taken ∧ v ∉ order ∧ d.Edge v w

theorem sorted_nil {taken : Finset Nat}
    (blocked : ∀ w < d.size, w ∉ taken → ∃ v, v ∉ taken ∧ d.Edge v w) : Sorted d taken [] where
  nodup := List.nodup_nil
  lt := by simp
  fresh := by simp
  acc := by simp
  forward := List.Pairwise.nil
  blocked w inside outside _ := by
    obtain ⟨v, outside', edge⟩ := blocked w inside outside
    exact ⟨v, edge.tail_lt, outside', by simp, edge⟩

/-- When nothing is unblocked any more, whatever is left has a blocker that is left. -/
theorem Sorting.sorted_done {taken : Finset Nat} {degrees : Array Nat}
    (sorting : Sorting d taken [] degrees) : Sorted d taken [] := by
  refine sorted_nil fun w inside outside => ?_
  have blocked : d.blockers taken w ≠ ∅ := by
    intro empty
    have := (sorting.current_iff w).mpr ⟨inside, outside, empty⟩
    simp at this
  obtain ⟨v, member⟩ := Finset.nonempty_iff_ne_empty.mpr blocked
  exact ⟨v, mem_blockers.mp member⟩

/-- The fuel runs out when every vertex has been taken. -/
theorem Sorting.sorted_spent {taken : Finset Nat} {current : List Nat} {degrees : Array Nat}
    (sorting : Sorting d taken current degrees) (enough : d.size ≤ taken.card) :
    Sorted d taken [] := by
  have all : taken = Finset.range d.size := by
    apply Finset.eq_of_subset_of_card_le
    · exact fun v hv => Finset.mem_range.mpr (sorting.taken_lt v hv)
    · simpa using enough
  exact sorted_nil fun w inside outside => absurd (all ▸ Finset.mem_range.mpr inside) outside

theorem Sorting.sorted_append (proper : d.Proper) {taken : Finset Nat} {current order : List Nat}
    {degrees : Array Nat} (sorting : Sorting d taken current degrees)
    (later : Sorted d (taken ∪ current.toFinset) order) : Sorted d taken (current ++ order) where
  nodup := by
    refine List.nodup_append.mpr ⟨sorting.nodup, later.nodup, ?_⟩
    rintro w now _ after rfl
    exact later.fresh w after (Finset.mem_union_right _ (List.mem_toFinset.mpr now))
  lt w member := by
    rcases List.mem_append.mp member with now | after
    · exact ((sorting.current_iff w).mp now).1
    · exact later.lt w after
  fresh w member := by
    rcases List.mem_append.mp member with now | after
    · exact sorting.fresh now
    · exact fun before => later.fresh w after (Finset.mem_union_left _ before)
  acc w member := by
    rcases List.mem_append.mp member with now | after
    · exact (sorting.next proper).taken_acc w
        (Finset.mem_union_right _ (List.mem_toFinset.mpr now))
    · exact later.acc w after
  forward := by
    refine List.pairwise_append.mpr ⟨?_, later.forward, ?_⟩
    · exact List.pairwise_of_forall_mem_list fun v now w after edge =>
        sorting.fresh after (sorting.tail_taken now edge)
    · exact fun v now w after edge =>
        later.fresh w after (Finset.mem_union_left _ (sorting.tail_taken now edge))
  blocked w inside outside absent := by
    obtain ⟨notNow, notLater⟩ := not_or.mp (mt List.mem_append.mpr absent)
    have untaken : w ∉ taken ∪ current.toFinset := by
      simp only [Finset.mem_union, List.mem_toFinset, not_or]
      exact ⟨outside, notNow⟩
    obtain ⟨v, vlt, vuntaken, vabsent, edge⟩ := later.blocked w inside untaken notLater
    simp only [Finset.mem_union, List.mem_toFinset, not_or] at vuntaken
    exact ⟨v, vlt, vuntaken.1,
      fun member => (List.mem_append.mp member).elim vuntaken.2 vabsent, edge⟩

theorem generations_sorted (proper : d.Proper) (fuel : Nat) :
    ∀ {taken : Finset Nat} {current : List Nat} {degrees : Array Nat},
      Sorting d taken current degrees → d.size ≤ fuel + taken.card →
      Sorted d taken (d.generations fuel current degrees) := by
  induction fuel with
  | zero => exact fun sorting enough => sorting.sorted_spent (by omega)
  | succ fuel ih =>
      intro taken current degrees sorting enough
      cases current with
      | nil => exact sorting.sorted_done
      | cons first rest =>
          have next := sorting.next proper
          exact sorting.sorted_append proper (ih next (sorting.enough_next (by simp) enough))

theorem sorting_start (proper : d.Proper) :
    Sorting d ∅ ((List.range d.size).filter fun v => d.inDegrees.getD v 0 == 0) d.inDegrees := by
  have counts := counts_inDegrees proper
  refine ⟨counts, List.nodup_range.filter _, ?_, by simp, by simp, by simp⟩
  intro w
  simp only [List.mem_filter, List.mem_range, beq_iff_eq, Finset.notMem_empty, not_false_eq_true,
    true_and]
  constructor
  · rintro ⟨inside, zero⟩
    exact ⟨inside, Finset.card_eq_zero.mp ((counts.getD_eq w inside) ▸ zero)⟩
  · rintro ⟨inside, empty⟩
    exact ⟨inside, by rw [counts.getD_eq w inside, empty, Finset.card_empty]⟩

theorem sorted_all (proper : d.Proper) :
    Sorted d ∅ (d.generations d.size
      ((List.range d.size).filter fun v => d.inDegrees.getD v 0 == 0) d.inDegrees) :=
  generations_sorted proper d.size (sorting_start proper) (by simp)

theorem Sorted.card_eq {taken : Finset Nat} {order : List Nat} (sorted : Sorted d taken order) :
    order.toFinset.card = order.length :=
  List.toFinset_card_of_nodup sorted.nodup

theorem Sorted.mem_of_long {taken : Finset Nat} {order : List Nat} (sorted : Sorted d taken order)
    (long : d.size ≤ order.length) {v : Nat} (inside : v < d.size) : v ∈ order := by
  have all : order.toFinset = Finset.range d.size := by
    apply Finset.eq_of_subset_of_card_le
    · exact fun u hu => Finset.mem_range.mpr (sorted.lt u (List.mem_toFinset.mp hu))
    · rw [sorted.card_eq, Finset.card_range]
      exact long
  exact List.mem_toFinset.mp (all ▸ Finset.mem_range.mpr inside)

theorem Sorted.exists_of_short {taken : Finset Nat} {order : List Nat}
    (sorted : Sorted d taken order) (short : order.length < d.size) :
    ∃ w < d.size, w ∉ order := by
  by_contra none_missing
  push Not at none_missing
  have : (Finset.range d.size).card ≤ order.toFinset.card := Finset.card_le_card fun w hw =>
    List.mem_toFinset.mpr (none_missing w (Finset.mem_range.mp hw))
  rw [sorted.card_eq, Finset.card_range] at this
  omega

/-! ## Cycles -/

theorem not_transGen_of_acc {v : Nat} (acc : Acc d.Edge v) : ¬ TransGen d.Edge v v := by
  induction acc with
  | intro v _ ih =>
      intro cycle
      obtain ⟨u, walk, edge⟩ := (Relation.TransGen.tail'_iff).mp cycle
      exact ih u edge ((TransGen.single edge).trans_left walk)

/-- Vertices of which each has a predecessor among them contain a cycle. -/
theorem exists_cycle_of_predecessors {p : Nat → Prop} (bounded : ∀ v, p v → v < d.size)
    (pred : ∀ w, p w → ∃ v, p v ∧ d.Edge v w) {w : Nat} (start : p w) :
    ∃ v, TransGen d.Edge v v := by
  by_contra acyclic
  push Not at acyclic
  have wf : WellFounded fun a b : Fin d.size => TransGen d.Edge a.1 b.1 := by
    have : IsTrans (Fin d.size) fun a b => TransGen d.Edge a.1 b.1 :=
      ⟨fun a b c first second => first.trans second⟩
    have : Std.Irrefl fun a b : Fin d.size => TransGen d.Edge a.1 b.1 :=
      ⟨fun a cycle => acyclic a.1 cycle⟩
    exact Finite.wellFounded_of_trans_of_irrefl _
  obtain ⟨least, member, minimal⟩ :=
    wf.has_min {v | p v.1} ⟨⟨w, bounded w start⟩, start⟩
  obtain ⟨v, hv, edge⟩ := pred least.1 member
  exact minimal ⟨v, bounded v hv⟩ hv (TransGen.single edge)

/-- The sort succeeds exactly on the graphs without a cycle. -/
theorem isAcyclic_iff (proper : d.Proper) :
    d.isAcyclic = true ↔ ∀ v, ¬ TransGen d.Edge v v := by
  have sorted := sorted_all proper
  set order := d.generations d.size
    ((List.range d.size).filter fun v => d.inDegrees.getD v 0 == 0) d.inDegrees with order_def
  have decides : d.isAcyclic = true ↔ ¬ order.length < d.size := by
    change (if order.length < d.size then none else some order).isSome = true ↔ _
    split <;> simp_all
  rw [decides]
  constructor
  · intro long v cycle
    obtain ⟨u, edge, _⟩ := (Relation.TransGen.head'_iff).mp cycle
    have member : v ∈ order := sorted.mem_of_long (Nat.not_lt.mp long) edge.tail_lt
    exact not_transGen_of_acc (sorted.acc v member) cycle
  · intro acyclic short
    obtain ⟨w, lt, absent⟩ := sorted.exists_of_short short
    obtain ⟨v, cycle⟩ := exists_cycle_of_predecessors (p := fun v => v < d.size ∧ v ∉ order)
      (fun v hv => hv.1) (fun u hu => by
        obtain ⟨v, vlt, _, vabsent, edge⟩ := sorted.blocked u hu.1 (by simp) hu.2
        exact ⟨v, ⟨vlt, vabsent⟩, edge⟩) ⟨lt, absent⟩
    exact acyclic v cycle

end EGraphSearch.Digraph
