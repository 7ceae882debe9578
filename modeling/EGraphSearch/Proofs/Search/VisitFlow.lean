import EGraphSearch.Proofs.Search.Traffic
import EGraphSearch.Proofs.Tree.Usage

/-!
# The flow of visits

A node with moves passes its visits on to its children, all but the one of the playout that added
it.  No route passes through two nodes that resolve the same class, so no class is visited more
often than there are playouts; and every route resolves the root class first.
-/

set_option autoImplicit false

namespace EGraphSearch

variable {σ ρ α : Type} [Scalar α] {g : EGraph} {tree : Tree α} {flying : List Flight}
  {ends : List Nat} {s : Progress σ α}

/-! ## Flow through a node -/

def Tree.traversals (tree : Tree α) (flying : List Flight) (v : Nat) : Nat :=
  (tree.node v).visits + crossings v flying

/-- What comes to a node with moves goes on to its children, but for the playout that added it. -/
def FlowConserved (tree : Tree α) (flying : List Flight) : Prop :=
  ∀ v < tree.size, ∀ k, (tree.node v).numMoves = some (k + 1) →
    tree.traversals flying v = (if v = 0 then 0 else 1) +
      ((tree.node v).children.map fun entry => tree.traversals flying entry.2).sum

theorem Routed.flowConserved (routed : Routed g s flying ends) : FlowConserved s.tree flying := by
  intro v inside k moves
  have once := routed.ended.once v inside (by simp [moves])
  simp only [Tree.traversals, routed.visits_eq]
  rw [← once]
  exact routed.ended.charted.toLinked.load_split inside ends routed.ended.inside

/-! ## Classes on a route -/

theorem countP_le_one {β : Type} {p : β → Bool} {xs : List β}
    (apart : xs.Pairwise fun x y => p x = true → p y = false) : xs.countP p ≤ 1 := by
  induction xs with
  | nil => simp
  | cons x rest ih =>
      obtain ⟨others, apartRest⟩ := List.pairwise_cons.mp apart
      rw [List.countP_cons]
      split
      · rename_i here
        rw [List.countP_eq_zero.mpr fun y member => by simp [others y member here]]
      · exact ih apartRest

/-- A route resolves no class twice. -/
theorem Charted.route_resolves_once (wf : g.toArena.WellFormed) (charted : Charted g tree)
    {last : Nat} (inside : last < tree.size) (cls : Label) :
    (List.range' 1 (tree.size - 1)).countP
      (fun v => (tree.node v).cls == cls && tree.passes last v) ≤ 1 := by
  obtain ⟨rest, path, _⟩ := charted.toLinked.exists_path_cons last inside
  obtain ⟨t, replayed⟩ := charted.replayed last inside
  obtain ⟨path', found, assignment⟩ := charted.assignment_eq wf last inside replayed
  obtain rfl : 0 :: rest = path' := Except.ok.inj (path.symm.trans found)
  have keyed := (inv_of_replay wf replayed).keyed_assignment wf
  rw [assignment, Table.Keyed, List.drop_one, List.tail_cons, List.pairwise_map] at keyed
  have once : rest.countP (fun v => (tree.node v).cls == cls) ≤ 1 := by
    refine countP_le_one (keyed.imp fun {v w} apart here => ?_)
    rw [Label.beq_iff_key_eq] at here
    rw [Label.beq_false_iff_key_ne] at apart ⊢
    exact fun there => apart (here.trans there.symm)
  refine Nat.le_trans ?_ once
  rw [List.countP_eq_length_filter, List.countP_eq_length_filter]
  refine (List.subperm_of_subset (List.Nodup.filter _ List.nodup_range') ?_).length_le
  intro v listed
  simp only [List.mem_filter, List.mem_range'_1, Bool.and_eq_true] at listed ⊢
  obtain ⟨⟨pos, _⟩, here, passes⟩ := listed
  rw [Tree.passes_eq path, List.contains_iff_mem] at passes
  rcases List.mem_cons.mp passes with rfl | member
  · simp at pos
  · exact ⟨member, here⟩

/-- A route that leaves the root resolves the root class. -/
theorem Charted.route_resolves_root (charted : Charted g tree) {last : Nat}
    (inside : last < tree.size) (away : last ≠ 0) :
    0 < (List.range' 1 (tree.size - 1)).countP
      (fun v => (tree.node v).cls == g.classLabel g.root && tree.passes last v) := by
  obtain ⟨rest, path, _⟩ := charted.toLinked.exists_path_cons last inside
  have split := charted.toLinked.passes_split last inside charted.nonempty
  have root : tree.passes last 0 = true := by
    rw [Tree.passes_eq path]
    simp
  rw [root, beq_eq_false_iff_ne.mpr (Ne.symm away), Bool.toNat_true, Bool.toNat_false,
    Nat.zero_add] at split
  obtain ⟨⟨m, c⟩, member, passes⟩ : ∃ entry ∈ (tree.node 0).children,
      tree.passes last entry.2 = true := by
    by_contra nowhere
    rw [List.sum_eq_zero] at split
    · simp at split
    · intro x member
      obtain ⟨entry, listed, rfl⟩ := List.mem_map.mp member
      cases passes : tree.passes last entry.2 with
      | false => rfl
      | true => exact absurd ⟨entry, listed, passes⟩ nowhere
  obtain ⟨pos, insideChild, _⟩ := charted.child 0 charted.nonempty m c member
  have named := (charted.charts 0 charted.nonempty _ (replay_root charted.toLinked)).named
    g.root rfl m c member
  refine List.countP_pos_iff.mpr ⟨c, List.mem_range'_1.mpr (by omega), ?_⟩
  rw [named.1, Bool.and_eq_true]
  exact ⟨by simp, passes⟩

/-! ## Visits of a class -/

omit [Scalar α] in
theorem sum_load (tree : Tree α) (nodes : List Nat) (sel : Nat → Bool) (ends : List Nat) :
    (nodes.map fun v => if sel v then tree.load ends v else 0).sum =
      (ends.map fun last => nodes.countP fun v => sel v && tree.passes last v).sum := by
  have one : ∀ last, (nodes.map fun v => if sel v then (tree.passes last v).toNat else 0).sum =
      nodes.countP fun v => sel v && tree.passes last v := by
    intro last
    induction nodes with
    | nil => rfl
    | cons v rest ih =>
        rw [List.map_cons, List.sum_cons, ih, List.countP_cons, Nat.add_comm]
        cases sel v <;> cases tree.passes last v <;> rfl
  induction ends with
  | nil =>
      refine List.sum_eq_zero fun x member => ?_
      obtain ⟨v, _, rfl⟩ := List.mem_map.mp member
      split <;> rfl
  | cons last rest ih =>
      rw [List.map_cons, List.sum_cons, ← ih, ← one, ← List.sum_map_add]
      refine congrArg List.sum (List.map_congr_left fun v _ => ?_)
      rw [Tree.load_cons]
      split <;> omega

theorem legalMoves_start (accepted : g.Accepted) : (Tracker.start g).legalMoves g ≠ [] := by
  obtain ⟨moves, u, _, run, terminal⟩ := searchCompletion_start accepted
  cases run with
  | stay => cases terminal
  | move legal => exact List.ne_nil_of_mem legal

/-- How the visits by class relate to the number of playouts. -/
structure ClassVisits (g : EGraph) (tree : Tree α) (playouts : Nat) : Prop where
  class_le : ∀ cls, Tree.visitsOf (tree.classStatistics g) cls ≤ playouts
  root_eq : Tree.visitsOf (tree.classStatistics g) (g.classLabel g.root) = playouts

theorem Routed.classVisits (accepted : g.Accepted) (routed : Routed g s [] ends) :
    ClassVisits g s.tree s.playouts := by
  have wf := accepted.wellFormed
  have charted := routed.ended.charted
  have playouts : s.playouts = ends.length := routed.playouts_eq
  have visits : ∀ cls, Tree.visitsOf s.tree.usageByClass cls =
      (ends.map fun last => (List.range' 1 (s.tree.size - 1)).countP
        fun v => (s.tree.node v).cls == cls && s.tree.passes last v).sum := by
    intro cls
    rw [Tree.visitsOf_usageByClass, ← sum_load]
    simp only [← routed.visits_eq, crossings, List.countP_nil, Nat.add_zero]
  have away : ∀ last ∈ ends, last ≠ 0 := by
    rintro last member rfl
    have never : ends.count 0 = 0 := by
      refine routed.ended.once 0 charted.nonempty fun stuck => legalMoves_start accepted ?_
      have noted := charted.noted 0 charted.nonempty _ 0 (replay_root charted.toLinked) stuck
      exact List.length_eq_zero_iff.mp noted.1.symm
    exact List.count_eq_zero.mp never member
  constructor
  · intro cls
    rw [Tree.visitsOf_classStatistics]
    split
    · rw [visits, playouts, ← Nat.mul_one ends.length, ← List.length_map]
      exact List.sum_le_card_nsmul _ 1 fun x member => by
        obtain ⟨last, listed, rfl⟩ := List.mem_map.mp member
        exact charted.route_resolves_once wf (routed.ended.inside last listed) cls
    · exact Nat.zero_le _
  · have listed : g.classIds.toList.any (· == g.classLabel g.root) = true := by
      refine List.any_eq_true.mpr ⟨g.classLabel g.root, ?_, by simp⟩
      have inside : g.root < g.classIds.size := wf.root_lt
      simp [Arena.classLabel, Array.getD, inside]
    have each : ∀ last ∈ ends, (List.range' 1 (s.tree.size - 1)).countP
        (fun v => (s.tree.node v).cls == g.classLabel g.root && s.tree.passes last v) = 1 := by
      intro last member
      have inside := routed.ended.inside last member
      exact Nat.le_antisymm (charted.route_resolves_once wf inside _)
        (charted.route_resolves_root inside (away last member))
    rw [Tree.visitsOf_classStatistics, if_pos listed, visits, playouts, List.map_congr_left each,
      List.map_const', List.sum_replicate, smul_eq_mul, Nat.mul_one]

theorem Routed.root_visits (routed : Routed g s [] ends) :
    (s.tree.node 0).visits = s.playouts := by
  have linked := routed.ended.charted.toLinked
  have every : s.tree.load ends 0 = ends.length := by
    refine List.countP_eq_length.mpr fun last member => ?_
    obtain ⟨rest, path, _⟩ := linked.exists_path_cons last (routed.ended.inside last member)
    simp [Tree.passes_eq path]
  have visits := routed.visits_eq 0
  have playouts := routed.playouts_eq
  simp only [crossings, List.countP_nil, List.length_nil, Nat.add_zero] at visits playouts
  rw [visits, every, playouts]

end EGraphSearch
