import EGraphSearch.Proofs.EGraph.Levels
import Mathlib.Data.Finset.Card
import Mathlib.Data.Finset.Range

/-!
# The passes of the sweep

Visits only lower entries, and never below a fixpoint of the level equations.  A pass settles what
lies one level higher than the pass before it, since a node is settled as soon as its children are.
The finite levels of classes leave no gaps, so they are fewer than the classes, and the sweep has
settled, at the only fixpoint there is, after one pass for each class and two more.
-/

set_option autoImplicit false

namespace EGraphSearch

/-! ## Levels over children -/

namespace Level

theorem exists_of_lt {x y : Level} (less : x < y) : ∃ h, x = finite h := by
  cases x with
  | finite h => exact ⟨h, rfl⟩
  | infinite => exact absurd less (not_infinite_lt y)

/-- A node above the ground has a child one level below it. -/
theorem exists_mem_of_above {levels : List Level} {h : Nat}
    (level : above levels = finite (h + 1)) : finite h ∈ levels := by
  by_contra missing
  have lower : above levels ≤ finite h := by
    refine (above_le_iff levels _).mpr fun child member => ?_
    cases child with
    | finite k =>
        have below := lt_of_mem_above level _ member
        have apart : k ≠ h := fun same => missing (same ▸ member)
        simp only [finite_lt_finite] at below
        simp only [next, finite_le_finite]
        omega
    | infinite => exact absurd (lt_of_mem_above level _ member) (not_infinite_lt _)
  rw [level, finite_le_finite] at lower
  omega

end Level

namespace Levels

/-- No entry is above its counterpart. -/
instance : Preorder Levels := Preorder.lift fun l => (l.classLevel, l.nodeLevel)

variable {a : Arena} {l m final : Levels} {c n : Nat}

theorem le_iff : l ≤ m ↔
    (∀ c, l.classLevel c ≤ m.classLevel c) ∧ ∀ n, l.nodeLevel n ≤ m.nodeLevel n := Iff.rfl

theorem candidate_mono (le : l ≤ m) (n : Nat) : candidate a l n ≤ candidate a m n :=
  Level.above_map_mono fun c _ => le.1 c

/-! ## Fixpoints -/

/-- Every node is one above its highest child, and every class as low as its lowest member. -/
structure Fixpoint (a : Arena) (l : Levels) : Prop where
  class_size : l.ofClass.size = a.numClasses
  node_size : l.ofNode.size = a.numNodes
  node_eq : ∀ n < a.numNodes, l.nodeLevel n = candidate a l n
  lowest : Lowest a l

theorem Fixpoint.class_le (fixpoint : Fixpoint a final) (wf : a.WellFormed)
    (inside : n < a.numNodes) :
    final.classLevel (a.ownerOf n) ≤ final.nodeLevel n := by
  have owned := wf.owner_lt n inside
  exact (fixpoint.lowest _ owned).2 (.inr ⟨n, (wf.member_iff _ owned n inside).mpr rfl, rfl⟩)

theorem classLevel_of_le_numClasses (size : l.ofClass.size = a.numClasses)
    (outside : a.numClasses ≤ c) : l.classLevel c = .infinite := by
  have outside : ¬ c < l.ofClass.size := by omega
  simp [classLevel, Array.getD, outside]

theorem nodeLevel_of_le_numNodes (size : l.ofNode.size = a.numNodes)
    (outside : a.numNodes ≤ n) : l.nodeLevel n = .infinite := by
  have outside : ¬ n < l.ofNode.size := by omega
  simp [nodeLevel, Array.getD, outside]

theorem inside_of_nodeLevel (size : l.ofNode.size = a.numNodes) {h : Nat}
    (level : l.nodeLevel n = .finite h) : n < a.numNodes := by
  by_contra outside
  rw [nodeLevel_of_le_numNodes size (not_lt.mp outside)] at level
  cases level

theorem inside_of_classLevel (size : l.ofClass.size = a.numClasses) {h : Nat}
    (level : l.classLevel c = .finite h) : c < a.numClasses := by
  by_contra outside
  rw [classLevel_of_le_numClasses size (not_lt.mp outside)] at level
  cases level

theorem Fixpoint.exists_member (fixpoint : Fixpoint a final) {h : Nat}
    (level : final.classLevel c = .finite h) :
    ∃ n ∈ a.membersOf c, final.nodeLevel n = .finite h := by
  have inside := inside_of_classLevel fixpoint.class_size level
  rcases (fixpoint.lowest c inside).1 with infinite | ⟨n, member, same⟩
  · rw [level] at infinite
    cases infinite
  · exact ⟨n, member, same.trans level⟩

theorem Fixpoint.exists_child (fixpoint : Fixpoint a final) {h : Nat}
    (level : final.nodeLevel n = .finite (h + 1)) :
    ∃ d ∈ a.childrenOf n, final.classLevel d = .finite h := by
  have inside := inside_of_nodeLevel fixpoint.node_size level
  have above : Level.above ((a.childrenOf n).map final.classLevel) = .finite (h + 1) :=
    (fixpoint.node_eq n inside).symm.trans level
  exact List.mem_map.mp (Level.exists_mem_of_above above)

/-! ## Finite levels are few -/

/-- Below a class of finite level there is a class of each lower level. -/
theorem Fixpoint.exists_class_of_le (fixpoint : Fixpoint a final) {h : Nat} :
    ∀ {c : Nat}, final.classLevel c = .finite h → ∀ k ≤ h, ∃ d, final.classLevel d = .finite k := by
  induction h with
  | zero =>
      intro c level k le
      obtain rfl : k = 0 := Nat.le_zero.mp le
      exact ⟨c, level⟩
  | succ h ih =>
      intro c level k le
      rcases Nat.le_succ_iff.mp le with lower | rfl
      · obtain ⟨n, _, same⟩ := fixpoint.exists_member level
        obtain ⟨d, _, child⟩ := fixpoint.exists_child same
        exact ih child k lower
      · exact ⟨c, level⟩

theorem Fixpoint.classLevel_lt (fixpoint : Fixpoint a final) {h : Nat}
    (level : final.classLevel c = .finite h) : h < a.numClasses := by
  have onto : Set.SurjOn final.classLevel (Finset.range a.numClasses)
      ((Finset.range (h + 1)).image Level.finite) := by
    intro x member
    obtain ⟨k, below, rfl⟩ := Finset.mem_image.mp (Finset.mem_coe.mp member)
    obtain ⟨d, same⟩ := fixpoint.exists_class_of_le level k
      (Nat.lt_succ_iff.mp (Finset.mem_range.mp below))
    exact ⟨d, Finset.mem_coe.mpr (Finset.mem_range.mpr
      (inside_of_classLevel fixpoint.class_size same)), same⟩
  have few := Finset.card_le_card_of_surjOn _ onto
  rw [Finset.card_image_of_injective _ fun _ _ => Level.finite.inj, Finset.card_range,
    Finset.card_range] at few
  omega

theorem Fixpoint.nodeLevel_le (fixpoint : Fixpoint a final) {h : Nat}
    (level : final.nodeLevel n = .finite h) : h ≤ a.numClasses := by
  cases h with
  | zero => exact Nat.zero_le _
  | succ h =>
      obtain ⟨d, _, child⟩ := fixpoint.exists_child level
      exact fixpoint.classLevel_lt child

/-! ## What visits do -/

/-- Every visit leaves the entries where they are or lowers them. -/
theorem Sound.visit_le (wf : a.WellFormed) (sound : Sound a l) (inside : n < a.numNodes) :
    (Levels.visit a l n).1 ≤ l := by
  refine le_iff.mpr ⟨sound.classLevel_visit_le wf inside, fun m => ?_⟩
  rcases sound.visit_cases wf inside with ⟨same, _⟩ | ⟨lower, nodes, _⟩
  · rw [same]
  · rw [nodes m]
    split
    · rename_i same
      exact same ▸ lower.le
    · exact le_rfl

theorem Sound.visit_le_candidate (wf : a.WellFormed) (sound : Sound a l) (inside : n < a.numNodes) :
    (Levels.visit a l n).1.nodeLevel n ≤ candidate a l n := by
  rcases sound.visit_cases wf inside with ⟨same, low⟩ | ⟨_, nodes, _⟩
  · rwa [same]
  · rw [nodes n, if_pos rfl]

/-- No visit takes an entry below a fixpoint. -/
theorem Fixpoint.le_visit (fixpoint : Fixpoint a final) (wf : a.WellFormed) (sound : Sound a l)
    (below : final ≤ l) (inside : n < a.numNodes) : final ≤ (visit a l n).1 := by
  rcases sound.visit_cases wf inside with ⟨same, _⟩ | ⟨_, nodes, classes⟩
  · rwa [same]
  have settled : final.nodeLevel n ≤ candidate a l n :=
    (fixpoint.node_eq n inside).le.trans (candidate_mono below n)
  refine le_iff.mpr ⟨fun d => ?_, fun m => ?_⟩
  · rw [classes d]
    split
    · rename_i own
      exact le_min (own ▸ (fixpoint.class_le wf inside).trans settled) (below.1 d)
    · exact below.1 d
  · rw [nodes m]
    split
    · rename_i same
      exact same ▸ settled
    · exact below.2 m

theorem visitAll_append (first second : List Nat) :
    ∀ l : Levels, (visitAll a l (first ++ second)).1 =
      (visitAll a (visitAll a l first).1 second).1 := by
  induction first with
  | nil => exact fun _ => rfl
  | cons n rest ih => exact fun l => ih (visit a l n).1

theorem Sound.visitAll_le (wf : a.WellFormed) (nodes : List Nat) :
    ∀ {l : Levels}, Sound a l → (∀ n ∈ nodes, n < a.numNodes) →
      (Levels.visitAll a l nodes).1 ≤ l := by
  induction nodes with
  | nil => exact fun _ _ => le_rfl
  | cons n rest ih =>
      intro l sound inside
      have here := inside n List.mem_cons_self
      have later := ih (sound.visit wf here) fun m hm => inside m (List.mem_cons_of_mem n hm)
      exact later.trans (sound.visit_le wf here)

theorem Fixpoint.le_visitAll (fixpoint : Fixpoint a final) (wf : a.WellFormed) (nodes : List Nat) :
    ∀ {l : Levels}, Sound a l → final ≤ l → (∀ n ∈ nodes, n < a.numNodes) →
      final ≤ (visitAll a l nodes).1 := by
  induction nodes with
  | nil => exact fun _ below _ => below
  | cons n rest ih =>
      intro l sound below inside
      have here := inside n List.mem_cons_self
      exact ih (sound.visit wf here) (fixpoint.le_visit wf sound below here) fun m hm =>
        inside m (List.mem_cons_of_mem n hm)

/-- Visits bring each visited node down to what its children allowed at the start. -/
theorem Sound.visitAll_le_candidate (wf : a.WellFormed) (nodes : List Nat) :
    ∀ {l : Levels}, Sound a l → (∀ n ∈ nodes, n < a.numNodes) →
      ∀ n ∈ nodes, (Levels.visitAll a l nodes).1.nodeLevel n ≤ candidate a l n := by
  induction nodes with
  | nil => simp
  | cons n rest ih =>
      intro l sound inside m member
      have here := inside n List.mem_cons_self
      have later := fun m hm => inside m (List.mem_cons_of_mem n hm)
      have after := sound.visit wf here
      rcases List.mem_cons.mp member with rfl | member
      · exact ((Sound.visitAll_le wf rest after later).2 m).trans
          (sound.visit_le_candidate wf here)
      · exact (ih after later m member).trans (candidate_mono (sound.visit_le wf here) m)

/-! ## Layer by layer -/

/-- The entries whose fixpoint lies below this height have reached it. -/
def SettledBelow (final : Levels) (height : Nat) (l : Levels) : Prop :=
  (∀ c, final.classLevel c < .finite height → l.classLevel c = final.classLevel c) ∧
  ∀ n, final.nodeLevel n < .finite height → l.nodeLevel n = final.nodeLevel n

/-- Nodes whose children are settled are settled by visits to all nodes, and then so is every class
that lies as low as one of them. -/
theorem Fixpoint.settledBelow_succ (fixpoint : Fixpoint a final) (wf : a.WellFormed)
    (sound : Sound a l) (below : final ≤ l) {height : Nat} (settled : SettledBelow final height l) :
    SettledBelow final (height + 1) (pass a l).1 := by
  have all : ∀ n ∈ List.range l.ofNode.size, n < a.numNodes := fun n member =>
    sound.node_size ▸ List.mem_range.mp member
  have belowAfter : final ≤ (pass a l).1 := fixpoint.le_visitAll wf _ sound below all
  have nodes : ∀ n, final.nodeLevel n < .finite (height + 1) →
      (pass a l).1.nodeLevel n = final.nodeLevel n := by
    intro n low
    obtain ⟨h, level⟩ := Level.exists_of_lt low
    have inside := inside_of_nodeLevel fixpoint.node_size level
    have children : candidate a l n = candidate a final n := by
      refine congrArg Level.above (List.map_congr_left fun d child => settled.1 d ?_)
      rw [fixpoint.node_eq n inside] at level low
      have less := Level.lt_of_mem_above level _ (List.mem_map_of_mem child)
      rw [level, Level.finite_lt_finite] at low
      exact lt_of_lt_of_le less ((Level.finite_le_finite _ _).mpr (by omega))
    refine le_antisymm ?_ (belowAfter.2 n)
    rw [fixpoint.node_eq n inside, ← children]
    exact Sound.visitAll_le_candidate wf _ sound all n
      (List.mem_range.mpr (sound.node_size.symm ▸ inside))
  refine ⟨fun c low => ?_, nodes⟩
  obtain ⟨h, level⟩ := Level.exists_of_lt low
  obtain ⟨n, member, same⟩ := fixpoint.exists_member level
  have inside := inside_of_classLevel fixpoint.class_size level
  have le := ((sound.pass wf).lowest wf c inside).2 (.inr ⟨n, member, rfl⟩)
  rw [nodes n (by rwa [same, ← level]), same, ← level] at le
  exact le_antisymm le (belowAfter.1 c)

/-! ## The course of the sweep -/

/-- The levels after visits to these nodes, one after the other. -/
def after (a : Arena) (visited : List Nat) : Levels := (visitAll a (unknown a) visited).1

/-- The nodes in the order in which so many passes visit them. -/
def rounds (a : Arena) (passes : Nat) : List Nat :=
  (List.replicate passes (List.range a.numNodes)).flatten

theorem sound_after (wf : a.WellFormed) {visited : List Nat}
    (inside : ∀ n ∈ visited, n < a.numNodes) : Sound a (after a visited) :=
  (sound_unknown a).visitAll wf visited inside

theorem after_le (wf : a.WellFormed) {earlier visited : List Nat} (first : earlier <+: visited)
    (inside : ∀ n ∈ visited, n < a.numNodes) : after a visited ≤ after a earlier := by
  obtain ⟨later, rfl⟩ := first
  have insideEarlier := fun n hn => inside n (List.mem_append_left later hn)
  have insideLater := fun n hn => inside n (List.mem_append_right earlier hn)
  rw [after, visitAll_append]
  exact (sound_after wf insideEarlier).visitAll_le wf later insideLater

theorem Fixpoint.le_after (fixpoint : Fixpoint a final) (wf : a.WellFormed) {visited : List Nat}
    (inside : ∀ n ∈ visited, n < a.numNodes) : final ≤ after a visited :=
  fixpoint.le_visitAll wf visited (sound_unknown a) (le_iff.mpr (by simp)) inside

theorem lt_of_mem_rounds {passes : Nat} (member : n ∈ rounds a passes) : n < a.numNodes := by
  obtain ⟨_, listed, here⟩ := List.mem_flatten.mp member
  rw [List.eq_of_mem_replicate listed] at here
  exact List.mem_range.mp here

theorem sound_rounds (wf : a.WellFormed) (passes : Nat) : Sound a (after a (rounds a passes)) :=
  sound_after wf fun _ => lt_of_mem_rounds

theorem after_rounds_succ (wf : a.WellFormed) (passes : Nat) :
    after a (rounds a (passes + 1)) = (pass a (after a (rounds a passes))).1 := by
  rw [pass, (sound_rounds wf passes).node_size, after, rounds, List.replicate_succ',
    List.flatten_concat, visitAll_append]
  rfl

theorem Fixpoint.settledBelow_rounds (fixpoint : Fixpoint a final) (wf : a.WellFormed)
    (passes : Nat) : SettledBelow final passes (after a (rounds a passes)) := by
  induction passes with
  | zero =>
      have none_below (x : Level) : ¬ x < .finite 0 := by cases x <;> simp
      exact ⟨fun c low => absurd low (none_below _), fun n low => absurd low (none_below _)⟩
  | succ passes ih =>
      rw [after_rounds_succ wf]
      exact fixpoint.settledBelow_succ wf (sound_rounds wf passes)
        (fixpoint.le_after wf fun _ => lt_of_mem_rounds) ih

/-! ## The end of the sweep -/

theorem eq_of_entries (sameClasses : l.ofClass.size = m.ofClass.size)
    (sameNodes : l.ofNode.size = m.ofNode.size) (classes : ∀ c, l.classLevel c = m.classLevel c)
    (nodes : ∀ n, l.nodeLevel n = m.nodeLevel n) : l = m := by
  obtain ⟨classesL, nodesL⟩ := l
  obtain ⟨classesM, nodesM⟩ := m
  congr 1
  · refine Array.ext sameClasses fun c left right => ?_
    simpa [classLevel, Array.getD, left, right] using classes c
  · refine Array.ext sameNodes fun n left right => ?_
    simpa [nodeLevel, Array.getD, left, right] using nodes n

/-- One pass for each class and one more reach the fixpoint, so there is only one. -/
theorem Fixpoint.eq_after (fixpoint : Fixpoint a final) (wf : a.WellFormed) :
    final = after a (rounds a (a.numClasses + 1)) := by
  have sound := sound_rounds wf (a.numClasses + 1)
  have settled := fixpoint.settledBelow_rounds wf (a.numClasses + 1)
  have below : final ≤ after a (rounds a (a.numClasses + 1)) :=
    fixpoint.le_after wf fun _ => lt_of_mem_rounds
  refine eq_of_entries (fixpoint.class_size.trans sound.class_size.symm)
    (fixpoint.node_size.trans sound.node_size.symm) (fun c => ?_) (fun n => ?_)
  · cases level : final.classLevel c with
    | finite h =>
        have few := fixpoint.classLevel_lt level
        rw [← level, settled.1 c (by rw [level, Level.finite_lt_finite]; omega)]
    | infinite => exact le_antisymm (level ▸ below.1 c) (Level.le_infinite _)
  · cases level : final.nodeLevel n with
    | finite h =>
        have few := fixpoint.nodeLevel_le level
        rw [← level, settled.2 n (by rw [level, Level.finite_lt_finite]; omega)]
    | infinite => exact le_antisymm (level ▸ below.2 n) (Level.le_infinite _)

theorem fixpoint_ofArena (wf : a.WellFormed) : Fixpoint a (ofArena a) := by
  have sound : Sound a (ofArena a) := (sound_unknown a).settle wf
  refine ⟨sound.class_size, sound.node_size, fun n inside => ?_, sound.lowest wf⟩
  exact le_antisymm (settle_quiet (unknown a) n (sound.node_size.symm ▸ inside))
    (sound.candidate_le n inside)

theorem visitAll_settled (nodes : List Nat)
    (settled : ∀ n ∈ nodes, l.nodeLevel n ≤ candidate a l n) :
    visitAll a l nodes = (l, false) := by
  induction nodes with
  | nil => rfl
  | cons n rest ih =>
      have still : visit a l n = (l, false) := by
        unfold visit
        exact if_neg (not_lt.mpr (settled n List.mem_cons_self))
      rw [visitAll, still]
      dsimp only
      rw [ih fun m hm => settled m (List.mem_cons_of_mem n hm)]
      rfl

theorem Fixpoint.pass_quiet (fixpoint : Fixpoint a final) : (pass a final).2 = false := by
  rw [pass, visitAll_settled _ fun n member => ?_]
  rw [← fixpoint.node_eq n (fixpoint.node_size ▸ List.mem_range.mp member)]

/-- The sweep makes passes as long as they change something, and one that does not. -/
theorem settle_rounds (wf : a.WellFormed) (l : Levels) : ∀ done, l = after a (rounds a done) →
    ∃ count, 1 ≤ count ∧ settle a l = after a (rounds a (done + count)) ∧
      ∀ k < count, (pass a (after a (rounds a (done + k)))).2 = true ↔ k + 1 < count := by
  fun_induction Levels.settle a l with
  | case1 l changed ih =>
      rintro done rfl
      obtain ⟨count, pos, settled, each⟩ := ih (done + 1) (after_rounds_succ wf done).symm
      refine ⟨count + 1, by omega, ?_, fun k less => ?_⟩
      · rw [settled, Nat.add_right_comm, Nat.add_assoc]
      · cases k with
        | zero => exact iff_of_true changed (by omega)
        | succ k =>
            rw [← Nat.add_assoc, Nat.add_right_comm, each k (by omega)]
            omega
  | case2 l unchanged =>
      rintro done rfl
      refine ⟨1, le_rfl, (after_rounds_succ wf done).symm, fun k less => ?_⟩
      obtain rfl : k = 0 := by omega
      exact iff_of_false unchanged (by omega)

/-- The level equations have one solution, and the sweep finds it.  Whatever nodes have been
visited, in whatever order, no entry is below the solution or has ever been lower than it is now,
and each class is as low as its lowest member.  After each pass all levels lower than the number of
passes are settled, and there are at most two passes more than there are classes, of which all but
the last one change something. -/
theorem sweep_settles_by_layers (wf : a.WellFormed) :
    Fixpoint a (ofArena a) ∧ (∀ l, Fixpoint a l → l = ofArena a) ∧
    (∀ visited, (∀ n ∈ visited, n < a.numNodes) →
      (∀ earlier, earlier <+: visited → after a visited ≤ after a earlier) ∧
      ofArena a ≤ after a visited ∧ Lowest a (after a visited)) ∧
    (∀ passes, SettledBelow (ofArena a) passes (after a (rounds a passes))) ∧
    ∃ count, 1 ≤ count ∧ count ≤ a.numClasses + 2 ∧ ofArena a = after a (rounds a count) ∧
      ∀ k < count, (pass a (after a (rounds a k))).2 = true ↔ k + 1 < count := by
  have fixpoint := fixpoint_ofArena wf
  refine ⟨fixpoint, ?_, ?_, fixpoint.settledBelow_rounds wf, ?_⟩
  · intro l other
    rw [other.eq_after wf, ← fixpoint.eq_after wf]
  · intro visited inside
    exact ⟨fun earlier first => after_le wf first inside, fixpoint.le_after wf inside,
      (sound_after wf inside).lowest wf⟩
  · obtain ⟨count, pos, settled, each⟩ := settle_rounds wf (unknown a) 0 rfl
    simp only [Nat.zero_add] at settled each
    refine ⟨count, pos, ?_, settled, each⟩
    by_contra more
    have changed := (each (a.numClasses + 1) (by omega)).mpr (by omega)
    rw [← fixpoint.eq_after wf, fixpoint.pass_quiet] at changed
    cases changed

/-! ## A sweep against the order of levels -/

/-- Each node refers to a class that is settled by a later node, and the first one needs all of
them. -/
def climbArena : Arena where
  classIds := #[.text "a", .text "b", .text "c"]
  nodeIds := #[.text "h", .text "f", .text "g", .text "x"]
  ops := #[.text "h", .text "f", .text "g", .text "x"]
  children := #[[0], [1], [2], []]
  owner := #[2, 0, 1, 2]
  members := #[[1], [2], [0, 3]]
  root := 0

theorem climbArena_wellFormed : climbArena.WellFormed := by
  have arranged : EGraph.arrange
      [⟨.text "a", [.text "f"]⟩, ⟨.text "b", [.text "g"]⟩, ⟨.text "c", [.text "h", .text "x"]⟩]
      [⟨.text "h", .text "h", [.text "a"]⟩, ⟨.text "f", .text "f", [.text "b"]⟩,
        ⟨.text "g", .text "g", [.text "c"]⟩, ⟨.text "x", .text "x", []⟩] (.text "a") =
      .ok climbArena := by
    with_unfolding_all rfl
  exact EGraph.arrange_wellFormed arranged

/-- Five passes over three classes, so the bound is reached. -/
theorem sweep_settles_by_layers_climb :
    climbArena.WellFormed ∧ climbArena.numClasses + 2 = 5 ∧
    ofArena climbArena = after climbArena (rounds climbArena 5) ∧
    ∀ k < 5, (pass climbArena (after climbArena (rounds climbArena k))).2 = true ↔ k + 1 < 5 := by
  obtain ⟨-, -, -, -, count, pos, bound, settled, each⟩ :=
    sweep_settles_by_layers climbArena_wellFormed
  have busy : ∀ k < 4, (pass climbArena (after climbArena (rounds climbArena k))).2 = true := by
    decide
  obtain rfl : count = 5 := by
    by_contra other
    have fewer : count < 5 := lt_of_le_of_ne bound other
    have last := (each (count - 1) (by omega)).mp (busy (count - 1) (by omega))
    omega
  exact ⟨climbArena_wellFormed, rfl, settled, each⟩

end Levels

end EGraphSearch
