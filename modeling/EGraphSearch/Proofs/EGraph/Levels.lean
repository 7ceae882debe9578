import EGraphSearch.Proofs.EGraph.Construction
import EGraphSearch.Proofs.EGraph.LevelOrder
import Mathlib.Order.Bounds.Basic

/-!
# The settled levels

While the sweep runs, no node is below the level that its children allow and no class is above one
of its nodes; when it has settled, no node is above that level either.  So in an accepted e-graph
every node lies one above its highest child, and every class on its lowest node.
-/

set_option autoImplicit false

namespace EGraphSearch

namespace Levels

variable {a : Arena} {l : Levels}

/-- What the sweep keeps true. -/
structure Sound (a : Arena) (l : Levels) : Prop where
  class_size : l.ofClass.size = a.numClasses
  node_size : l.ofNode.size = a.numNodes
  candidate_le : ∀ n < a.numNodes, candidate a l n ≤ l.nodeLevel n
  class_le : ∀ n < a.numNodes, a.ownerOf n < a.numClasses →
    l.classLevel (a.ownerOf n) ≤ l.nodeLevel n
  attained : ∀ c < a.numClasses, l.classLevel c = .infinite ∨
    ∃ n < a.numNodes, a.ownerOf n = c ∧ l.nodeLevel n = l.classLevel c

@[simp] theorem classLevel_unknown (a : Arena) (c : Nat) :
    (unknown a).classLevel c = .infinite := by
  by_cases inside : c < a.numClasses <;> simp [unknown, classLevel, Array.getD, inside]

@[simp] theorem nodeLevel_unknown (a : Arena) (n : Nat) :
    (unknown a).nodeLevel n = .infinite := by
  by_cases inside : n < a.numNodes <;> simp [unknown, nodeLevel, Array.getD, inside]

theorem sound_unknown (a : Arena) : Sound a (unknown a) where
  class_size := by simp [unknown]
  node_size := by simp [unknown]
  candidate_le n _ := by simp
  class_le n _ _ := by simp
  attained c _ := .inl (classLevel_unknown a c)

@[simp] theorem nodeLevel_lowerClass (c n : Nat) (level : Level) :
    (l.lowerClass c level).nodeLevel n = l.nodeLevel n := by
  simp [nodeLevel, lowerClass_ofNode]

theorem nodeLevel_setNode {m n : Nat} {level : Level} (inside : n < l.ofNode.size) :
    (l.setNode n level).nodeLevel m = if m = n then level else l.nodeLevel m := by
  simp only [nodeLevel, setNode, Array.getD_eq_getD_getElem?, Array.getElem?_setIfInBounds]
  by_cases same : m = n
  · simp [same, inside]
  · simp [same, Ne.symm same]

@[simp] theorem classLevel_setNode (c n : Nat) (level : Level) :
    (l.setNode n level).classLevel c = l.classLevel c := rfl

theorem classLevel_lowerClass {c d : Nat} {level : Level} (inside : c < l.ofClass.size) :
    (l.lowerClass c level).classLevel d =
      if d = c ∧ level < l.classLevel c then level else l.classLevel d := by
  unfold lowerClass
  by_cases lower : level.below (l.classLevel c) = true
  · rw [if_pos lower]
    have lower : level < l.classLevel c := lower
    simp only [classLevel, Array.getD_eq_getD_getElem?, Array.getElem?_setIfInBounds]
    by_cases same : d = c
    · subst same
      simpa [inside] using fun le => absurd lower (not_lt.mpr (by
        simpa [classLevel, Array.getD, inside] using le))
    · simp [same, Ne.symm same]
  · rw [if_neg lower]
    have : ¬ level < l.classLevel c := lower
    simp [this]

theorem visit_ofClass_size (a : Arena) (l : Levels) (n : Nat) :
    (visit a l n).1.ofClass.size = l.ofClass.size := by
  unfold visit lowerClass
  dsimp only
  split
  · split <;> simp [setNode]
  · rfl

/-- A visit changes nothing, or it lowers one node to what its children allow, and its class with
it unless that is as low already. -/
theorem Sound.visit_cases (wf : a.WellFormed) (sound : Sound a l) {n : Nat}
    (inside : n < a.numNodes) :
    ((visit a l n).1 = l ∧ l.nodeLevel n ≤ candidate a l n) ∨
    (candidate a l n < l.nodeLevel n ∧
      (∀ m, (visit a l n).1.nodeLevel m = if m = n then candidate a l n else l.nodeLevel m) ∧
      ∀ d, (visit a l n).1.classLevel d =
        if d = a.ownerOf n then min (candidate a l n) (l.classLevel d) else l.classLevel d) := by
  have insideNode : n < l.ofNode.size := sound.node_size ▸ inside
  have insideClass : a.ownerOf n < l.ofClass.size := sound.class_size ▸ wf.owner_lt n inside
  unfold visit
  dsimp only
  split
  · rename_i lower
    refine .inr ⟨lower, fun m => ?_, fun d => ?_⟩
    · rw [nodeLevel_lowerClass, nodeLevel_setNode insideNode]
    · rw [classLevel_lowerClass (l := l.setNode n _) insideClass, classLevel_setNode,
        classLevel_setNode]
      by_cases own : d = a.ownerOf n
      · rw [own, if_pos rfl, min_def_lt]
        simp
      · simp [own]
  · rename_i kept
    exact .inl ⟨rfl, not_lt.mp kept⟩

/-- Levels of classes only sink. -/
theorem Sound.classLevel_visit_le (wf : a.WellFormed) (sound : Sound a l) {n : Nat}
    (inside : n < a.numNodes) (d : Nat) : (visit a l n).1.classLevel d ≤ l.classLevel d := by
  rcases sound.visit_cases wf inside with ⟨same, _⟩ | ⟨_, _, classes⟩
  · rw [same]
  · rw [classes d]
    split
    · exact min_le_right _ _
    · exact le_rfl

theorem Sound.visit (wf : a.WellFormed) (sound : Sound a l) {n : Nat} (inside : n < a.numNodes) :
    Sound a (visit a l n).1 := by
  rcases sound.visit_cases wf inside with ⟨same, _⟩ | ⟨lower, nodes, classes⟩
  · rwa [same]
  have sinks := sound.classLevel_visit_le wf inside
  have candidates : ∀ m, candidate a (Levels.visit a l n).1 m ≤ candidate a l m := fun m =>
    Level.above_map_mono fun c _ => sinks c
  refine ⟨?_, ?_, ?_, ?_, ?_⟩
  · rw [visit_ofClass_size, sound.class_size]
  · rw [visit_ofNode_size, sound.node_size]
  · intro m hm
    rw [nodes m]
    split
    · rename_i same
      exact same ▸ candidates m
    · exact le_trans (candidates m) (sound.candidate_le m hm)
  · intro m hm owner_lt
    rw [nodes m]
    split
    · rename_i same
      rw [same, classes, if_pos rfl]
      exact min_le_left _ _
    · exact le_trans (sinks _) (sound.class_le m hm owner_lt)
  · intro d hd
    rw [classes d]
    by_cases lowered : d = a.ownerOf n ∧ candidate a l n < l.classLevel d
    · rw [if_pos lowered.1, min_eq_left lowered.2.le]
      exact .inr ⟨n, inside, lowered.1.symm, by rw [nodes, if_pos rfl]⟩
    · have kept : (if d = a.ownerOf n then min (candidate a l n) (l.classLevel d)
          else l.classLevel d) = l.classLevel d := by
        split
        · rename_i own
          exact min_eq_right (not_lt.mp fun less => lowered ⟨own, less⟩)
        · rfl
      rw [kept]
      refine (sound.attained d hd).imp id ?_
      rintro ⟨m, hm, owner_eq, level_eq⟩
      refine ⟨m, hm, owner_eq, ?_⟩
      rw [nodes m]
      split
      · rename_i same
        subst same
        exact absurd ⟨owner_eq.symm, level_eq ▸ lower⟩ lowered
      · exact level_eq

theorem Sound.visitAll (wf : a.WellFormed) (nodes : List Nat) :
    ∀ {l : Levels}, Sound a l → (∀ n ∈ nodes, n < a.numNodes) → Sound a (visitAll a l nodes).1 := by
  induction nodes with
  | nil => intro l sound _; exact sound
  | cons n rest ih =>
      intro l sound inside
      simp only [Levels.visitAll]
      exact ih (sound.visit wf (inside n (by simp))) fun m hm => inside m (by simp [hm])

theorem Sound.pass (wf : a.WellFormed) (sound : Sound a l) : Sound a (pass a l).1 := by
  refine sound.visitAll wf _ fun n member => ?_
  rw [← sound.node_size]
  exact List.mem_range.mp member

theorem Sound.settle (wf : a.WellFormed) (sound : Sound a l) : Sound a (settle a l) := by
  fun_induction Levels.settle a l with
  | case1 l changed ih => exact ih (sound.pass wf)
  | case2 l unchanged => exact sound.pass wf

/-- Every class is as low as its lowest member, and infinite without one. -/
def Lowest (a : Arena) (l : Levels) : Prop :=
  ∀ c < a.numClasses,
    IsLeast (insert .infinite {level | ∃ n ∈ a.membersOf c, l.nodeLevel n = level}) (l.classLevel c)

theorem Sound.lowest (wf : a.WellFormed) (sound : Sound a l) : Lowest a l := by
  intro c inside
  constructor
  · rcases sound.attained c inside with infinite | ⟨n, lt, owner, same⟩
    · exact .inl infinite
    · exact .inr ⟨n, (wf.member_iff c inside n lt).mpr owner, same⟩
  · rintro level (rfl | ⟨n, member, rfl⟩)
    · exact Level.le_infinite _
    · have lt := wf.member_lt c inside n member
      obtain rfl := (wf.member_iff c inside n lt).mp member
      exact sound.class_le n lt inside

theorem visitAll_quiet (nodes : List Nat) :
    ∀ {l : Levels}, (visitAll a l nodes).2 = false →
      ∀ n ∈ nodes, l.nodeLevel n ≤ candidate a l n := by
  induction nodes with
  | nil => simp
  | cons n rest ih =>
      intro l quiet m member
      simp only [visitAll, Bool.or_eq_false_iff] at quiet
      have same := visit_unchanged quiet.1
      rcases List.mem_cons.mp member with rfl | later
      · have still := quiet.1
        unfold visit at still
        dsimp only at still
        split at still
        · simp at still
        · rename_i notLower
          exact not_lt.mp notLower
      · rw [same] at quiet
        exact ih quiet.2 m later

theorem settle_quiet (l : Levels) :
    ∀ n < (settle a l).ofNode.size, (settle a l).nodeLevel n ≤ candidate a (settle a l) n := by
  fun_induction Levels.settle a l with
  | case1 l changed ih => exact ih
  | case2 l unchanged =>
      have quiet : (visitAll a l (List.range l.ofNode.size)).2 = false := by
        simpa [pass] using unchanged
      have same : (pass a l).1 = l := by
        rcases visitAll_lighter (a := a) (List.range l.ofNode.size) (l := l) (by simp) with h | h
        · exact h.2
        · rw [quiet] at h
          simp at h
      rw [same]
      exact fun n inside => visitAll_quiet _ quiet n (List.mem_range.mpr inside)

end Levels

namespace EGraph

variable {g : EGraph}

/-- The e-graph has the levels of its arena; its root need not be extractable. -/
structure Leveled (g : EGraph) : Prop where
  wellFormed : g.toArena.WellFormed
  levels_eq : g.levels = Levels.ofArena g.toArena

theorem Accepted.leveled (accepted : g.Accepted) : g.Leveled :=
  ⟨accepted.wellFormed, accepted.levels_eq⟩

namespace Leveled

theorem sound (leveled : g.Leveled) : Levels.Sound g.toArena g.levels := by
  rw [leveled.levels_eq]
  exact (Levels.sound_unknown g.toArena).settle leveled.wellFormed

/-- A node lies one above its highest child; a leaf has level zero. -/
theorem nodeLevel_eq (leveled : g.Leveled) {n : Nat} (inside : n < g.numNodes) :
    g.nodeLevel n = Level.above ((g.childrenOf n).map g.classLevel) := by
  apply le_antisymm
  · have quiet := Levels.settle_quiet (a := g.toArena) (Levels.unknown g.toArena) n
    rw [← Levels.ofArena, ← leveled.levels_eq, leveled.sound.node_size] at quiet
    exact quiet inside
  · exact leveled.sound.candidate_le n inside

/-- A class is not above any of its nodes. -/
theorem classLevel_le (leveled : g.Leveled) {n : Nat} (inside : n < g.numNodes) :
    g.classLevel (g.ownerOf n) ≤ g.nodeLevel n :=
  leveled.sound.class_le n inside (leveled.wellFormed.owner_lt n inside)

/-- A class of finite level has a node of that level. -/
theorem exists_shallowest (leveled : g.Leveled) {c h : Nat} (inside : c < g.numClasses)
    (level : g.classLevel c = .finite h) :
    ∃ n < g.numNodes, g.ownerOf n = c ∧ g.nodeLevel n = .finite h := by
  rcases leveled.sound.attained c inside with infinite | ⟨n, hn, owner, same⟩
  · rw [EGraph.classLevel, infinite] at level
    simp at level
  · exact ⟨n, hn, owner, same.trans level⟩

end Leveled

end EGraph

end EGraphSearch
