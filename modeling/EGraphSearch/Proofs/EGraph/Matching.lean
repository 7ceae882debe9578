import EGraphSearch.Proofs.EGraph.Levels
import Mathlib.Data.List.Nodup

/-!
# Matchings of e-graphs

What the root of an e-graph leads to may be found in another e-graph as well: under other numbers,
in another order, next to other classes that the root does not lead to.  A matching says where.  It
keeps the members of every class and the children of every node in order, and so the levels.
-/

set_option autoImplicit false

namespace EGraphSearch

namespace EGraph

/-- The root leads to the class, and the node is one of its members. -/
structure Offers (g : EGraph) (c n : Nat) : Prop where
  reached : g.Reaches c
  member : n ∈ g.membersOf c

section Reaches

variable {g h : EGraph} {c d n : Nat}

theorem Reaches.lt (wf : g.toArena.WellFormed) (reached : g.Reaches c) : c < g.numClasses := by
  induction reached with
  | root => exact wf.root_lt
  | child _ member child ih => exact wf.child_lt _ (wf.member_lt _ ih _ member) _ child

theorem Offers.lt (wf : g.toArena.WellFormed) (offers : g.Offers c n) : n < g.numNodes :=
  wf.member_lt c (offers.reached.lt wf) n offers.member

theorem Offers.owner (wf : g.toArena.WellFormed) (offers : g.Offers c n) : g.ownerOf n = c :=
  (wf.member_iff c (offers.reached.lt wf) n (offers.lt wf)).mp offers.member

theorem Offers.child (offers : g.Offers c n) (child : d ∈ g.childrenOf n) : g.Reaches d :=
  .child offers.reached offers.member child

/-- If every member of a class has a counterpart in the related class, whose children all have
counterparts among its own, then the related class is not the higher one. -/
theorem Leveled.classLevel_le_of_counterparts (leveled : g.Leveled) (leveled' : h.Leveled)
    {T : Nat → Nat → Prop} (inside : ∀ c d, T c d → c < g.numClasses ∧ d < h.numClasses)
    (counterpart : ∀ c d, T c d → ∀ n ∈ g.membersOf c, ∃ m ∈ h.membersOf d,
      ∀ e ∈ h.childrenOf m, ∃ b ∈ g.childrenOf n, T b e) (related : T c d) :
    h.classLevel d ≤ g.classLevel c := by
  cases level : g.classLevel c with
  | infinite => exact Level.le_infinite _
  | finite k =>
      -- by induction on the height of the lower class, through its lowest member
      induction k using Nat.strongRecOn generalizing c d with
      | _ k ih =>
          obtain ⟨insideC, insideD⟩ := inside c d related
          obtain ⟨n, ltN, owner, lowest⟩ := leveled.exists_shallowest insideC level
          obtain ⟨m, member, children⟩ := counterpart c d related n
            ((leveled.wellFormed.member_iff c insideC n ltN).mpr owner)
          have ltM := leveled'.wellFormed.member_lt d insideD m member
          have ownerM := (leveled'.wellFormed.member_iff d insideD m ltM).mp member
          have below := leveled'.classLevel_le ltM
          rw [ownerM] at below
          refine le_trans below ?_
          rw [leveled'.nodeLevel_eq ltM, Level.above_le_iff]
          rw [leveled.nodeLevel_eq ltN] at lowest
          intro l listed
          obtain ⟨e, child, rfl⟩ := List.mem_map.mp listed
          obtain ⟨b, childB, relatedB⟩ := children e child
          have listedB : g.classLevel b ∈ (g.childrenOf n).map g.classLevel :=
            List.mem_map_of_mem childB
          have under := (Level.above_le_iff _ _).mp (le_of_eq lowest) _ listedB
          obtain ⟨j, levelB⟩ : ∃ j, g.classLevel b = .finite j := by
            cases levelB : g.classLevel b with
            | finite j => exact ⟨j, rfl⟩
            | infinite =>
                rw [levelB] at under
                exact absurd under (Level.not_infinite_le_finite k)
          rw [levelB] at under
          have smaller : j < k := (Level.finite_lt_finite j k).mp (Level.lt_next under)
          exact le_trans (Level.next_mono (ih j smaller relatedB levelB)) under

end Reaches

end EGraph

/-! ## Matchings -/

/-- Where the classes that the root leads to, and their members, are found in another e-graph.  The
maps may do anything elsewhere.  Operators need not agree: nobody but an oracle looks at them. -/
structure Matching (g g' : EGraph) where
  cls : Nat → Nat
  node : Nat → Nat
  root_eq : cls g.root = g'.root
  members_eq : ∀ c, g.Reaches c → g'.membersOf (cls c) = (g.membersOf c).map node
  children_eq : ∀ c n, g.Offers c n → g'.childrenOf (node n) = (g.childrenOf n).map cls
  cls_inj : ∀ c d, g.Reaches c → g.Reaches d → cls c = cls d → c = d

namespace Matching

variable {g g' : EGraph} (M : Matching g g') {c d n m : Nat}

theorem offers_of (reached : g.Reaches c) (reached' : g'.Reaches (M.cls c))
    (member : n ∈ g.membersOf c) : g'.Offers (M.cls c) (M.node n) where
  reached := reached'
  member := by
    rw [M.members_eq c reached]
    exact List.mem_map_of_mem member

theorem reaches (reached : g.Reaches c) : g'.Reaches (M.cls c) := by
  induction reached with
  | root => exact M.root_eq ▸ .root
  | @child c n d reached member child ih =>
      refine (M.offers_of reached ih member).child ?_
      rw [M.children_eq c n ⟨reached, member⟩]
      exact List.mem_map_of_mem child

theorem offers (offers : g.Offers c n) : g'.Offers (M.cls c) (M.node n) :=
  M.offers_of offers.reached (M.reaches offers.reached) offers.member

/-- Nothing that the other root leads to is missed. -/
theorem onto {c' : Nat} (reached : g'.Reaches c') : ∃ c, g.Reaches c ∧ M.cls c = c' := by
  induction reached with
  | root => exact ⟨g.root, .root, M.root_eq⟩
  | child _ member child ih =>
      obtain ⟨c, reachedHere, rfl⟩ := ih
      rw [M.members_eq c reachedHere] at member
      obtain ⟨n, memberHere, rfl⟩ := List.mem_map.mp member
      rw [M.children_eq c n ⟨reachedHere, memberHere⟩] at child
      obtain ⟨d, childHere, rfl⟩ := List.mem_map.mp child
      exact ⟨d, .child reachedHere memberHere childHere, rfl⟩

theorem cls_beq (first : g.Reaches c) (second : g.Reaches d) :
    (M.cls c == M.cls d) = (c == d) := by
  rw [Bool.eq_iff_iff, beq_iff_eq, beq_iff_eq]
  exact ⟨M.cls_inj c d first second, congrArg M.cls⟩

/-- Different members have different counterparts. -/
theorem node_inj (wf' : g'.toArena.WellFormed) (first : g.Offers c n) (second : g.Offers d m)
    (same : M.node n = M.node m) : n = m := by
  have owner := (M.offers first).owner wf'
  rw [same, (M.offers second).owner wf'] at owner
  obtain rfl := M.cls_inj d c second.reached first.reached owner
  have nodup := wf'.members_nodup _ ((M.reaches first.reached).lt wf')
  rw [M.members_eq d first.reached] at nodup
  exact List.inj_on_of_nodup_map nodup first.member second.member same

/-! ## Levels -/

theorem classLevel_eq (leveled : g.Leveled) (leveled' : g'.Leveled) (reached : g.Reaches c) :
    g'.classLevel (M.cls c) = g.classLevel c := by
  have wf := leveled.wellFormed
  have wf' := leveled'.wellFormed
  apply le_antisymm
  · refine leveled.classLevel_le_of_counterparts leveled'
      (T := fun c d => g.Reaches c ∧ d = M.cls c) ?_ ?_ ⟨reached, rfl⟩
    · rintro c _ ⟨reached, rfl⟩
      exact ⟨reached.lt wf, (M.reaches reached).lt wf'⟩
    · rintro c _ ⟨reached, rfl⟩ n member
      refine ⟨M.node n, (M.offers ⟨reached, member⟩).member, ?_⟩
      rw [M.children_eq c n ⟨reached, member⟩]
      intro e listed
      obtain ⟨b, child, rfl⟩ := List.mem_map.mp listed
      exact ⟨b, child, .child reached member child, rfl⟩
  · refine leveled'.classLevel_le_of_counterparts leveled
      (T := fun d c => g.Reaches c ∧ d = M.cls c) ?_ ?_ ⟨reached, rfl⟩
    · rintro _ c ⟨reached, rfl⟩
      exact ⟨(M.reaches reached).lt wf', reached.lt wf⟩
    · rintro _ c ⟨reached, rfl⟩ n' listed
      rw [M.members_eq c reached] at listed
      obtain ⟨n, member, rfl⟩ := List.mem_map.mp listed
      refine ⟨n, member, fun b child => ?_⟩
      rw [M.children_eq c n ⟨reached, member⟩]
      exact ⟨M.cls b, List.mem_map_of_mem child, .child reached member child, rfl⟩

theorem nodeLevel_eq (leveled : g.Leveled) (leveled' : g'.Leveled) (offers : g.Offers c n) :
    g'.nodeLevel (M.node n) = g.nodeLevel n := by
  rw [leveled'.nodeLevel_eq ((M.offers offers).lt leveled'.wellFormed),
    leveled.nodeLevel_eq (offers.lt leveled.wellFormed), M.children_eq c n offers, List.map_map]
  exact congrArg Level.above (List.map_congr_left fun d child =>
    M.classLevel_eq leveled leveled' (offers.child child))

end Matching

end EGraphSearch
