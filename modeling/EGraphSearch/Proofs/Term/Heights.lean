import EGraphSearch.Proofs.Term.Picks
import Mathlib.Order.Lattice.Nat

/-!
# Heights of terms

The height of a term is the length of its longest chain of uses.  No term is lower than the settled
level of its class, since a node lies above all its children, and the term that picks a shallowest
node everywhere is as low as that: along its uses the levels fall.
-/

set_option autoImplicit false

namespace EGraphSearch

open Relation (TransGen ReflTransGen)

namespace Picks

variable {g : EGraph} {f : Picks} {c d h k : Nat}

/-- The choices that make a term of class `c`: closed under children, acyclic, and nothing picked
that `c` does not need. -/
structure IsTermOf (g : EGraph) (c : Nat) (f : Picks) : Prop where
  picked : (f c).isSome
  member : ∀ d n, f d = some n → d < g.numClasses ∧ n < g.numNodes ∧ g.ownerOf n = d
  closed : ∀ d e, f.Uses g d e → (f e).isSome
  acyclic : ∀ d, ¬ TransGen (f.Uses g) d d
  connected : ∀ d, (f d).isSome → ReflTransGen (f.Uses g) c d

theorem isTerm_iff : IsTerm g f ↔ IsTermOf g g.root f :=
  ⟨fun t => ⟨t.root_picked, t.member, t.closed, t.acyclic, t.connected⟩,
    fun t => ⟨t.picked, t.member, t.closed, t.acyclic, t.connected⟩⟩

/-- From class `c` so many uses lead on, one after the other. -/
inductive Chain (g : EGraph) (f : Picks) : Nat → Nat → Prop
  | stop (c : Nat) : Chain g f c 0
  | use {c d k : Nat} (uses : f.Uses g c d) (later : Chain g f d k) : Chain g f c (k + 1)

/-- The longest chain of uses from `c` has length `h`. -/
def HasHeight (g : EGraph) (f : Picks) (c h : Nat) : Prop := IsGreatest {k | Chain g f c k} h

/-! ## Every term has a height -/

theorem exists_common_bound (children : List Nat)
    (bounded : ∀ e ∈ children, ∃ b, ∀ k, Chain g f e k → k ≤ b) :
    ∃ b, ∀ e ∈ children, ∀ k, Chain g f e k → k ≤ b := by
  induction children with
  | nil => exact ⟨0, by simp⟩
  | cons first rest ih =>
      obtain ⟨a, boundFirst⟩ := bounded first List.mem_cons_self
      obtain ⟨b, boundRest⟩ := ih fun e he => bounded e (List.mem_cons_of_mem _ he)
      refine ⟨max a b, ?_⟩
      intro e he k chain
      rcases List.mem_cons.mp he with rfl | he
      · have := boundFirst k chain
        omega
      · have := boundRest e he k chain
        omega

theorem chains_bounded (wf : g.toArena.WellFormed) (term : IsTermOf g c f) (d : Nat)
    (inside : d < g.numClasses) : ∃ b, ∀ k, Chain g f d k → k ≤ b := by
  have climb : ∀ d : Fin g.numClasses, ∃ b, ∀ k, Chain g f d.1 k → k ≤ b := by
    intro d
    induction d using (wellFounded_uses term.acyclic).induction with
    | _ d ih =>
        cases picked : f d.1 with
        | none =>
            refine ⟨0, fun k chain => ?_⟩
            cases chain with
            | stop => exact Nat.le_refl 0
            | use uses _ => simp [Uses, picked] at uses
        | some n =>
            obtain ⟨b, bound⟩ := exists_common_bound (g := g) (f := f) (g.childrenOf n) (by
              intro e child
              have lt := wf.child_lt n (term.member _ n picked).2.1 e child
              exact ih ⟨e, lt⟩ (.single ⟨n, picked, child⟩))
            refine ⟨b + 1, fun k chain => ?_⟩
            cases chain with
            | stop => omega
            | use uses later =>
                obtain ⟨m, pickedAgain, child⟩ := uses
                cases picked.symm.trans pickedAgain
                have := bound _ child _ later
                omega
  exact climb ⟨d, inside⟩

theorem IsTermOf.class_lt (term : IsTermOf g c f) : c < g.numClasses := by
  obtain ⟨n, picked⟩ := Option.isSome_iff_exists.mp term.picked
  exact (term.member c n picked).1

theorem exists_height (wf : g.toArena.WellFormed) (term : IsTermOf g c f) :
    ∃ h, HasHeight g f c h := by
  obtain ⟨b, bound⟩ := chains_bounded wf term c term.class_lt
  have bounded : BddAbove {k | Chain g f c k} := ⟨b, bound⟩
  exact ⟨_, Nat.sSup_mem ⟨0, .stop c⟩ bounded, fun k chain => le_csSup bounded chain⟩

/-! ## No term is lower than the level -/

theorem IsTermOf.classLevel_le_of_uses (leveled : g.Leveled) (term : IsTermOf g c f)
    (picked : (f d).isSome) {level : Level}
    (below : ∀ e, f.Uses g d e → (g.classLevel e).next ≤ level) : g.classLevel d ≤ level := by
  obtain ⟨n, picked⟩ := Option.isSome_iff_exists.mp picked
  obtain ⟨_, lt, rfl⟩ := term.member d n picked
  refine le_trans (leveled.classLevel_le lt) ?_
  rw [leveled.nodeLevel_eq lt, Level.above_le_iff]
  intro own member
  obtain ⟨e, child, rfl⟩ := List.mem_map.mp member
  exact below e ⟨n, picked, child⟩

theorem classLevel_le_of_chains (leveled : g.Leveled) (term : IsTermOf g c f) :
    ∀ d, (f d).isSome → (∀ m, Chain g f d m → m ≤ k) → g.classLevel d ≤ .finite k := by
  induction k with
  | zero =>
      intro d picked bound
      apply term.classLevel_le_of_uses leveled picked
      intro e uses
      have := bound 1 (.use uses (.stop e))
      omega
  | succ k ih =>
      intro d picked bound
      apply term.classLevel_le_of_uses leveled picked
      intro e uses
      have boundChild : ∀ m, Chain g f e m → m ≤ k := by
        intro m chain
        have := bound (m + 1) (.use uses chain)
        omega
      exact Level.next_mono (ih e (term.closed d e uses) boundChild)

theorem IsTermOf.classLevel_le (leveled : g.Leveled) (term : IsTermOf g c f)
    (height : HasHeight g f c h) : g.classLevel c ≤ .finite h :=
  classLevel_le_of_chains leveled term c term.picked fun _ chain => height.2 chain

/-! ## The picks that a class needs -/

open Classical in
noncomputable def neededBy (g : EGraph) (f : Picks) (c : Nat) : Picks :=
  fun d => if ReflTransGen (f.Uses g) c d then f d else none

theorem neededBy_eq_some {n : Nat} : f.neededBy g c d = some n ↔
    ReflTransGen (f.Uses g) c d ∧ f d = some n := by
  unfold neededBy
  split
  · rename_i reached
    simp [reached]
  · rename_i unreached
    simp [unreached]

theorem reaches_neededBy (reached : ReflTransGen (f.Uses g) c d) :
    ReflTransGen ((f.neededBy g c).Uses g) c d := by
  induction reached with
  | refl => exact .refl
  | tail walk uses ih =>
      obtain ⟨m, picked, child⟩ := uses
      exact ih.tail ⟨m, neededBy_eq_some.mpr ⟨walk, picked⟩, child⟩

end Picks

/-! ## The term of shallowest nodes -/

/-- A node as shallow as its class, which can be extracted. -/
def EGraph.Shallow (g : EGraph) (c n : Nat) : Prop :=
  n < g.numNodes ∧ g.ownerOf n = c ∧ ∃ h, g.nodeLevel n = .finite h ∧ g.classLevel c = .finite h

open Classical in
noncomputable def EGraph.shallowest (g : EGraph) : Picks :=
  fun c => if h : ∃ n, g.Shallow c n then some h.choose else none

namespace EGraph.Leveled

open Picks (IsTermOf Chain HasHeight)

variable {g : EGraph} {f : Picks} {c d e h n : Nat}

theorem shallow_child (leveled : g.Leveled) (shallow : g.Shallow c n)
    (child : d ∈ g.childrenOf n) : g.classLevel d < g.classLevel c ∧ ∃ m, g.Shallow d m := by
  obtain ⟨lt, _, h, nodeLevel, classLevel⟩ := shallow
  have above := leveled.nodeLevel_eq lt
  rw [nodeLevel] at above
  have below := Level.lt_of_mem_above above.symm _ (List.mem_map_of_mem child)
  refine ⟨by rwa [classLevel], ?_⟩
  cases level : g.classLevel d with
  | finite k =>
      have inside := leveled.wellFormed.child_lt n lt d child
      obtain ⟨m, ltNode, owner, sameLevel⟩ := leveled.exists_shallowest inside level
      exact ⟨m, ltNode, owner, k, sameLevel, level⟩
  | infinite =>
      rw [level] at below
      exact absurd below (Level.not_infinite_lt _)

theorem shallowest_isSome {n : Nat} (shallow : g.Shallow c n) : (g.shallowest c).isSome := by
  have exists_ : ∃ n, g.Shallow c n := ⟨n, shallow⟩
  simp [shallowest, exists_]

theorem shallow_of_shallowest (picked : g.shallowest c = some n) : g.Shallow c n := by
  unfold shallowest at picked
  split at picked
  · rename_i exists_
    cases picked
    exact exists_.choose_spec
  · simp at picked

theorem shallowest_falls (leveled : g.Leveled) (uses : Picks.Uses g g.shallowest d e) :
    g.classLevel e < g.classLevel d := by
  obtain ⟨n, picked, child⟩ := uses
  exact (leveled.shallow_child (shallow_of_shallowest picked) child).1

/-- A class of finite level has a term along whose uses the levels fall. -/
theorem exists_falling_term (leveled : g.Leveled) (inside : c < g.numClasses)
    (level : g.classLevel c = .finite h) : ∃ f, IsTermOf g c f ∧
      ∀ d e, f.Uses g d e → g.classLevel e < g.classLevel d := by
  have falls : ∀ d e, (g.shallowest.neededBy g c).Uses g d e →
      g.classLevel e < g.classLevel d := by
    rintro d e ⟨n, picked, child⟩
    exact leveled.shallowest_falls ⟨n, (Picks.neededBy_eq_some.mp picked).2, child⟩
  refine ⟨g.shallowest.neededBy g c, ⟨?_, ?_, ?_, ?_, ?_⟩, falls⟩
  · obtain ⟨n, lt, owner, same⟩ := leveled.exists_shallowest inside level
    have picked : (g.shallowest c).isSome := shallowest_isSome ⟨lt, owner, h, same, level⟩
    obtain ⟨n, picked⟩ := Option.isSome_iff_exists.mp picked
    rw [Picks.neededBy_eq_some.mpr ⟨.refl, picked⟩]
    rfl
  · intro d n picked
    obtain ⟨lt, owner, _⟩ := shallow_of_shallowest (Picks.neededBy_eq_some.mp picked).2
    exact ⟨owner ▸ leveled.wellFormed.owner_lt n lt, lt, owner⟩
  · rintro d e ⟨n, picked, child⟩
    obtain ⟨reached, picked⟩ := Picks.neededBy_eq_some.mp picked
    obtain ⟨_, m, here⟩ := leveled.shallow_child (shallow_of_shallowest picked) child
    obtain ⟨m, pickedChild⟩ := Option.isSome_iff_exists.mp (shallowest_isSome here)
    rw [Picks.neededBy_eq_some.mpr ⟨reached.tail ⟨n, picked, child⟩, pickedChild⟩]
    rfl
  · have falls_along : ∀ d e, TransGen ((g.shallowest.neededBy g c).Uses g) d e →
        g.classLevel e < g.classLevel d := by
      intro d e walk
      induction walk with
      | single uses => exact falls _ _ uses
      | tail _ uses ih => exact lt_trans (falls _ _ uses) ih
    exact fun d cycle => lt_irrefl _ (falls_along d d cycle)
  · intro d picked
    obtain ⟨n, picked⟩ := Option.isSome_iff_exists.mp picked
    exact Picks.reaches_neededBy (Picks.neededBy_eq_some.mp picked).1

theorem chain_le_of_falling (falls : ∀ d e, f.Uses g d e → g.classLevel e < g.classLevel d)
    {k : Nat} (chain : Chain g f c k) : ∀ {h}, g.classLevel c = .finite h → k ≤ h := by
  induction chain with
  | stop c => exact fun _ => Nat.zero_le _
  | use uses later ih =>
      intro h level
      have lower := falls _ _ uses
      rw [level] at lower
      cases below : g.classLevel _ with
      | finite m =>
          rw [below] at lower
          have := ih below
          have := (Level.finite_lt_finite m h).mp lower
          omega
      | infinite =>
          rw [below] at lower
          exact absurd lower (Level.not_infinite_lt _)

/-- A term along whose uses the levels fall is as high as the level of its class. -/
theorem hasHeight_of_falling (leveled : g.Leveled) (term : IsTermOf g c f)
    (falls : ∀ d e, f.Uses g d e → g.classLevel e < g.classLevel d)
    (level : g.classLevel c = .finite h) : HasHeight g f c h := by
  obtain ⟨k, height⟩ := Picks.exists_height leveled.wellFormed term
  have atMost := chain_le_of_falling falls height.1 level
  have atLeast := term.classLevel_le leveled height
  rw [level, Level.finite_le_finite] at atLeast
  obtain rfl : k = h := by omega
  exact height

theorem exists_term_of_height (leveled : g.Leveled) (inside : c < g.numClasses)
    (level : g.classLevel c = .finite h) : ∃ f, IsTermOf g c f ∧ HasHeight g f c h := by
  obtain ⟨f, term, falls⟩ := leveled.exists_falling_term inside level
  exact ⟨f, term, leveled.hasHeight_of_falling term falls level⟩

/-! ## Levels are least heights -/

theorem classLevel_isLeast (leveled : g.Leveled) (inside : c < g.numClasses)
    (level : g.classLevel c = .finite h) :
    IsLeast {k | ∃ f, IsTermOf g c f ∧ HasHeight g f c k} h := by
  refine ⟨leveled.exists_term_of_height inside level, ?_⟩
  rintro k ⟨f, term, height⟩
  have le := term.classLevel_le leveled height
  rwa [level, Level.finite_le_finite] at le

theorem classLevel_eq_finite_iff (leveled : g.Leveled) (inside : c < g.numClasses) (h : Nat) :
    g.classLevel c = .finite h ↔
      IsLeast {k | ∃ f, IsTermOf g c f ∧ HasHeight g f c k} h := by
  refine ⟨leveled.classLevel_isLeast inside, ?_⟩
  intro least
  obtain ⟨f, term, height⟩ := least.1
  have le := term.classLevel_le leveled height
  cases level : g.classLevel c with
  | finite k => rw [(leveled.classLevel_isLeast inside level).unique least]
  | infinite =>
      rw [level] at le
      exact absurd le (Level.not_infinite_le_finite h)

theorem classLevel_eq_infinite_iff (leveled : g.Leveled) (inside : c < g.numClasses) :
    g.classLevel c = .infinite ↔ ∀ f, ¬ IsTermOf g c f := by
  constructor
  · intro infinite f term
    obtain ⟨h, height⟩ := Picks.exists_height leveled.wellFormed term
    have le := term.classLevel_le leveled height
    rw [infinite] at le
    exact Level.not_infinite_le_finite h le
  · intro without
    cases level : g.classLevel c with
    | finite h =>
        obtain ⟨f, term, _⟩ := leveled.exists_term_of_height inside level
        exact absurd term (without f)
    | infinite => rfl

end EGraph.Leveled

end EGraphSearch
