import EGraphSearch.EGraph.Random
import EGraphSearch.Proofs.Rollout

/-!
# Drawing a random e-graph

Draws that answer from their ranges never fail the generator: each of its drawings ends, with a list
of children, a node, a class and a table of the shape that was asked for.  No distribution is spoken
of; what is drawn may depend on everything before.
-/

set_option autoImplicit false

namespace EGraphSearch

variable {ρ : Type}

/-! ## Draws that answer -/

/-- Whatever the source, a number is drawn from the range if there is one. -/
def RangeDraws.Between (ρ : Type) [RangeDraws ρ] (low high : Int) : Prop :=
  low < high → ∀ source : ρ,
    ∃ i, (RangeDraws.between low high source).1 = .ok i ∧ low ≤ i ∧ i < high

/-- Whatever the source, so many members of the population are drawn if it has any. -/
def RangeDraws.Samples (ρ : Type) [RangeDraws ρ] (population : Int) : Prop :=
  0 < population → ∀ (count : Nat) (source : ρ),
    ∃ drawn, (RangeDraws.sample population count source).1 = .ok drawn ∧
      drawn.length = count ∧ ∀ i ∈ drawn, (i : Int) < population

/-- Every draw that the shape asks for is answered from its range.  Nothing is asked of the draws
from the unit interval. -/
structure RandomShape.Answered (shape : RandomShape) (ρ : Type) [RangeDraws ρ] : Prop where
  size : RangeDraws.Between ρ 1 (shape.maxNodes + 1)
  arity : RangeDraws.Between ρ 0 (shape.maxArity + 1)
  earlier : ∀ k < shape.numClasses, RangeDraws.Between ρ 0 k
  sample : ∀ population ≤ shape.numClasses, RangeDraws.Samples ρ population

namespace Draws

variable [Draws ρ]

theorem between_of_bounded (bounded : Bounded ρ) {low high : Int}
    (low_fits : -9223372036854775808 ≤ low) (high_fits : high ≤ 9223372036854775808) :
    RangeDraws.Between ρ low high := by
  intro ordered source
  obtain ⟨i, below, drawn⟩ := bounded (high - low).toNat source (by omega)
  refine ⟨low + i, ?_, by omega, by omega⟩
  change (between low high source).1 = _
  rw [between, if_neg (by omega), if_neg (by omega), if_pos ordered]
  split
  · rename_i n after drew
    rw [drew] at drawn
    cases drawn
    rfl
  · rename_i fault after drew
    rw [drew] at drawn
    cases drawn

theorem manyBelow_of_bounded (bounded : Bounded ρ) {bound : Nat} (pos : 0 < bound) (count : Nat) :
    ∀ source : ρ, ∃ drawn, (manyBelow bound count source).1 = .ok drawn ∧ drawn.length = count ∧
      ∀ i ∈ drawn, i < bound := by
  induction count with
  | zero => exact fun source => ⟨[], rfl, rfl, by simp⟩
  | succ count ih =>
      intro source
      obtain ⟨first, inside, drawn⟩ := bounded bound source pos
      rcases drew : below bound source with ⟨result, next⟩
      rw [drew] at drawn
      obtain rfl : result = .ok first := drawn
      obtain ⟨rest, drawnRest, length, insideRest⟩ := ih next
      rcases drewRest : manyBelow bound count next with ⟨resultRest, after⟩
      rw [drewRest] at drawnRest
      obtain rfl : resultRest = .ok rest := drawnRest
      refine ⟨first :: rest, by simp only [manyBelow, drew, drewRest], by simp [length], ?_⟩
      intro i member
      rcases List.mem_cons.mp member with rfl | member
      · exact inside
      · exact insideRest i member

theorem samples_of_bounded (bounded : Bounded ρ) (population : Int) :
    RangeDraws.Samples ρ population := by
  intro pos count source
  obtain ⟨drawn, many, length, inside⟩ :=
    manyBelow_of_bounded bounded (show 0 < population.toNat by omega) count source
  refine ⟨drawn, ?_, length, fun i member => ?_⟩
  · change (sample population count source).1 = _
    rw [sample, if_neg (by omega), many]
  · have := inside i member
    omega

end Draws

/-- Draws below their bounds answer every shape that fits into 64 bits. -/
theorem RandomShape.answered_of_bounded [Draws ρ] (bounded : Draws.Bounded ρ) {shape : RandomShape}
    (classes_fit : shape.numClasses ≤ 9223372036854775808)
    (nodes_fit : shape.maxNodes < 9223372036854775808)
    (arity_fits : shape.maxArity < 9223372036854775808) : shape.Answered ρ where
  size := Draws.between_of_bounded bounded (by omega) (by omega)
  arity := Draws.between_of_bounded bounded (by omega) (by omega)
  earlier _ below := Draws.between_of_bounded bounded (by omega) (by omega)
  sample population _ := Draws.samples_of_bounded bounded population

namespace EGraph

/-! ## Drawings that end well -/

section Yields

variable {β γ : Type}

/-- From every source the drawing ends without a fault, and its result has the property. -/
def Yields (drawing : Drawing ρ β) (P : β → Prop) : Prop :=
  ∀ source, ∃ b after, drawing source = (.ok b, after) ∧ P b

namespace Yields

theorem ret {P : β → Prop} {b : β} (holds : P b) : Yields (pure b : Drawing ρ β) P :=
  fun source => ⟨b, source, rfl, holds⟩

theorem andThen {drawing : Drawing ρ β} {next : β → Drawing ρ γ} {P : β → Prop} {Q : γ → Prop}
    (first : Yields drawing P) (rest : ∀ b, P b → Yields (next b) Q) :
    Yields (drawing >>= next) Q := by
  intro source
  obtain ⟨b, between, drew, holds⟩ := first source
  obtain ⟨c, after, drewRest, holdsRest⟩ := rest b holds between
  refine ⟨c, after, ?_, holdsRest⟩
  simp only [bind, ExceptT.bind, ExceptT.mk, StateT.bind, drew, ExceptT.bindCont, drewRest]

theorem map {drawing : Drawing ρ β} {f : β → γ} {P : β → Prop} {Q : γ → Prop}
    (first : Yields drawing P) (image : ∀ b, P b → Q (f b)) : Yields (f <$> drawing) Q :=
  first.andThen fun b holds => ret (image b holds)

theorem mono {drawing : Drawing ρ β} {P Q : β → Prop} (first : Yields drawing P)
    (weaker : ∀ b, P b → Q b) : Yields drawing Q := by
  intro source
  obtain ⟨b, after, drew, holds⟩ := first source
  exact ⟨b, after, drew, weaker b holds⟩

theorem mapM {f : β → Drawing ρ γ} {R : β → γ → Prop} (items : List β)
    (each : ∀ b ∈ items, Yields (f b) (R b)) : Yields (items.mapM f) (List.Forall₂ R items) := by
  induction items with
  | nil => exact ret .nil
  | cons b rest ih =>
      rw [List.mapM_cons]
      refine (each b List.mem_cons_self).andThen fun c first => ?_
      refine (ih fun d member => each d (List.mem_cons_of_mem _ member)).andThen fun cs others => ?_
      exact ret (.cons first others)

end Yields

/-- The list has a related element for each of the first `n` numbers. -/
theorem forall₂_range_iff {R : Nat → β → Prop} {n : Nat} {items : List β} :
    List.Forall₂ R (List.range n) items ↔
      items.length = n ∧ ∀ i (inside : i < items.length), R i items[i] := by
  rw [List.forall₂_iff_get]
  simp only [List.length_range, List.get_eq_getElem, List.getElem_range]
  constructor
  · rintro ⟨rfl, each⟩
    exact ⟨rfl, fun i inside => each i inside inside⟩
  · rintro ⟨rfl, each⟩
    exact ⟨rfl, fun i _ inside => each i inside⟩

theorem yields_drawBetween [RangeDraws ρ] {low high : Int}
    (answered : RangeDraws.Between ρ low high) (ordered : low < high) :
    Yields (drawBetween low high : Drawing ρ Int) fun i => low ≤ i ∧ i < high := by
  intro source
  obtain ⟨i, drew, inside⟩ := answered ordered source
  exact ⟨i, _, Prod.ext drew rfl, inside⟩

theorem yields_drawSample [RangeDraws ρ] {population : Int}
    (answered : RangeDraws.Samples ρ population) (pos : 0 < population) (count : Nat) :
    Yields (drawSample population count : Drawing ρ (List Nat)) fun drawn =>
      drawn.length = count ∧ ∀ i ∈ drawn, (i : Int) < population := by
  intro source
  obtain ⟨drawn, drew, inside⟩ := answered pos count source
  exact ⟨drawn, _, Prod.ext drew rfl, inside⟩

theorem yields_drawUnit [RangeDraws ρ] : Yields (drawUnit : Drawing ρ Float) fun _ => True :=
  fun _ => ⟨_, _, rfl, trivial⟩

end Yields

/-! ## What is drawn -/

/-- What the classes that node `j` of class `k` refers to are drawn as. -/
structure Picked (shape : RandomShape) (k j : Nat) (children : List Nat) : Prop where
  inside : ∀ c ∈ children, c < shape.numClasses.toNat
  arity_le : (children.length : Int) ≤ shape.maxArity + 1
  first_arity_le : j = 0 → (children.length : Int) ≤ shape.maxArity
  forward : j = 0 → ∀ c ∈ children, k < c

def DrawnNode (shape : RandomShape) (k j : Nat) (record : ENode) : Prop :=
  ∃ children, Picked shape k j children ∧
    record = ⟨randomNodeLabel k j, .text ("op" ++ toString j), children.map randomClassLabel⟩

structure DrawnClass (shape : RandomShape) (k : Nat) (entry : Label × List ENode) : Prop where
  label_eq : entry.1 = randomClassLabel k
  size_pos : 1 ≤ entry.2.length
  size_le : (entry.2.length : Int) ≤ shape.maxNodes
  nodes : ∀ j (inside : j < entry.2.length), DrawnNode shape k j entry.2[j]

structure DrawnTable (shape : RandomShape) (table : Table (List ENode)) : Prop where
  length_eq : table.length = shape.numClasses.toNat
  classes : ∀ k (inside : k < table.length), DrawnClass shape k table[k]

section Drawn

variable [RangeDraws ρ] {shape : RandomShape} {k : Nat}

theorem yields_drawMembers {population : Int} (pos : 0 < population)
    (le : population ≤ shape.numClasses) (answered : shape.Answered ρ) {arity : Int}
    (natural : 0 ≤ arity) :
    Yields (drawMembers population arity : Drawing ρ (List Nat)) fun drawn =>
      (drawn.length : Int) = arity ∧ ∀ i ∈ drawn, (i : Int) < population := by
  unfold drawMembers
  split
  · rename_i none_asked
    exact .ret ⟨by simp [none_asked], by simp⟩
  · exact (yields_drawSample (answered.sample population le) pos _).mono
      fun drawn ⟨length, below⟩ => ⟨by omega, below⟩

theorem yields_forwardChildren (natural_arity : 0 ≤ shape.maxArity) (answered : shape.Answered ρ) :
    Yields (forwardChildren shape k : Drawing ρ (List Nat)) (Picked shape k 0) := by
  unfold forwardChildren
  dsimp only
  split
  · exact .ret ⟨by simp, by simp; omega, by simpa using natural_arity, by simp⟩
  · rename_i some_later
    refine (yields_drawBetween answered.arity (by omega)).andThen fun arity within => ?_
    refine (yields_drawMembers (by omega) (by omega) answered within.1).map
      fun drawn ⟨length, below⟩ => ?_
    have later : ∀ c ∈ drawn.map (k + 1 + ·), k < c ∧ c < shape.numClasses.toNat := by
      intro c member
      obtain ⟨i, drew, rfl⟩ := List.mem_map.mp member
      have := below i drew
      omega
    exact ⟨fun c member => (later c member).2, by simp; omega, fun _ => by simp; omega,
      fun _ c member => (later c member).1⟩

theorem yields_freeChildren (natural_arity : 0 ≤ shape.maxArity) (answered : shape.Answered ρ)
    {j : Nat} (later : j ≠ 0) (inside : k < shape.numClasses.toNat) :
    Yields (freeChildren shape k : Drawing ρ (List Nat)) (Picked shape k j) := by
  unfold freeChildren
  refine (yields_drawBetween answered.arity (by omega)).andThen fun arity within => ?_
  refine (yields_drawMembers (by omega) le_rfl answered within.1).andThen
    fun children ⟨length, below⟩ => ?_
  have known : ∀ c ∈ children, c < shape.numClasses.toNat := by
    intro c member
    have := below c member
    omega
  have picked : Picked shape k j children :=
    ⟨known, by omega, fun first => absurd first later, fun first => absurd first later⟩
  split
  · exact .ret picked
  · refine yields_drawUnit.andThen fun chance _ => ?_
    split
    · refine (yields_drawBetween (answered.earlier k (by omega)) (by omega)).map
        fun back within => ?_
      refine ⟨?_, by simp; omega, fun first => absurd first later, fun first => absurd first later⟩
      intro c member
      rcases List.mem_append.mp member with member | member
      · exact known c member
      · obtain rfl := List.mem_singleton.mp member
        omega
    · exact .ret picked

theorem yields_randomNode (natural_arity : 0 ≤ shape.maxArity) (answered : shape.Answered ρ)
    (inside : k < shape.numClasses.toNat) (j : Nat) :
    Yields (randomNode shape k j : Drawing ρ ENode) (DrawnNode shape k j) := by
  have children : Yields (randomChildren shape k j : Drawing ρ (List Nat)) (Picked shape k j) := by
    unfold randomChildren
    split
    · rename_i first
      subst first
      exact yields_forwardChildren natural_arity answered
    · rename_i later
      exact yields_freeChildren natural_arity answered later inside
  exact children.map fun children picked => ⟨children, picked, rfl⟩

theorem yields_randomClass (some_node : 1 ≤ shape.maxNodes)
    (natural_arity : 0 ≤ shape.maxArity) (answered : shape.Answered ρ)
    (inside : k < shape.numClasses.toNat) :
    Yields (randomClass shape k : Drawing ρ (Label × List ENode)) (DrawnClass shape k) := by
  refine (yields_drawBetween answered.size (by omega)).andThen fun count within => ?_
  refine Yields.map (Yields.mapM (List.range count.toNat)
    fun j _ => yields_randomNode natural_arity answered inside j) fun nodes drawn => ?_
  obtain ⟨length, each⟩ := forall₂_range_iff.mp drawn
  exact ⟨rfl, by simp only [length]; omega, by simp only [length]; omega, each⟩

theorem yields_randomTable (some_node : 1 ≤ shape.maxNodes)
    (natural_arity : 0 ≤ shape.maxArity) (answered : shape.Answered ρ) :
    Yields (randomTable shape : Drawing ρ (Table (List ENode))) (DrawnTable shape) := by
  have each := Yields.mapM (List.range shape.numClasses.toNat) fun k inside =>
    yields_randomClass some_node natural_arity answered (List.mem_range.mp inside)
  refine each.mono fun table drawn => ?_
  obtain ⟨length, each⟩ := forall₂_range_iff.mp drawn
  exact ⟨length, each⟩

end Drawn

end EGraph

end EGraphSearch
