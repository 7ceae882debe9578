import EGraphSearch.EGraph.Level
import Mathlib.Order.Lattice

/-!
# The order of levels

`Level.below` is the strict part of a linear order with the infinite level on top.  In this order
`Level.above` is the least level that is beyond every child.
-/

set_option autoImplicit false

namespace EGraphSearch.Level

instance : LE Level := ⟨fun x y => y.below x = false⟩

instance : LT Level := ⟨fun x y => x.below y = true⟩

theorem le_def (x y : Level) : x ≤ y ↔ y.below x = false := Iff.rfl

theorem lt_def (x y : Level) : x < y ↔ x.below y = true := Iff.rfl

@[simp] theorem finite_le_finite (m n : Nat) : finite m ≤ finite n ↔ m ≤ n := by
  simp [le_def, below]

@[simp] theorem finite_lt_finite (m n : Nat) : finite m < finite n ↔ m < n := by
  simp [lt_def, below]

@[simp] theorem le_infinite (x : Level) : x ≤ infinite := by
  simp [le_def, below]

@[simp] theorem not_infinite_le_finite (n : Nat) : ¬ infinite ≤ finite n := by
  simp [le_def, below]

@[simp] theorem finite_lt_infinite (n : Nat) : finite n < infinite := by
  simp [lt_def, below]

@[simp] theorem not_infinite_lt (x : Level) : ¬ infinite < x := by
  simp [lt_def, below]

instance : LinearOrder Level where
  le_refl x := by cases x <;> simp
  le_trans x y z := by
    intro first second
    cases x <;> cases y <;> cases z <;> simp_all; omega
  le_antisymm x y := by
    intro first second
    cases x <;> cases y <;> simp_all; omega
  le_total x y := by
    cases x <;> cases y <;> simp; omega
  lt_iff_le_not_ge x y := by
    cases x <;> cases y <;> simp
    omega
  toDecidableLE x y := inferInstanceAs (Decidable (y.below x = false))

theorem max_le_iff_both (x y z : Level) : Level.max x y ≤ z ↔ x ≤ z ∧ y ≤ z := by
  cases x <;> cases y <;> cases z <;> simp [Level.max]

theorem next_mono {x y : Level} (le : x ≤ y) : x.next ≤ y.next := by
  cases x <;> cases y <;> simp_all [next]

theorem next_max (x y : Level) : (Level.max x y).next = Level.max x.next y.next := by
  cases x <;> cases y <;> simp [Level.max, next]

theorem lt_next {h : Nat} {x : Level} (le : x.next ≤ finite h) : x < finite h := by
  cases x with
  | finite n => exact (finite_lt_finite n h).mpr ((finite_le_finite (n + 1) h).mp le)
  | infinite => exact absurd le (not_infinite_le_finite h)

theorem next_foldl_max_le_iff (rest : List Level) (first z : Level) :
    (rest.foldl Level.max first).next ≤ z ↔ first.next ≤ z ∧ ∀ l ∈ rest, l.next ≤ z := by
  induction rest generalizing first with
  | nil => simp
  | cons second rest ih =>
      rw [List.foldl_cons, ih, next_max, max_le_iff_both]
      simp [and_assoc]

/-- A node is at most as high as a level if and only if all its children are below it. -/
theorem above_le_iff (levels : List Level) (z : Level) :
    above levels ≤ z ↔ ∀ l ∈ levels, l.next ≤ z := by
  cases levels with
  | nil => cases z <;> simp [above]
  | cons first rest =>
      rw [above, next_foldl_max_le_iff]
      simp

theorem above_map_mono {children : List Nat} {f g : Nat → Level}
    (le : ∀ c ∈ children, f c ≤ g c) : above (children.map f) ≤ above (children.map g) := by
  rw [above_le_iff]
  intro l member
  obtain ⟨c, child, rfl⟩ := List.mem_map.mp member
  exact le_trans (next_mono (le c child))
    ((above_le_iff _ _).mp le_rfl (g c) (List.mem_map_of_mem child))

theorem lt_of_mem_above {levels : List Level} {h : Nat} (level : above levels = finite h) :
    ∀ l ∈ levels, l < finite h := by
  intro l member
  exact lt_next ((above_le_iff _ _).mp (le_of_eq level) l member)

theorem above_finite {levels : List Level} (all : ∀ l ∈ levels, ∃ h, l = finite h) :
    ∃ h, above levels = finite h := by
  cases level : above levels with
  | finite h => exact ⟨h, rfl⟩
  | infinite =>
      exfalso
      have bounded : ∃ bound, ∀ l ∈ levels, l.next ≤ finite bound := by
        clear level
        induction levels with
        | nil => exact ⟨0, by simp⟩
        | cons first rest ih =>
            obtain ⟨bound, below⟩ := ih fun l member => all l (List.mem_cons_of_mem _ member)
            obtain ⟨h, rfl⟩ := all first (by simp)
            refine ⟨Nat.max bound (h + 1), ?_⟩
            intro l member
            rcases List.mem_cons.mp member with rfl | member
            · simp [next]
            · exact le_trans (below l member) (by simp)
      obtain ⟨bound, below⟩ := bounded
      have := (above_le_iff levels (finite bound)).mpr below
      rw [level] at this
      exact not_infinite_le_finite bound this

theorem isFinite_iff (x : Level) : x.isFinite = true ↔ ∃ h, x = finite h := by
  cases x <;> simp [isFinite]

end EGraphSearch.Level
