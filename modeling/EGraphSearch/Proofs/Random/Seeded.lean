import EGraphSearch.Proofs.Rollout
import EGraphSearch.Random.Pcg64

/-!
# Seeded draws

A word is below the number of words of its width, so the high part of its product with a bound is
below the bound, whether the low part was accepted or the attempts ran out.
-/

set_option autoImplicit false

namespace EGraphSearch.Pcg64

theorem nextWord_lt (wide : Bool) (g : Pcg64) :
    (nextWord wide g).1 < if wide then Nat.pow 2 64 else Nat.pow 2 32 := by
  unfold nextWord
  cases wide with
  | false => exact UInt32.toNat_lt _
  | true => exact UInt64.toNat_lt _

theorem rejectBelow_lt {wide : Bool} {bound threshold : Nat} (pos : 0 < bound) (attempts : Nat) :
    ∀ g : Pcg64, (rejectBelow wide bound threshold attempts g).1 < bound := by
  have high_lt : ∀ g : Pcg64,
      (nextWord wide g).1 * bound / (if wide then Nat.pow 2 64 else Nat.pow 2 32) < bound :=
    fun g => Nat.div_lt_of_lt_mul (Nat.mul_lt_mul_of_pos_right (nextWord_lt wide g) pos)
  induction attempts with
  | zero => exact high_lt
  | succ attempts ih =>
      intro g
      have accepted := high_lt g
      unfold rejectBelow
      dsimp only
      generalize (if wide = true then Nat.pow 2 64 else Nat.pow 2 32) = words at accepted ⊢
      split
      · exact ih _
      · exact accepted

theorem belowPositive_lt {bound : Nat} (pos : 0 < bound) (g : Pcg64) :
    (belowPositive bound g).1 < bound := by
  unfold belowPositive
  split
  · exact pos
  · dsimp only
    have word_lt := nextWord_lt (decide (Nat.pow 2 32 < bound)) g
    generalize (if decide (Nat.pow 2 32 < bound) = true then Nat.pow 2 64 else Nat.pow 2 32) = words
      at word_lt ⊢
    split
    · rename_i whole
      exact lt_of_lt_of_eq word_lt whole.symm
    · exact rejectBelow_lt pos 1000 g

theorem bounded : Draws.Bounded Pcg64 := by
  intro bound g pos
  refine ⟨_, belowPositive_lt pos g, ?_⟩
  change (below bound g).1 = _
  rw [below, if_neg (Nat.ne_of_gt pos)]

/-- They do what the uniform policy asks of them. -/
theorem lawful_uniform {g : EGraph} : Draws.Lawful Pcg64 g .uniform := ⟨bounded, nofun⟩

end EGraphSearch.Pcg64
