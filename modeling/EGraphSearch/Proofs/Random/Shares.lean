import EGraphSearch.Proofs.EGraph.Sweep
import EGraphSearch.Proofs.Number.Values
import EGraphSearch.Proofs.Number.Sum
import EGraphSearch.Proofs.Random.Seeded

/-!
# Seeded choices by shares

The shares of up to `2 ^ 20` legal moves are divided and added up with so little rounding that
their sum stays within the tolerance, and the last running sum, divided by itself, is one, which
no draw from the unit interval reaches.  So a choice by shares is the index of one of the moves.
-/

set_option autoImplicit false

namespace EGraphSearch

-- quotients of reals are those of the field
attribute [-instance] Scalar.toDiv

namespace Rounding

open Doubles (point?)
open EGraphSearch.Sum (Sums)

variable {x y : Float} {v w : ℝ} {N : Int} {xs : List Float}

noncomputable def value (x : Float) : ℝ := ((point? x.toModel.unpack).getD 0).toReal

theorem Stands.value_eq (stands : Stands x v) : value x = v := by
  unfold Stands at stands
  rw [value, stands]
  rfl

/-- The double is finite and not negative. -/
def Magnitude (x : Float) : Prop := Stands x (value x) ∧ 0 ≤ value x

theorem sum_nonneg (magnitudes : ∀ x ∈ xs, Magnitude x) : 0 ≤ (xs.map value).sum :=
  List.sum_nonneg (by simpa using fun x member => (magnitudes x member).2)

theorem two_zpow_sub (N : Int) (k : Nat) : (2 : ℝ) ^ N = 2 ^ k * 2 ^ (N - k) := by
  rw [← zpow_natCast, ← zpow_add₀ (by norm_num), add_sub_cancel]

/-- Whatever the order of the additions, each adds at most one rounding. -/
theorem near_of_sums (sums : Sums xs x) (lo : -1022 ≤ N) (hi : N ≤ 1022)
    (magnitudes : ∀ x ∈ xs, Magnitude x) (few : xs.length ≤ 2 ^ 50)
    (small : 2 * (xs.map value).sum ≤ 2 ^ N) :
    Near x (xs.map value).sum ((xs.length - 1 : Nat) * 2 ^ (N - 52)) := by
  induction sums with
  | nothing => exact ⟨0, by exact_mod_cast stands_ofNat (n := 0) (by decide), by simp⟩
  | one x => exact ⟨value x, (magnitudes x (List.mem_singleton_self x)).1, by simp⟩
  | @add xs ys zs x y first second perm ihx ihy =>
      have magnitudesX : ∀ x ∈ xs, Magnitude x := fun x member =>
        magnitudes x (perm.mem_iff.mpr (List.mem_append_left ys member))
      have magnitudesY : ∀ y ∈ ys, Magnitude y := fun y member =>
        magnitudes y (perm.mem_iff.mpr (List.mem_append_right xs member))
      have total : (zs.map value).sum = (xs.map value).sum + (ys.map value).sum := by
        rw [(perm.map value).sum_eq, List.map_append, List.sum_append]
      have length : zs.length = xs.length + ys.length := by
        rw [perm.length_eq, List.length_append]
      have nonnegX := sum_nonneg magnitudesX
      have nonnegY := sum_nonneg magnitudesY
      have nearX := ihx magnitudesX (by omega) (by linarith)
      have nearY := ihy magnitudesY (by omega) (by linarith)
      rcases Nat.eq_zero_or_pos xs.length with noneX | someX
      · obtain rfl := List.eq_nil_of_length_eq_zero noneX
        have sum := Near.zero_add (by simpa using nearX) nearY
        simpa [total, length] using sum
      rcases Nat.eq_zero_or_pos ys.length with noneY | someY
      · obtain rfl := List.eq_nil_of_length_eq_zero noneY
        have sum := nearX.add_zero (by simpa using nearY)
        simpa [total, length] using sum
      · have count : zs.length - 1 = (xs.length - 1) + (ys.length - 1) + 1 := by omega
        have most : ((xs.length - 1 : Nat) : ℝ) + (ys.length - 1 : Nat) ≤ 2 ^ 50 := by
          exact_mod_cast (by omega : (xs.length - 1) + (ys.length - 1) ≤ 2 ^ 50)
        have scaled := mul_le_mul_of_nonneg_right most (by positivity : (0 : ℝ) ≤ 2 ^ (N - 52))
        have power := two_zpow_sub N 52
        have sum := nearX.add nearY lo hi (by
          rw [abs_of_nonneg (add_nonneg nonnegX nonnegY)]
          push_cast at power
          linarith)
        rw [total, count]
        push_cast
        exact sum.mono (le_of_eq (by ring))

theorem abs_sum_sub_le {α : Type} {xs : List α} {f h : α → ℝ} {e : ℝ}
    (close : ∀ x ∈ xs, |f x - h x| ≤ e) :
    |(xs.map f).sum - (xs.map h).sum| ≤ xs.length * e := by
  induction xs with
  | nil => simp
  | cons x xs ih =>
      have first := close x List.mem_cons_self
      have rest := ih fun y member => close y (List.mem_cons_of_mem x member)
      simp only [List.map_cons, List.sum_cons, List.length_cons, Nat.cast_succ]
      rw [abs_le] at *
      constructor <;> linarith

/-! ## Shares of a total -/

/-- Up to `2 ^ 20` weights, none of them tiny or large. -/
structure Weights (ws : List Float) : Prop where
  some_ : ws ≠ []
  few : ws.length ≤ 2 ^ 20
  each : ∀ w ∈ ws, Stands w (value w) ∧ 1 / 2 ^ 22 ≤ value w ∧ value w ≤ 4

/-- Up to `2 ^ 20` positive shares whose sum is close to one. -/
structure Balanced (ps : List Float) : Prop where
  few : ps.length ≤ 2 ^ 20
  each : ∀ p ∈ ps, Stands p (value p) ∧ 0 < value p
  sum : |(ps.map value).sum - 1| ≤ 1 / 2 ^ 28

theorem Weights.magnitude {ws : List Float} (weights : Weights ws) : ∀ w ∈ ws, Magnitude w :=
  fun w member => ⟨(weights.each w member).1, le_trans (by positivity) (weights.each w member).2.1⟩

theorem Balanced.magnitude {ps : List Float} (balanced : Balanced ps) : ∀ p ∈ ps, Magnitude p :=
  fun p member => ⟨(balanced.each p member).1, (balanced.each p member).2.le⟩

theorem Weights.le_sum {ws : List Float} {w : Float} (weights : Weights ws) (member : w ∈ ws) :
    value w ≤ (ws.map value).sum :=
  List.single_le_sum (by simpa using fun w member => (weights.magnitude w member).2) _
    (List.mem_map_of_mem member)

theorem Weights.sum_bounds {ws : List Float} (weights : Weights ws) :
    1 / 2 ^ 22 ≤ (ws.map value).sum ∧ (ws.map value).sum ≤ 2 ^ 22 := by
  constructor
  · obtain ⟨w, member⟩ := List.exists_mem_of_ne_nil ws weights.some_
    exact (weights.each w member).2.1.trans (weights.le_sum member)
  · have most := List.sum_le_card_nsmul (ws.map value) 4
      (by simpa using fun w member => (weights.each w member).2.2)
    rw [List.length_map, nsmul_eq_mul] at most
    have few : (ws.length : ℝ) ≤ 2 ^ 20 := by exact_mod_cast weights.few
    linarith

/-- The relative error of the total. -/
theorem Weights.total {ws : List Float} (weights : Weights ws) :
    Near (Sum.total ws) (ws.map value).sum ((ws.map value).sum / 2 ^ 30) := by
  obtain ⟨low, high⟩ := weights.sum_bounds
  have positive : 0 < 2 * (ws.map value).sum := by linarith [show (0 : ℝ) < 1 / 2 ^ 22 by norm_num]
  obtain ⟨N, below, above⟩ := exists_mem_Ioc_zpow positive (by norm_num : (1 : ℝ) < 2)
  have lo : -1022 ≤ N + 1 := by
    by_contra tiny
    have := zpow_le_zpow_right₀ (by norm_num : (1 : ℝ) ≤ 2) (show N + 1 ≤ -22 by omega)
    norm_num at this low
    linarith
  have hi : N + 1 ≤ 1022 := by
    by_contra large
    have := zpow_le_zpow_right₀ (by norm_num : (1 : ℝ) ≤ 2) (show 23 ≤ N by omega)
    norm_num at this high
    linarith
  have few := weights.few
  refine (near_of_sums (Sum.sums_total ws) lo hi weights.magnitude (by omega) above).mono ?_
  have count : ((ws.length - 1 : Nat) : ℝ) ≤ 2 ^ 20 := by
    exact_mod_cast (by omega : ws.length - 1 ≤ 2 ^ 20)
  have scaled := mul_le_mul_of_nonneg_right count (by positivity : (0 : ℝ) ≤ 2 ^ (N + 1 - 52))
  have power := two_zpow_sub N 51
  rw [show N - ((51 : Nat) : ℤ) = N + 1 - 52 by push_cast; ring] at power
  rw [le_div_iff₀ (by positivity)]
  linarith

theorem Weights.share {ws : List Float} {w : Float} {t : ℝ} (weights : Weights ws)
    (member : w ∈ ws) (stands : Stands (Sum.total ws) t)
    (close : |t - (ws.map value).sum| ≤ (ws.map value).sum / 2 ^ 30) :
    Stands (w / Sum.total ws) (value (w / Sum.total ws)) ∧ 0 < value (w / Sum.total ws) ∧
      |value (w / Sum.total ws) - value w / t| ≤ 1 / 2 ^ 50 := by
  obtain ⟨low, high⟩ := weights.sum_bounds
  obtain ⟨standsW, least, _⟩ := weights.each w member
  have part := weights.le_sum member
  rw [abs_le] at close
  have positiveT : 0 < t := by norm_num at low close; linarith
  have positiveW : 0 < value w := lt_of_lt_of_le (by positivity) least
  have small : value w / t ≤ 2 ^ (1 : ℤ) := by
    rw [div_le_iff₀ positiveT]
    norm_num at low close ⊢
    linarith
  obtain ⟨p, standsP, error⟩ := standsW.div stands positiveW positiveT (by decide) (by decide) small
  have error : |p - value w / t| ≤ 1 / 2 ^ 50 := by norm_num at error ⊢; exact error
  have large : 1 / 2 ^ 45 ≤ value w / t := by
    rw [le_div_iff₀ positiveT]
    norm_num at least high close ⊢
    linarith
  rw [standsP.value_eq]
  refine ⟨standsP, ?_, error⟩
  rw [abs_le] at error
  norm_num at error large
  linarith

/-- The shares of a total add up to one but for the rounding of the total and of each share. -/
theorem Weights.balanced {ws : List Float} (weights : Weights ws) :
    Balanced (ws.map (· / Sum.total ws)) := by
  obtain ⟨low, high⟩ := weights.sum_bounds
  obtain ⟨t, stands, close⟩ := weights.total
  refine ⟨by simpa using weights.few, ?_, ?_⟩
  · intro p share
    obtain ⟨w, member, rfl⟩ := List.mem_map.mp share
    obtain ⟨standsP, positive, _⟩ := weights.share member stands close
    exact ⟨standsP, positive⟩
  · have apart := abs_sum_sub_le fun w member => (weights.share member stands close).2.2
    have quotients : (ws.map (value · / t)).sum = (ws.map value).sum / t := by
      simp only [div_eq_mul_inv, List.sum_map_mul_right]
    have few : (ws.length : ℝ) * (1 / 2 ^ 50) ≤ 1 / 2 ^ 30 := by
      have few : (ws.length : ℝ) ≤ 2 ^ 20 := by exact_mod_cast weights.few
      linarith
    rw [abs_le] at close
    have positiveT : 0 < t := by norm_num at low close; linarith
    have ratio : |(ws.map value).sum / t - 1| ≤ 1 / 2 ^ 29 := by
      rw [div_sub_one positiveT.ne', abs_div, abs_of_pos positiveT, div_le_iff₀ positiveT, abs_le]
      norm_num at low close ⊢
      constructor <;> linarith
    rw [quotients] at apart
    simp only [List.map_map, Function.comp_def]
    exact (abs_sub_le _ ((ws.map value).sum / t) 1).trans (by linarith)

theorem Stands.add_small (first : Stands x v) (second : Stands y w) (small : |v + w| ≤ 4) :
    ∃ r, Stands (x + y) r ∧ |r - (v + w)| ≤ 1 / 2 ^ 50 := by
  have small : |v + w| ≤ 2 ^ (2 : ℤ) := by norm_num; exact small
  obtain ⟨r, stands, error⟩ := first.add second (by decide) (by decide) small
  exact ⟨r, stands, by norm_num at error ⊢; exact error⟩

theorem Stands.sub_small (first : Stands x v) (second : Stands y w) (small : |v - w| ≤ 4) :
    ∃ r, Stands (x - y) r ∧ |r - (v - w)| ≤ 1 / 2 ^ 50 := by
  rw [sub_eq_add_neg] at small ⊢
  rw [minus_eq]
  exact first.add_small second.neg small

end Rounding

namespace Pcg64

open Rounding

variable {s c x : Float} {sv cv xv sum d : ℝ}

def compensate (state : Float × Float) (x : Float) : Float × Float :=
  let y := x - state.2
  let t := state.1 + y
  (t, (t - state.1) - y)

theorem compensatedSum_cons (first : Float) (rest : List Float) :
    compensatedSum (first :: rest) = (rest.foldl compensate (first, 0)).1 := rfl

theorem compensate_near (standsS : Stands s sv) (standsC : Stands c cv) (standsX : Stands x xv)
    (above : 0 ≤ sum) (nonneg : 0 ≤ xv) (small : sum + xv ≤ 2) (near : |sv - sum| ≤ d)
    (close : d ≤ 1) (carried : |cv| ≤ 3 / 2 ^ 50) :
    ∃ sv' cv', Stands (compensate (s, c) x).1 sv' ∧ Stands (compensate (s, c) x).2 cv' ∧
      |sv' - (sum + xv)| ≤ d + 5 / 2 ^ 50 ∧ |cv'| ≤ 3 / 2 ^ 50 := by
  rw [abs_le] at near carried
  obtain ⟨yv, standsY, errorY⟩ := standsX.sub_small standsC
    (by rw [abs_le]; norm_num at carried ⊢; constructor <;> linarith)
  rw [abs_le] at errorY
  obtain ⟨tv, standsT, errorT⟩ := standsS.add_small standsY
    (by rw [abs_le]; norm_num at carried errorY ⊢; constructor <;> linarith)
  rw [abs_le] at errorT
  obtain ⟨mv, standsM, errorM⟩ := standsT.sub_small standsS
    (by rw [abs_le]; norm_num at carried errorY errorT ⊢; constructor <;> linarith)
  rw [abs_le] at errorM
  obtain ⟨cv', standsC', errorC⟩ := standsM.sub_small standsY
    (by rw [abs_le]; norm_num at errorY errorT errorM ⊢; constructor <;> linarith)
  rw [abs_le] at errorC
  refine ⟨tv, cv', standsT, standsC', ?_, ?_⟩ <;> rw [abs_le] <;> constructor <;> linarith

/-- A compensated sum moves away from the real one by at most five roundings at each step. -/
theorem foldl_compensate_near (rest : List Float) : ∀ {s c : Float} {sv cv sum d : ℝ},
    Stands s sv → Stands c cv → 0 ≤ sum → |sv - sum| ≤ d → |cv| ≤ 3 / 2 ^ 50 →
      (∀ x ∈ rest, Magnitude x) → sum + (rest.map value).sum ≤ 2 →
        d + rest.length * (5 / 2 ^ 50) ≤ 1 →
          Near (rest.foldl compensate (s, c)).1 (sum + (rest.map value).sum)
            (d + rest.length * (5 / 2 ^ 50)) := by
  induction rest with
  | nil =>
      intro s c sv cv sum d standsS _ _ near _ _ _ _
      exact ⟨sv, standsS, by simpa using near⟩
  | cons x rest ih =>
      intro s c sv cv sum d standsS standsC nonneg near carried magnitudes small close
      obtain ⟨standsX, nonnegX⟩ := magnitudes x List.mem_cons_self
      have later : ∀ y ∈ rest, Magnitude y := fun y member =>
        magnitudes y (List.mem_cons_of_mem x member)
      have nonnegRest := sum_nonneg later
      simp only [List.map_cons, List.sum_cons, List.length_cons, Nat.cast_succ] at small close ⊢
      have steps : (0 : ℝ) ≤ rest.length * (5 / 2 ^ 50) := by positivity
      obtain ⟨sv', cv', standsS', standsC', near', carried'⟩ :=
        compensate_near standsS standsC standsX nonneg nonnegX (by linarith) near (by linarith)
          carried
      have next := ih standsS' standsC' (add_nonneg nonneg nonnegX) near' carried' later
        (by linarith) (by linarith)
      rw [add_assoc] at next
      exact next.mono (by linarith)

theorem stands_sumTolerance : Stands sumTolerance (1 / 2 ^ 26) := by
  have root : sumTolerance = Float.ofBits (996 * 2 ^ 52 + 2 ^ 52).toUInt64 := by decide +kernel
  have stands := stands_ofBits (p := 996) (Nat.le_refl (2 ^ 52)) (by decide) (by decide)
  rw [← root] at stands
  norm_num at stands ⊢
  exact stands

variable {ps : List Float}

theorem compensatedSum_near (balanced : Balanced ps) :
    Near (compensatedSum ps) (ps.map value).sum (5 / 2 ^ 30) := by
  have close := balanced.sum
  have few : (ps.length : ℝ) ≤ 2 ^ 20 := by exact_mod_cast balanced.few
  have magnitudes := balanced.magnitude
  rw [abs_le] at close
  cases ps with
  | nil => norm_num at close
  | cons first rest =>
      obtain ⟨standsF, nonneg⟩ := magnitudes first List.mem_cons_self
      simp only [List.map_cons, List.sum_cons, List.length_cons, Nat.cast_succ] at close few ⊢
      rw [compensatedSum_cons]
      have near := foldl_compensate_near rest standsF stands_zero nonneg (d := 0) (by simp)
        (by norm_num)
        (fun x member => magnitudes x (List.mem_cons_of_mem first member)) (by linarith)
        (by linarith)
      exact near.mono (by linarith)

/-- Balanced shares pass for probabilities. -/
theorem checkProbabilities_balanced (balanced : Balanced ps) : checkProbabilities ps = .ok () := by
  obtain ⟨sum, stands, near⟩ := compensatedSum_near balanced
  have close := balanced.sum
  rw [abs_le] at near close
  obtain ⟨r, standsR, error⟩ := stands.sub_small stands_one
    (by rw [abs_le]; norm_num at near close ⊢; constructor <;> linarith)
  have within : |r| < 1 / 2 ^ 26 := by
    rw [abs_le] at error
    rw [abs_lt]
    constructor <;> linarith
  have tolerated := Doubles.lt_asymm (standsR.abs.lt stands_sumTolerance within)
  have positive : ps.any (· < 0) = false := by
    rw [List.any_eq_false]
    intro p member
    obtain ⟨standsP, above⟩ := balanced.each p member
    simpa using Doubles.lt_asymm (stands_zero.lt standsP above)
  simp only [checkProbabilities, stands.not_nan, positive, Bool.false_eq_true, if_false]
  rw [if_neg tolerated]

theorem getLastD_runningSums (xs : List Float) : ∀ first : Float,
    (first :: runningSums first xs).getLastD 1 = xs.foldl (· + ·) first := by
  induction xs with
  | nil => exact fun _ => rfl
  | cons x xs ih =>
      intro first
      exact ih (first + x)

theorem length_runningSums (xs : List Float) : ∀ first : Float,
    (runningSums first xs).length = xs.length := by
  induction xs with
  | nil => exact fun _ => rfl
  | cons x xs ih => exact fun first => congrArg (· + 1) (ih (first + x))

theorem unit_stands (g : Pcg64) : ∃ u, Stands g.unit.1 u ∧ u < 1 := by
  have below : (g.next64.1 >>> 11).toNat < 2 ^ 53 := by
    have word := UInt64.toNat_lt g.next64.1
    have places : (11 : UInt64).toNat % 64 = 11 := rfl
    rw [UInt64.toNat_shiftRight, Nat.shiftRight_eq_div_pow, places]
    omega
  refine ⟨_, stands_unit below, ?_⟩
  rw [div_lt_one (by positivity)]
  exact_mod_cast below

theorem lastSum_stands {first : Float} {rest : List Float} (balanced : Balanced (first :: rest)) :
    ∃ t, Stands (rest.foldl (· + ·) first) t ∧ 0 < t := by
  have close := balanced.sum
  have short : rest.length ≤ 2 ^ 20 := Nat.le_of_succ_le balanced.few
  rw [abs_le] at close
  obtain ⟨t, stands, error⟩ := near_of_sums (Sum.Sums.foldl (.one first) rest) (N := 2)
    (by decide) (by decide) balanced.magnitude
    (by rw [List.singleton_append, List.length_cons]; omega)
    (by norm_num at close ⊢; linarith)
  refine ⟨t, stands, ?_⟩
  have few : (rest.length : ℝ) ≤ 2 ^ 20 := by exact_mod_cast short
  rw [abs_le] at error
  norm_num at close error
  linarith

/-- The last running sum over itself is one, so a draw from the unit interval leaves it out. -/
theorem weighted_balanced (balanced : Balanced ps) (g : Pcg64) :
    ∃ i < ps.length, (weighted ps g).1 = .ok i := by
  cases ps with
  | nil => exact absurd balanced.sum (by norm_num)
  | cons first rest =>
      have drawn : (weighted (first :: rest) g).1 =
          .ok (((first :: runningSums first rest).map
            (· / (first :: runningSums first rest).getLastD 1)).countP (· ≤ g.unit.1)) := by
        simp only [weighted, checkProbabilities_balanced balanced]
      rw [getLastD_runningSums] at drawn
      refine ⟨_, ?_, drawn⟩
      have length : (first :: rest).length = ((first :: runningSums first rest).map
          (· / rest.foldl (· + ·) first)).length := by
        rw [List.length_map, List.length_cons, List.length_cons, length_runningSums]
      rw [length, List.countP_lt_length_iff]
      have last : rest.foldl (· + ·) first ∈ first :: runningSums first rest := by
        rw [← getLastD_runningSums, List.getLastD_cons]
        exact List.getLastD_mem_cons
      refine ⟨_, List.mem_map_of_mem last, ?_⟩
      obtain ⟨t, stands, positive⟩ := lastSum_stands balanced
      obtain ⟨u, standsU, below⟩ := unit_stands g
      have above := standsU.lt (stands.div_self positive) below
      have left_out : ¬ rest.foldl (· + ·) first / rest.foldl (· + ·) first ≤ g.unit.1 := by
        intro le
        have itself := Doubles.lt_of_lt_of_le above le
        exact Doubles.lt_asymm itself itself
      simpa using left_out

end Pcg64

/-! ## Weights of levels -/

open Rounding

theorem levelWeight_bounds {g : EGraph} {n level : Nat} (finite : g.nodeLevel n = .finite level)
    (low : level ≤ 2 ^ 20) :
    Stands (levelWeight g n) (value (levelWeight g n)) ∧
      1 / 2 ^ 22 ≤ value (levelWeight g n) ∧ value (levelWeight g n) ≤ 4 := by
  have height : (level : ℝ) ≤ 1048576 := by exact_mod_cast low
  have nonneg : (0 : ℝ) ≤ level := Nat.cast_nonneg level
  obtain ⟨v, standsV, errorV⟩ := stands_one.add (stands_ofNat (n := level) (by omega))
    (N := 21) (by decide) (by decide)
    (by rw [abs_of_nonneg (by positivity)]; norm_num; linarith)
  rw [abs_le] at errorV
  norm_num at errorV
  obtain ⟨w, standsW, errorW⟩ := stands_one.div standsV one_pos (by linarith) (N := 1)
    (by decide) (by decide) (by rw [div_le_iff₀ (by linarith)]; norm_num; linarith)
  have small : 1 / v ≤ 2 := by rw [div_le_iff₀ (by linarith)]; linarith
  have large : 1 / 2 ^ 21 ≤ 1 / v := by
    rw [div_le_div_iff₀ (by positivity) (by linarith)]
    norm_num
    linarith
  have weight : levelWeight g n = 1 / (1 + Binary64.ofNat level) := by
    rw [levelWeight, finite]
  rw [weight, standsW.value_eq]
  rw [abs_le] at errorW
  norm_num at errorW small large ⊢
  exact ⟨standsW, by linarith, by linarith⟩

theorem Tracker.length_legalMoves_le {g : EGraph} (wf : g.toArena.WellFormed) (t : Tracker) :
    (t.legalMoves g).length ≤ g.numNodes := by
  unfold legalMoves
  cases t.pending with
  | none => exact Nat.zero_le _
  | some p =>
      refine (List.length_filter_le _ _).trans ?_
      by_cases inside : p < g.numClasses
      · have few := (List.subperm_of_subset (wf.members_nodup p inside) fun n member =>
          List.mem_range.mpr (wf.member_lt p inside n member)).length_le
        rwa [List.length_range] at few
      · have none_ : g.membersOf p = [] := by
          have outside : ¬ p < g.members.size := by rwa [wf.members_size]
          simp [Arena.membersOf, Array.getD, outside]
        rw [none_]
        exact Nat.zero_le _

theorem Tracker.finite_of_mem_legalMoves {g : EGraph} {t : Tracker} {n : Nat}
    (move : n ∈ t.legalMoves g) : (g.nodeLevel n).isFinite = true := by
  unfold legalMoves at move
  split at move
  · cases move
  · exact (isLegalFor_iff.mp (List.mem_filter.mp move).2).2.2.1

theorem Tracker.weights {g : EGraph} (accepted : g.Accepted) (classes : g.numClasses ≤ 2 ^ 20)
    (nodes : g.numNodes ≤ 2 ^ 20) {t : Tracker} (some_move : t.legalMoves g ≠ []) :
    Weights ((t.legalMoves g).map (levelWeight g)) where
  some_ := by simpa using some_move
  few := by
    rw [List.length_map]
    exact (t.length_legalMoves_le accepted.wellFormed).trans nodes
  each := by
    intro w weight
    obtain ⟨n, move, rfl⟩ := List.mem_map.mp weight
    have finite := finite_of_mem_legalMoves move
    cases level : g.nodeLevel n with
    | infinite =>
        rw [level] at finite
        cases finite
    | finite height =>
        have leveled := accepted.levels_eq
        have fixpoint := Levels.fixpoint_ofArena accepted.wellFormed
        rw [← leveled] at fixpoint
        exact levelWeight_bounds level ((fixpoint.nodeLevel_le level).trans classes)

/-- Seeded draws do what either policy asks of them, as long as the e-graph is not huge. -/
theorem Pcg64.lawful {g : EGraph} {policy : Policy} (accepted : g.Accepted)
    (classes : g.numClasses ≤ 2 ^ 20) (nodes : g.numNodes ≤ 2 ^ 20) :
    Draws.Lawful Pcg64 g policy where
  bounded := Pcg64.bounded
  weighted_lt := by
    intro _ t source some_weight
    have some_move := Tracker.legalMoves_ne_nil_of_weight some_weight
    have weights := t.weights accepted classes nodes some_move
    have drawn := Pcg64.weighted_balanced weights.balanced source
    rwa [List.length_map, List.length_map] at drawn

end EGraphSearch
