import EGraphSearch.Proofs.Number.Doubles
import EGraphSearch.Search.Budget

/-!
# Counting up to a number

A count has come up to a whole number once it is at least that number.  The ceiling of any number is
a count that has come up to it, a count has come up to a number unless it is below it, and a finite
number that is not below one is above zero.
-/

set_option autoImplicit false

namespace EGraphSearch

namespace Number

variable {n : Number} {whole : Int}

/-- Not an infinity and a number; whole numbers and truth values always are. -/
def Finite : Number → Prop
  | float x => x.isNaN = false ∧ x.isInf = false
  | _ => True

/-- Every number but a double that is none. -/
def Proper : Number → Prop
  | float x => x.isNaN = false
  | _ => True

theorem reachedBy_whole (isWhole : n.int? = some whole) (count : Nat) :
    n.reachedBy count = decide (whole ≤ count) := by
  cases n with
  | float x => simp [int?] at isWhole
  | truth b =>
      obtain rfl : ofTruth b = whole := Option.some.inj isWhole
      rw [Bool.eq_iff_iff]
      simp only [reachedBy, below, same, Bool.or_eq_true, decide_eq_true_eq, beq_iff_eq]
      omega
  | int i =>
      obtain rfl : i = whole := Option.some.inj isWhole
      rw [Bool.eq_iff_iff]
      simp only [reachedBy, below, same, Bool.or_eq_true, decide_eq_true_eq, beq_iff_eq]
      omega

theorem ceiling_whole (isWhole : n.int? = some whole) : n.ceiling? = some whole.toNat := by
  cases n with
  | float x => simp [int?] at isWhole
  | truth b => rw [← Option.some.inj isWhole]; rfl
  | int i => rw [← Option.some.inj isWhole]; rfl

theorem ratio_den_pos (x : Float) : 0 < (Binary64.ratio x).2 := by
  unfold Binary64.ratio
  dsimp only
  split
  · exact Nat.one_pos
  · exact Nat.pow_pos Nat.two_pos

theorem le_roundUp_mul (num : Nat) {den : Nat} (pos : 0 < den) :
    num ≤ (num + den - 1) / den * den := by
  have split_ := Nat.div_add_mod (num + den - 1) den
  have rest := Nat.mod_lt (num + den - 1) pos
  rw [Nat.mul_comm] at split_
  omega

theorem not_below_of_ceiling {count : Nat} (ceiling : n.ceiling? = some count) :
    below (.int count) n = false := by
  cases n with
  | truth b =>
      obtain rfl : (ofTruth b).toNat = count := Option.some.inj ceiling
      cases b <;> rfl
  | int i =>
      obtain rfl : i.toNat = count := Option.some.inj ceiling
      simp only [below, decide_eq_false_iff_not]
      omega
  | float x =>
      simp only [ceiling?] at ceiling
      simp only [below, intBelowFloat]
      split at ceiling
      · simp at ceiling
      · rename_i number
        rw [if_neg number]
        split at ceiling
        · rename_i infinite
          rw [if_pos infinite]
          split at ceiling
          · simp at ceiling
          · rename_i notPositive
            exact decide_eq_false notPositive
        · rename_i finite
          rw [if_neg finite]
          have denPos := ratio_den_pos x
          rcases ratio : Binary64.ratio x with ⟨num, den⟩
          rw [ratio] at denPos
          simp only [ratio] at ceiling ⊢
          split at ceiling
          · rename_i negative
            obtain rfl : 0 = count := Option.some.inj ceiling
            simp only [negative, if_true, decide_eq_false_iff_not]
            omega
          · rename_i negative
            obtain rfl : (num + den - 1) / den = count := Option.some.inj ceiling
            have covers := le_roundUp_mul num denPos
            simp only [negative, Bool.false_eq_true, if_false, decide_eq_false_iff_not, Int.not_lt]
            exact_mod_cast covers

theorem mul_lt_of_lt_roundUp {num den count : Nat} (less : count < (num + den - 1) / den) :
    count * den < num := by
  have pos : 0 < den := Nat.pos_of_ne_zero fun zero => by simp [zero] at less
  have le := (Nat.le_div_iff_mul_le pos).mp less
  rw [Nat.succ_mul] at le
  omega

/-- The ceiling is the least count that is not below a number. -/
theorem below_of_lt_ceiling {least count : Nat} (ceiling : n.ceiling? = some least)
    (less : count < least) : below (.int count) n = true := by
  cases n with
  | truth b =>
      obtain rfl : (ofTruth b).toNat = least := Option.some.inj ceiling
      simp only [below, decide_eq_true_eq]
      omega
  | int i =>
      obtain rfl : i.toNat = least := Option.some.inj ceiling
      simp only [below, decide_eq_true_eq]
      omega
  | float x =>
      simp only [ceiling?] at ceiling
      simp only [below, intBelowFloat]
      split at ceiling
      · simp at ceiling
      · rename_i number
        rw [if_neg number]
        split at ceiling
        · split at ceiling
          · simp at ceiling
          · cases ceiling
            exact absurd less (Nat.not_lt_zero _)
        · rename_i finite
          rw [if_neg finite]
          rcases ratio : Binary64.ratio x with ⟨num, den⟩
          simp only [ratio] at ceiling ⊢
          split at ceiling
          · cases ceiling
            exact absurd less (Nat.not_lt_zero _)
          · rename_i negative
            cases ceiling
            simp only [negative, Bool.false_eq_true, if_false, decide_eq_true_eq]
            exact_mod_cast mul_lt_of_lt_roundUp less

/-- A number that some counts are below, but not all of them, has a ceiling. -/
theorem exists_ceiling {few many : Nat} (runs : below (.int few) n = true)
    (stops : below (.int many) n = false) : ∃ least, n.ceiling? = some least := by
  cases n with
  | truth b => exact ⟨_, rfl⟩
  | int i => exact ⟨_, rfl⟩
  | float x =>
      simp only [below, intBelowFloat] at runs stops
      simp only [ceiling?]
      split at runs
      · simp at runs
      · rename_i number
        rw [if_neg number] at stops ⊢
        split at runs
        · rename_i infinite
          rw [if_pos infinite, runs] at stops
          simp at stops
        · rename_i finite
          rw [if_neg finite]
          split <;> exact ⟨_, rfl⟩

/-- A count that is the first not to be below a number is its ceiling. -/
theorem ceiling_eq {count : Nat} (pos : 0 < count)
    (runs : ∀ j < count, below (.int j) n = true) (stops : below (.int count) n = false) :
    n.ceiling? = some count := by
  obtain ⟨least, ceiling⟩ := exists_ceiling (runs 0 pos) stops
  have notBefore : ¬ least < count := fun less => by
    simpa [not_below_of_ceiling ceiling] using runs least less
  have notAfter : ¬ count < least := fun less => by
    simp [below_of_lt_ceiling ceiling less] at stops
  rw [ceiling, Nat.le_antisymm (Nat.not_lt.mp notAfter) (Nat.not_lt.mp notBefore)]

theorem float_reachedBy_of_ceiling {x : Float} {least count : Nat}
    (ceiling : (float x).ceiling? = some least) (reached : least ≤ count) :
    (float x).reachedBy count = true := by
  simp only [ceiling?] at ceiling
  simp only [reachedBy, below, same, floatBelowInt, intEqualsFloat, Binary64.toInt?]
  split at ceiling
  · simp at ceiling
  · rename_i number
    split at ceiling
    · rename_i infinite
      split at ceiling
      · simp at ceiling
      · rename_i notPositive
        rw [if_neg number, if_pos infinite,
          decide_eq_true (Doubles.neg_of_isInf infinite notPositive), Bool.true_or]
    · rename_i finite
      have denPos := ratio_den_pos x
      rcases ratio : Binary64.ratio x with ⟨num, den⟩
      rw [ratio] at denPos
      simp only [ratio] at ceiling ⊢
      simp only [number, finite, Bool.or_self, Bool.false_eq_true, if_false]
      have product : 0 ≤ (count : Int) * den := by positivity
      split at ceiling
      · rename_i negative
        by_cases zero : num = 0 ∧ count = 0
        · simp [zero.1, zero.2]
        · have : (0 : Int) < num + count * den := by
            rcases Nat.eq_zero_or_pos num with rfl | pos
            · have : 0 < count := by omega
              positivity
            · omega
          simp only [negative, if_true, Bool.or_eq_true, decide_eq_true_eq]
          exact .inl (by omega)
      · rename_i negative
        obtain rfl : (num + den - 1) / den = least := Option.some.inj ceiling
        have covers := Nat.le_trans (le_roundUp_mul num denPos)
          (Nat.mul_le_mul_right den reached)
        rcases Nat.lt_or_eq_of_le covers with less | rfl
        · have less : (num : Int) < count * den := by exact_mod_cast less
          simp [negative, less]
        · simp [negative, Nat.mul_div_cancel _ denPos]

theorem reachedBy_of_ceiling {least count : Nat} (ceiling : n.ceiling? = some least)
    (reached : least ≤ count) : n.reachedBy count = true := by
  cases n with
  | truth b =>
      obtain rfl : (ofTruth b).toNat = least := Option.some.inj ceiling
      rw [reachedBy_whole rfl, decide_eq_true_eq]
      omega
  | int i =>
      obtain rfl : i.toNat = least := Option.some.inj ceiling
      rw [reachedBy_whole rfl, decide_eq_true_eq]
      omega
  | float x => exact float_reachedBy_of_ceiling ceiling reached

theorem toInt?_eq_iff {x : Float} (number : x.isNaN = false) (finite : x.isInf = false)
    (count : Int) : Binary64.toInt? x = some count ↔
      (if (Binary64.parts x).negative then -((Binary64.ratio x).1 : Int)
        else (Binary64.ratio x).1) = count * (Binary64.ratio x).2 := by
  have denPos := ratio_den_pos x
  rcases ratio : Binary64.ratio x with ⟨num, den⟩
  rw [ratio] at denPos
  have den_ne : (den : Int) ≠ 0 := by exact_mod_cast Nat.ne_of_gt denPos
  simp only [Binary64.toInt?, number, finite, Bool.or_self, Bool.false_eq_true, if_false, ratio]
  by_cases rest : num % den = 0
  · obtain ⟨quotient, rfl⟩ := Nat.dvd_of_mod_eq_zero rest
    rw [if_pos rest, Nat.mul_div_cancel_left _ denPos, Option.some.injEq]
    push_cast
    cases (Binary64.parts x).negative with
    | true =>
        rw [if_pos rfl, if_pos rfl, ← mul_left_inj' den_ne, neg_mul, mul_comm (quotient : Int)]
    | false =>
        rw [if_neg Bool.false_ne_true, if_neg Bool.false_ne_true, ← mul_left_inj' den_ne,
          mul_comm (quotient : Int)]
  · rw [if_neg rest]
    refine iff_of_false (by simp) fun same => rest (Nat.mod_eq_zero_of_dvd ?_)
    refine Int.natCast_dvd_natCast.mp ?_
    cases negative : (Binary64.parts x).negative with
    | true =>
        rw [negative, if_pos rfl] at same
        exact (Int.dvd_neg).mp (same ▸ Dvd.intro_left _ rfl)
    | false =>
        rw [negative, if_neg Bool.false_ne_true] at same
        exact same ▸ Dvd.intro_left _ rfl

/-- A count has come up to a number unless it is below it; only not-a-number is neither reached nor
above. -/
theorem reachedBy_eq_not_below (proper : n.Proper) (count : Nat) :
    n.reachedBy count = !below (.int count) n := by
  cases n with
  | truth b =>
      rw [reachedBy_whole rfl, below, ← decide_not]
      simp only [Int.not_lt]
  | int i =>
      rw [reachedBy_whole rfl, below, ← decide_not]
      simp only [Int.not_lt]
  | float x =>
      have number : x.isNaN = false := proper
      simp only [reachedBy, below, same, floatBelowInt, intBelowFloat, intEqualsFloat, number,
        Bool.false_eq_true, if_false]
      cases infinite : x.isInf with
      | true =>
          have notWhole : Binary64.toInt? x = none := by simp [Binary64.toInt?, infinite]
          rw [if_pos rfl, if_pos rfl, notWhole]
          by_cases positive : 0 < x
          · simp [positive, Doubles.lt_asymm positive]
          · simp [positive, Doubles.neg_of_isInf infinite positive]
      | false =>
          have exact_ := toInt?_eq_iff number infinite count
          rcases ratio : Binary64.ratio x with ⟨num, den⟩
          simp only [ratio, Bool.false_eq_true, if_false] at exact_ ⊢
          generalize (if (Binary64.parts x).negative then -(num : Int) else (num : Int)) = signed
            at exact_ ⊢
          rw [Bool.eq_iff_iff]
          simp only [Bool.or_eq_true, decide_eq_true_eq, beq_iff_eq, Bool.not_eq_true',
            decide_eq_false_iff_not, Int.not_lt, exact_]
          exact (Int.le_iff_lt_or_eq).symm

theorem eq_of_same_int {i j : Int} (first : n.same (.int i) = true)
    (second : n.same (.int j) = true) : i = j := by
  cases n with
  | float x =>
      simp only [same, intEqualsFloat, beq_iff_eq] at first second
      exact Option.some.inj (first.symm.trans second)
  | truth b => exact (beq_iff_eq.mp first).symm.trans (beq_iff_eq.mp second)
  | int k => exact (beq_iff_eq.mp first).symm.trans (beq_iff_eq.mp second)

theorem one_le_of_not_below (atLeastOne : n.below 1 = false) (isWhole : n.int? = some whole) :
    1 ≤ whole := by
  change n.below (.int 1) = false at atLeastOne
  cases n with
  | float x => simp [int?] at isWhole
  | truth b =>
      simp only [int?, Option.some.injEq] at isWhole
      simpa [below, isWhole] using atLeastOne
  | int i =>
      cases isWhole
      simpa [below] using atLeastOne

theorem zero_below (finite : n.Finite) (atLeastOne : n.below 1 = false) :
    below (.int 0) n = true := by
  change below n (.int 1) = false at atLeastOne
  cases n with
  | truth b =>
      cases b
      · exact absurd atLeastOne (by decide)
      · rfl
  | int i =>
      simp only [below, decide_eq_false_iff_not, decide_eq_true_eq] at atLeastOne ⊢
      omega
  | float x =>
      obtain ⟨number, bounded⟩ := finite
      have denPos := ratio_den_pos x
      simp only [below, floatBelowInt, intBelowFloat, number, bounded, Bool.false_eq_true, if_false,
        decide_eq_false_iff_not, decide_eq_true_eq] at atLeastOne ⊢
      omega

end Number

end EGraphSearch
