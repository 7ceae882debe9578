import EGraphSearch.Number.Sum
import EGraphSearch.Proofs.Number.Exact

/-!
# Sums by blocks, in any order

Rows of eight, the columns that they are added into and the halves of a long sample make a tree of
additions with every number of the sample at one leaf.  In exact arithmetic every such tree comes to
the plain sum.
-/

set_option autoImplicit false

namespace EGraphSearch.Sum

section Trees

variable {α : Type} [Scalar α] {all xs ys cs : List α} {x : α}

/-- The numbers of the list, each of them once, are added up two by two. -/
inductive Sums : List α → α → Prop
  | nothing : Sums [] Scalar.zero
  | one (x : α) : Sums [x] x
  | add {xs ys zs : List α} {x y : α} (first : Sums xs x) (second : Sums ys y)
      (perm : zs.Perm (xs ++ ys)) : Sums zs (x + y)

theorem Sums.of_perm (sums : Sums xs x) (perm : ys.Perm xs) : Sums ys x := by
  cases sums with
  | nothing =>
      rw [List.perm_nil.mp perm]
      exact .nothing
  | one =>
      rw [List.perm_singleton.mp perm]
      exact .one _
  | add first second same => exact .add first second (perm.trans same)

theorem Sums.foldl (sums : Sums xs x) (ys : List α) : Sums (xs ++ ys) (ys.foldl (· + ·) x) := by
  induction ys generalizing xs x with
  | nil => simpa using sums
  | cons y ys ih =>
      have next := ih (sums.add (.one y) (.refl _))
      rwa [List.append_assoc, List.singleton_append] at next

/-- The columns add up the numbers of the list, each its own part. -/
def Columned (all cs : List α) : Prop :=
  ∃ parts : List (List α), List.Forall₂ Sums parts cs ∧ all.Perm parts.flatten

theorem columned_self (xs : List α) : Columned xs xs := by
  refine ⟨xs.map ([·]), ?_, ?_⟩
  · rw [List.forall₂_map_left_iff, List.forall₂_same]
    exact fun x _ => .one x
  · rw [← List.flatMap_def, List.flatMap_singleton']

theorem Columned.addRow {row : List α} (columned : Columned all cs)
    (same : cs.length = row.length) : Columned (all ++ row) (addRow cs row) := by
  obtain ⟨parts, sums, perm⟩ := columned
  have added : List.Forall₂ Sums (List.zipWith (· ++ [·]) parts row) (Sum.addRow cs row) ∧
      (parts.flatten ++ row).Perm (List.zipWith (· ++ [·]) parts row).flatten := by
    clear perm
    induction sums generalizing row with
    | nil =>
        obtain rfl := List.eq_nil_of_length_eq_zero same.symm
        exact ⟨.nil, .refl _⟩
    | @cons part c parts cs first rest ih =>
        cases row with
        | nil => cases same
        | cons r row =>
            obtain ⟨sums, perm⟩ := ih (Nat.succ.inj same)
            refine ⟨.cons (first.add (.one r) (.refl _)) sums, ?_⟩
            have moved : (part ++ (parts.flatten ++ r :: row)).Perm
                (part ++ ([r] ++ (parts.flatten ++ row))) :=
              List.perm_middle.append_left part
            simpa using moved.trans ((perm.append_left [r]).append_left part)
  exact ⟨_, added.1, (perm.append_right row).trans added.2⟩

theorem columned_columns (rows : Nat) : ∀ {all acc rest : List α}, Columned all acc →
    acc.length = 8 → 8 * rows ≤ rest.length →
      ∃ taken, rest = taken ++ (columns rows acc rest).2 ∧
        Columned (all ++ taken) (columns rows acc rest).1 := by
  induction rows with
  | zero =>
      intro all acc rest columned _ _
      exact ⟨[], rfl, by rwa [List.append_nil]⟩
  | succ rows ih =>
      intro all acc rest columned eight enough
      have row : acc.length = (rest.take 8).length := by
        rw [List.length_take]
        omega
      obtain ⟨taken, same, added⟩ := ih (columned.addRow row)
        (by rw [addRow, List.length_zipWith, ← row, eight, Nat.min_self])
        (show 8 * rows ≤ (rest.drop 8).length by rw [List.length_drop]; omega)
      refine ⟨rest.take 8 ++ taken, ?_, ?_⟩
      · rw [columns, List.append_assoc, ← same, List.take_append_drop]
      · rwa [columns, ← List.append_assoc]

theorem Columned.foldl (columned : Columned all cs) :
    Sums all (cs.foldl (· + ·) Scalar.zero) := by
  obtain ⟨parts, sums, perm⟩ := columned
  refine Sums.of_perm ?_ perm
  suffices from_ : ∀ {xs : List α} {x : α}, Sums xs x →
      Sums (xs ++ parts.flatten) (cs.foldl (· + ·) x) from from_ .nothing
  clear perm
  induction sums with
  | nil =>
      intro xs x start
      simpa using start
  | cons first rest ih =>
      intro xs x start
      have next := ih (start.add first (.refl _))
      rwa [List.append_assoc] at next

theorem Columned.joinColumns (columned : Columned all cs) : Sums all (joinColumns cs) := by
  unfold Sum.joinColumns
  split
  · obtain ⟨parts, sums, perm⟩ := columned
    rcases sums with _ | ⟨a, _ | ⟨b, _ | ⟨c, _ | ⟨d, _ | ⟨e, _ | ⟨f, _ | ⟨g, _ | ⟨h, _ | _⟩⟩⟩⟩⟩⟩⟩⟩
    refine ((a.add b (.refl _)).add (c.add d (.refl _)) (.refl _)).add
      ((e.add f (.refl _)).add (g.add h (.refl _)) (.refl _)) (perm.trans ?_)
    simp
  · exact columned.foldl

theorem sums_block (xs : List α) : Sums xs (block xs) := by
  unfold block
  split
  · simpa using Sums.foldl (.nothing : Sums ([] : List α) _) xs
  · rename_i long
    obtain ⟨taken, same, columned⟩ := columned_columns (xs.length / 8 - 1)
      (columned_self (xs.take 8)) (by rw [List.length_take]; omega)
      (show _ ≤ (xs.drop 8).length by rw [List.length_drop]; omega)
    have sums := columned.joinColumns.foldl (columns (xs.length / 8 - 1) (xs.take 8) (xs.drop 8)).2
    rwa [List.append_assoc, ← same, List.take_append_drop] at sums

theorem sums_total (xs : List α) : Sums xs (total xs) := by
  fun_induction total xs with
  | case1 xs long first second =>
      exact first.add second (by rw [List.take_append_drop])
  | case2 xs short => exact sums_block xs

end Trees

theorem Sums.real {xs : List ℝ} {x : ℝ} (sums : Sums xs x) : x = xs.sum := by
  induction sums with
  | nothing => exact scalar_zero_real
  | one x => exact List.sum_singleton.symm
  | add _ _ perm first second => rw [perm.sum_eq, List.sum_append, ← first, ← second]

theorem total_real (xs : List ℝ) : total xs = xs.sum := (sums_total xs).real

end EGraphSearch.Sum
