import EGraphSearch.Proofs.Search.Extraction

/-!
# Comparing two searches

A playout draws from the stream of its index and never reads the journal.  So two searches that
differ in their limit only come to states that differ in their journals only, until the shorter one
ends.  What a search has found is compared by the cost of its best pair, which no playout and no
final term makes dearer.
-/

set_option autoImplicit false

namespace EGraphSearch

variable {σ ρ : Type}

/-! ## The journal is only written -/

section Journal

variable {α : Type} [Scalar α] {p : Problem σ ρ α} {tuning : Tuning α} {stream : Nat → ρ}
  {start index count : Nat} {s t u : Progress σ α}

omit [Scalar α] in
/-- Two states of a search that differ in the journal only. -/
def Alike (s t : Progress σ α) : Prop := ∃ journal, t = { s with journal := journal }

theorem Alike.playout (p : Problem σ ρ α) (tuning : Tuning α) (start : Nat) (alike : Alike s t)
    (source : ρ) :
    (playout p tuning start source t).1 = (playout p tuning start source s).1 ∧
      Alike (playout p tuning start source s).2 (playout p tuning start source t).2 := by
  obtain ⟨journal, rfl⟩ := alike
  simp only [EGraphSearch.playout]
  cases replay p.graph s.tree start with
  | error fault => exact ⟨rfl, _, rfl⟩
  | ok tracker =>
      dsimp only
      generalize selectAndExpand p.graph (tuning.constants Scalar.zero) s.tree tracker start = walk
      rcases walk with ⟨tree, reached, fault | path⟩
      · exact ⟨rfl, _, rfl⟩
      · dsimp only
        rcases evaluateLeaf p tuning.rollouts reached s.evaluator source with
          ⟨fault | leaf, sampling⟩
        · exact ⟨rfl, _, rfl⟩
        · dsimp only
          rcases Tree.creditPath leaf.value path tree with ⟨fault | _, credited⟩
          · exact ⟨rfl, _, rfl⟩
          · exact ⟨rfl, _, rfl⟩

theorem Alike.record (alike : Alike s t) (leaf : Leaf α) :
    Alike (s.record tuning leaf) (t.record tuning leaf) := by
  obtain ⟨journal, rfl⟩ := alike
  unfold Progress.record
  dsimp only
  split <;> exact ⟨_, rfl⟩

theorem Alike.settle (alike : Alike s t) :
    t.settle.2 = s.settle.2 ∧ Alike s.settle.1 t.settle.1 := by
  obtain ⟨journal, rfl⟩ := alike
  unfold Progress.settle
  dsimp only
  split
  · exact ⟨rfl, _, rfl⟩
  · exact ⟨rfl, _, rfl⟩

end Journal

/-! ## Two limits -/

/-- The plan with another limit on its playouts. -/
def Plan.limited {α : Type} (plan : Plan σ ρ α) (most : Nat) : Plan σ ρ α :=
  { plan with maxPlayouts := some (.int most) }

/-! ## Best pairs -/

/-- A pair with a cost that is a number. -/
def Costed (found : Term × Float) : Prop := found.2.isNaN = false

/-- What was found is still there, or something at most as dear. -/
def NoDearer (old new : Option (Term × Float)) : Prop :=
  ∀ found, old = some found → ∃ found', new = some found' ∧ found'.2 ≤ found.2

theorem NoDearer.refl {best : Option (Term × Float)} (costed : Best Costed best) :
    NoDearer best best :=
  fun found same => ⟨found, same, Doubles.le_refl (costed found same)⟩

theorem NoDearer.trans {first second third : Option (Term × Float)}
    (earlier : NoDearer first second) (later : NoDearer second third) : NoDearer first third := by
  intro found same
  obtain ⟨found', same', le⟩ := earlier found same
  obtain ⟨found'', same'', le'⟩ := later found' same'
  exact ⟨found'', same'', Doubles.le_trans le' le⟩

theorem noDearer_cheaper {best : Option (Term × Float)} (costed : Best Costed best)
    (found : Term × Float) : NoDearer best (cheaper best found) := by
  rintro known rfl
  simp only [cheaper]
  split
  · rename_i lower
    exact ⟨found, rfl, Doubles.le_of_lt (of_decide_eq_true lower)⟩
  · exact ⟨known, rfl, Doubles.le_refl (costed known rfl)⟩

theorem noDearer_elim {best : Option (Term × Float)} (costed : Best Costed best)
    (leafBest : Option (Term × Float)) :
    NoDearer best (leafBest.elim best (cheaper best)) := by
  cases leafBest with
  | none => exact .refl costed
  | some found => exact noDearer_cheaper costed found

theorem cheaper_le {best : Option (Term × Float)} (costed : Best Costed best)
    {found : Term × Float} (here : Costed found) :
    ∃ found', cheaper best found = some found' ∧ found'.2 ≤ found.2 := by
  cases best with
  | none => exact ⟨found, rfl, Doubles.le_refl here⟩
  | some known =>
      simp only [cheaper]
      split
      · exact ⟨found, rfl, Doubles.le_refl here⟩
      · rename_i notLower
        refine ⟨known, rfl, Doubles.le_of_not_lt (costed known rfl) here fun lower => notLower ?_⟩
        exact decide_eq_true lower

/-- A playout finds nothing dearer. -/
theorem Sane.noDearer_play {p : Problem σ ρ Float} {tuning : Tuning Float} {start : Nat}
    {source : ρ} {s next : Progress σ Float} {leaf : Leaf Float}
    (wf : p.graph.toArena.WellFormed) (priced : p.Priced Costed) (sane : Sane p Costed s)
    (inside : start < s.tree.size) (played : playout p tuning start source s = (.ok leaf, next)) :
    NoDearer s.best (next.record tuning leaf).best := by
  rw [best_record, (playout_spec wf priced sane.faithful inside played).best_eq]
  exact noDearer_elim sane.best _

theorem noDearer_final {best : Option (Term × Float)} (costed : Best Costed best) (term : Term)
    (cost : Option Float) : NoDearer best (finalBest best term cost) := by
  cases cost with
  | none => exact .refl costed
  | some c => exact noDearer_cheaper costed (term, c)

/-- Something is found that costs at most so much. -/
def Finds (best : Option (Term × Float)) (cost : Float) : Prop :=
  ∃ term cost', best = some (term, cost') ∧ cost' ≤ cost

theorem Finds.of_noDearer {old new : Option (Term × Float)} {term : Term} {cost : Float}
    (grows : NoDearer old new) (known : old = some (term, cost)) : Finds new cost := by
  obtain ⟨⟨term', cost'⟩, same, le⟩ := grows (term, cost) known
  exact ⟨term', cost', same, le⟩

end EGraphSearch
