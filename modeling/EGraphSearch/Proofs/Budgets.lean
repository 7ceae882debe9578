import EGraphSearch.Proofs.Extractor
import EGraphSearch.Proofs.Search.LongerRuns

/-!
# Larger budgets

Under a larger limit the playouts find nothing dearer.  The final term is another matter: it is read
off another tree and counts towards the best pair as well, so it may be cheap under the smaller
limit and dear under the larger one.  Nothing else can make a larger limit worse, as long as both
extractions return.
-/

set_option autoImplicit false

namespace EGraphSearch

variable {σ ρ : Type}

def Settings.limited (s : Settings) (most : Nat) : Settings :=
  { s with maxPlayouts := some (.int most) }

theorem Reply.ofFloat_cost {x cost : Float} (reply : Reply.ofFloat x = .cost cost) :
    cost.isNaN = false := by
  unfold Reply.ofFloat at reply
  split at reply
  · simp at reply
  · rename_i finite
    cases reply
    simpa using (Bool.or_eq_false_iff.mp (Bool.eq_false_iff.mpr finite)).1

theorem Oracle.asker_costed {oracle : Oracle σ} {g : EGraph} {term : Term} {state : σ}
    {cost : Float} (answer : (oracle.asker g term state).1 = .ok (.cost cost)) :
    cost.isNaN = false := by
  simp only [Oracle.asker] at answer
  cases asked : (oracle.ask g term state).1 with
  | raised what =>
      simp only [asked, Reply.ofResponse] at answer
      cases answer
  | answered value =>
      simp only [asked, Reply.ofResponse] at answer
      unfold Reply.ofAnswer at answer
      split at answer
      · cases answer
      · split at answer
        · exact Reply.ofFloat_cost (Except.ok.inj answer)
        · cases answer
      · split at answer
        · exact Reply.ofFloat_cost (Except.ok.inj answer)
        · cases answer
      · cases answer
      · cases answer

section Limits

variable [Draws ρ] {s : Settings} {g : EGraph} {oracle : Oracle σ} {policy : Policy}
  {transform : Transform} {fewer more : Nat}

/-- What lets no extraction fail: settings that have passed their checks and have values of the
declared types, classes with names, answers that convert, and draws as a source promises them. -/
structure Settings.Dependable (ρ : Type) [Draws ρ] (s : Settings) (g : EGraph) (oracle : Oracle σ)
    (policy : Policy) (transform : Transform) : Prop where
  checked : ∃ options, Settings.ofOptions options = .ok s
  typed : s.WellTyped
  choosing : Policy.ofName s.rolloutPolicy = .ok policy
  valuing : Transform.ofName s.valueTransform s.failureCost = .ok transform
  checkable : g.Checkable
  convertible : oracle.Convertible g
  lawful : Draws.Lawful ρ g policy

/-- With a larger limit the playouts find nothing dearer.  The best pair as a whole is not dearer
either, exactly if it is not dearer than the final term under the smaller limit.  And extractions
that can depend on their settings return under every limit. -/
theorem Settings.larger_limit_not_dearer (alone : Number.below 1 s.numWorkers = false)
    (timeless : s.timeLimit = none)
    (paced : ∀ n, s.playoutsPerRound = some n → Number.below 0 n = true) (accepted : g.Accepted)
    (stream : Nat → ρ) (last : ρ) (state : σ) (le : fewer ≤ more) :
    (∀ short shortEnd long longEnd,
      extract ((s.limited fewer).planWith g oracle policy transform stream last) state =
        (.ok short, shortEnd) →
      extract ((s.limited more).planWith g oracle policy transform stream last) state =
        (.ok long, longEnd) →
      NoDearer
        (((s.limited fewer).planWith g oracle policy transform stream last).searched
          state).progress.best
        (((s.limited more).planWith g oracle policy transform stream last).searched
          state).progress.best ∧
      ∀ term cost, short.best = some (term, cost) →
        (Finds long.best cost ↔ ∀ final, short.cost = some final → Finds long.best final)) ∧
    ∀ most, (s.limited most).Dependable ρ g oracle policy transform →
      ∃ outcome after,
        extract ((s.limited most).planWith g oracle policy transform stream last) state =
          (.ok outcome, after) := by
  have costed : ∀ term state cost,
      ((s.planWith g oracle policy transform stream last).ask term state).1 = .ok (.cost cost) →
        cost.isNaN = false := fun _ _ _ answer => Oracle.asker_costed answer
  constructor
  · intro short shortEnd long longEnd extractedShort extractedLong
    have pacedPlan : ((s.limited fewer).planWith g oracle policy transform stream last).Paced
        fewer := ⟨alone, ⟨_, rfl, rfl⟩, timeless, paced⟩
    exact extract_longer pacedPlan accepted.wellFormed costed le extractedShort extractedLong
  · intro most dependable
    obtain ⟨options, checked⟩ := dependable.checked
    have regular := Settings.planWith_regular stream last (Settings.ofOptions_bounded checked)
      dependable.typed ⟨alone, ⟨_, rfl, rfl⟩, timeless⟩ accepted dependable.checkable
      dependable.convertible dependable.lawful dependable.choosing dependable.valuing
    have priced : (s.planWith g oracle policy transform stream last).toProblem.Priced Costed :=
      fun _ _ _ _ _ _ answer => costed _ _ _ answer
    obtain ⟨outcome, after, extracted, _⟩ := extract_ok regular priced state
    exact ⟨outcome, after, extracted⟩

end Limits

/-! ## A larger limit that loses -/

/-- A class with one node, above a class with two leaves. -/
def EGraph.forkGraph : EGraph where
  classIds := #[.text "a", .text "b"]
  nodeIds := #[.text "x", .text "p", .text "q"]
  ops := #[.text "x", .text "p", .text "q"]
  children := #[[1], [], []]
  owner := #[0, 1, 1]
  members := #[[0], [1, 2]]
  root := 0
  levels := ⟨#[.finite 1, .finite 0], #[.finite 1, .finite 0, .finite 0]⟩

theorem EGraph.forkGraph_accepted : forkGraph.Accepted := by
  have arranged : arrange [⟨.text "a", [.text "x"]⟩, ⟨.text "b", [.text "p", .text "q"]⟩]
      [⟨.text "x", .text "x", [.text "b"]⟩, ⟨.text "p", .text "p", []⟩,
        ⟨.text "q", .text "q", []⟩] (.text "a") = .ok forkGraph.toArena := by
    with_unfolding_all rfl
  exact .of_settled arranged 3 rfl ⟨1, rfl⟩

theorem EGraph.forkGraph_checkable : forkGraph.Checkable :=
  EGraph.checkable_of_labels (by simp [forkGraph, Label.key, Label.Key.isNaN])

/-- An oracle that charges one leaf more than the other. -/
def Oracle.uneven : Oracle Unit where
  ask _ term state :=
    match term.assignment.get? (.text "b") with
    | some (.text "p") => (.answered (.number 10), state)
    | _ => (.answered (.number 1), state)

theorem Oracle.uneven_convertible (g : EGraph) : Oracle.uneven.Convertible g := by
  intro term state n answered
  simp only [uneven] at answered
  split at answered <;> cases answered <;> decide

/-- The playouts draw the first leaf, and the completion of the final term the second one. -/
def forkPlan (most : Nat) : Plan Unit Endless Float :=
  ((Settings.small 0 1).limited most).planWith EGraph.forkGraph Oracle.uneven Policy.uniform
    Transform.reciprocal (fun _ => Endless.zeroes) ⟨⟨[1], 0⟩, by decide⟩

def Plan.bestCost (plan : Plan σ ρ Float) (oracle : σ) : Option Float :=
  match (extract plan oracle).1 with
  | .ok outcome => outcome.best.map Prod.snd
  | .error _ => none

theorem Settings.fork_dependable {most : Nat}
    (checked : Settings.ofOptions (Options.small most 1) = .ok (Settings.small most 1)) :
    ((Settings.small 0 1).limited most).Dependable Endless EGraph.forkGraph Oracle.uneven
      Policy.uniform Transform.reciprocal where
  checked := ⟨_, checked⟩
  typed := ⟨⟨_, rfl⟩, ⟨_, rfl⟩, rfl, ⟨_, rfl, rfl⟩, nofun⟩
  choosing := rfl
  valuing := rfl
  checkable := EGraph.forkGraph_checkable
  convertible := Oracle.uneven_convertible _
  lawful := Draws.lawful_endless

set_option maxRecDepth 4000 in
theorem Settings.larger_limit_not_dearer_fork :
    ∃ short shortEnd long longEnd,
      extract (forkPlan 1) () = (.ok short, shortEnd) ∧
      extract (forkPlan 2) () = (.ok long, longEnd) ∧
      NoDearer ((forkPlan 1).searched ()).progress.best ((forkPlan 2).searched ()).progress.best ∧
      ∀ term cost, short.best = some (term, cost) →
        (Finds long.best cost ↔ ∀ final, short.cost = some final → Finds long.best final) := by
  obtain ⟨compared, returns⟩ := Settings.larger_limit_not_dearer
    (show Number.below 1 (Settings.small 0 1).numWorkers = false from rfl) rfl nofun
    EGraph.forkGraph_accepted (fun _ => Endless.zeroes) ⟨⟨[1], 0⟩, by decide⟩ () (Nat.le_succ 1)
  obtain ⟨short, shortEnd, extractedShort⟩ := returns 1 (Settings.fork_dependable rfl)
  obtain ⟨long, longEnd, extractedLong⟩ := returns 2 (Settings.fork_dependable rfl)
  exact ⟨short, shortEnd, long, longEnd, extractedShort, extractedLong,
    compared short shortEnd long longEnd extractedShort extractedLong⟩

set_option maxRecDepth 4000 in
/-- After one playout the final term is the cheap one; after two it is the dear one, and so is every
term that the playouts have seen. -/
theorem second_playout_loses :
    EGraph.forkGraph.Accepted ∧ EGraph.forkGraph.Checkable ∧
    Oracle.uneven.Convertible EGraph.forkGraph ∧
    Draws.Lawful Endless EGraph.forkGraph Policy.uniform ∧
    Settings.ofOptions (Options.small 0 1) = .ok (Settings.small 0 1) ∧
    (forkPlan 1).bestCost () = some 1 ∧ (forkPlan 2).bestCost () = some 10 ∧
    ¬ (10 : Float) ≤ 1 :=
  ⟨EGraph.forkGraph_accepted, EGraph.forkGraph_checkable, Oracle.uneven_convertible _,
    Draws.lawful_endless, rfl, by decide +kernel, by decide +kernel, by decide⟩

end EGraphSearch
