import EGraphSearch.Proofs.Number.Counts
import EGraphSearch.Settings

/-!
# What checked settings promise

Settings that come out of options have passed every check: no limit, weight or number of attempts is
below zero, and no count is below one.
-/

set_option autoImplicit false

namespace EGraphSearch

namespace Settings

variable {options : Options} {name : String} {n : Number} {s : Settings}

/-- Every number is within the bound that is checked for it. -/
structure Bounded (s : Settings) : Prop where
  explorationConstant : s.explorationConstant.below 0 = false
  maxPlayouts : ∀ n, s.maxPlayouts = some n → n.below 0 = false
  timeLimit : ∀ n, s.timeLimit = some n → n.below 0 = false
  limited : s.maxPlayouts.isSome ∨ s.timeLimit.isSome
  rolloutsPerLeaf : s.rolloutsPerLeaf.below 1 = false
  playoutsPerRound : ∀ n, s.playoutsPerRound = some n → n.below 1 = false
  numWorkers : s.numWorkers.below 1 = false
  virtualLoss : s.virtualLoss.below 0 = false
  completionAttempts : s.completionAttempts.below 0 = false
  logInterval : s.logInterval.below 1 = false

theorem atLeast_spec {bound : Number} {cause : BadSettings} {value : Datum}
    (checked : atLeast bound cause value = .ok n) : n.below bound = false := by
  cases value with
  | number m =>
      simp only [atLeast] at checked
      split at checked
      · simp at checked
      · rename_i notBelow
        obtain rfl := Except.ok.inj checked
        simpa using notBelow
  | _ => simp [atLeast] at checked

theorem optional_spec {check : Options → String → Except Fault Number} {found : Option Number}
    (checked : optional check options name = .ok found) :
    (valueOf options name = .null ∧ found = none) ∨ ∃ n, check options name = .ok n ∧
      found = some n := by
  unfold optional at checked
  split at checked
  · rename_i empty
    exact .inl ⟨empty, (Except.ok.inj checked).symm⟩
  · cases value : check options name with
    | error fault => simp [value, Except.map] at checked
    | ok n =>
        simp only [value, Except.map, Except.ok.injEq] at checked
        exact .inr ⟨n, rfl, checked.symm⟩

theorem optional_bound {check : Options → String → Except Fault Number} {found : Option Number}
    {bound : Number} (spec : ∀ n, check options name = .ok n → n.below bound = false)
    (checked : optional check options name = .ok found) :
    ∀ n, found = some n → n.below bound = false := by
  rintro n rfl
  rcases optional_spec checked with ⟨_, none_⟩ | ⟨m, value, same⟩
  · simp at none_
  · cases same
    exact spec _ value

theorem optional_isSome {check : Options → String → Except Fault Number} {found : Option Number}
    (given : valueOf options name ≠ .null) (checked : optional check options name = .ok found) :
    found.isSome := by
  rcases optional_spec checked with ⟨empty, _⟩ | ⟨m, _, rfl⟩
  · exact absurd empty given
  · rfl

theorem ok_of_bind {β γ : Type} {x : Except Fault β} {f : β → Except Fault γ} {result : γ}
    (bound : (x >>= f) = .ok result) : ∃ value, x = .ok value ∧ f value = .ok result := by
  cases x with
  | error fault => simp [bind, Except.bind] at bound
  | ok value => exact ⟨value, rfl, bound⟩

theorem checkLimits_spec (checked : checkLimits options = .ok ()) :
    valueOf options "max_playouts" ≠ .null ∨ valueOf options "time_limit" ≠ .null := by
  unfold checkLimits at checked
  split at checked
  · simp at checked
  · rename_i some_limit
    by_cases playouts : valueOf options "max_playouts" = .null
    · exact .inr fun time => some_limit playouts time
    · exact .inl playouts

theorem ofKnown_bounded (checked : ofKnown options = .ok s) : s.Bounded := by
  obtain ⟨exploration, explores, checked⟩ := ok_of_bind checked
  obtain ⟨_, limits, checked⟩ := ok_of_bind checked
  obtain ⟨playouts, limitsPlayouts, checked⟩ := ok_of_bind checked
  obtain ⟨time, limitsTime, checked⟩ := ok_of_bind checked
  obtain ⟨rollouts, rolls, checked⟩ := ok_of_bind checked
  obtain ⟨perRound, rounds, checked⟩ := ok_of_bind checked
  obtain ⟨workers, works, checked⟩ := ok_of_bind checked
  obtain ⟨loss, loses, checked⟩ := ok_of_bind checked
  obtain ⟨attempts, tries, checked⟩ := ok_of_bind checked
  obtain ⟨interval, logs, checked⟩ := ok_of_bind checked
  obtain rfl := Except.ok.inj checked
  exact {
    explorationConstant := atLeast_spec explores
    maxPlayouts := optional_bound (fun _ => atLeast_spec) limitsPlayouts
    timeLimit := optional_bound (fun _ => atLeast_spec) limitsTime
    limited := (checkLimits_spec limits).imp (optional_isSome · limitsPlayouts)
      (optional_isSome · limitsTime)
    rolloutsPerLeaf := atLeast_spec rolls
    playoutsPerRound := optional_bound (fun _ => atLeast_spec) rounds
    numWorkers := atLeast_spec works
    virtualLoss := atLeast_spec loses
    completionAttempts := atLeast_spec tries
    logInterval := atLeast_spec logs }

theorem ofOptions_eq_ok (checked : ofOptions options = .ok s) :
    (∀ entry ∈ options, isField entry.1 = true) ∧ ofKnown options = .ok s := by
  unfold ofOptions at checked
  split at checked
  · rename_i all
    refine ⟨fun entry member => ?_, checked⟩
    have listed := List.filter_eq_nil_iff.mp all entry.1 (List.mem_map_of_mem member)
    simpa using listed
  · cases checked

theorem ofOptions_of_fields (fields : ∀ entry ∈ options, isField entry.1 = true) :
    ofOptions options = ofKnown options := by
  unfold ofOptions
  split
  · rfl
  · rename_i first rest some_unknown
    have listed : first ∈ (options.map Prod.fst).filter fun key => !isField key := by
      rw [some_unknown]
      exact List.mem_cons_self
    obtain ⟨among, unknown⟩ := List.mem_filter.mp listed
    obtain ⟨entry, member, rfl⟩ := List.mem_map.mp among
    simp [fields entry member] at unknown

theorem ofOptions_bounded (checked : ofOptions options = .ok s) : s.Bounded :=
  ofKnown_bounded (ofOptions_eq_ok checked).2

/-! ## Options that differ in little -/

theorem valueOf_cons (key name : String) (value : Datum) :
    valueOf ((.text key, value) :: options) name =
      if key = name then value else valueOf options name := by
  simp only [valueOf, Options.get?]
  split <;> rfl

/-- Options that differ in the budget, the seed and the collection of statistics alone pass the
same checks. -/
theorem ofKnown_of_agree {others : Options} (checked : ofKnown options = .ok s) {budget : Nat}
    (limit : valueOf others "max_playouts" = .number (.int budget))
    (agree : ∀ name, name ≠ "max_playouts" → name ≠ "seed" → name ≠ "collect_statistics" →
      valueOf others name = valueOf options name) :
    ofKnown others = .ok
      { s with
        maxPlayouts := some (.int budget)
        seed := valueOf others "seed"
        collectStatistics := valueOf others "collect_statistics" } := by
  obtain ⟨exploration, explores, checked⟩ := ok_of_bind checked
  obtain ⟨_, _, checked⟩ := ok_of_bind checked
  obtain ⟨_, _, checked⟩ := ok_of_bind checked
  obtain ⟨time, limitsTime, checked⟩ := ok_of_bind checked
  obtain ⟨rollouts, rolls, checked⟩ := ok_of_bind checked
  obtain ⟨perRound, rounds, checked⟩ := ok_of_bind checked
  obtain ⟨workers, works, checked⟩ := ok_of_bind checked
  obtain ⟨loss, loses, checked⟩ := ok_of_bind checked
  obtain ⟨attempts, tries, checked⟩ := ok_of_bind checked
  obtain ⟨interval, logs, checked⟩ := ok_of_bind checked
  obtain rfl := Except.ok.inj checked
  have counted : atLeast 0 (.mustNotBeNegative "max_playouts") (.number (.int budget)) =
      .ok (.int budget) := by
    have nonneg : Number.below (.int budget) 0 = false := by
      change decide ((budget : Int) < 0) = false
      simp
    simp [atLeast, nonneg]
  simp only [notNegative, positive, optional]
    at explores limitsTime rolls rounds works loses tries logs
  simp only [ofKnown, notNegative, positive, optional, checkLimits, limit, agree, ne_eq,
    String.reduceEq, not_false_eq_true, explores, limitsTime, rolls, rounds, works, loses, tries,
    logs, counted]
  rfl

end Settings

/-! ## Looking options up -/

theorem Options.get?_append (options others : Options) (name : String) :
    (options ++ others : Options).get? name = (options.get? name).or (others.get? name) := by
  fun_induction Options.get? options name with
  | case1 => rfl
  | case2 key value rest => simp [Options.get?]
  | case3 key value rest name other ih => simpa [Options.get?, other] using ih
  | case4 entry rest name notText ih =>
      obtain ⟨key, value⟩ := entry
      cases key with
      | text key => exact absurd rfl (notText key value)
      | _ => exact ih

theorem Options.get?_without (options : Options) {names : List String} {name : String}
    (among : name ∈ names) : (options.without names).get? name = none := by
  induction options with
  | nil => rfl
  | cons entry rest ih =>
      obtain ⟨key, value⟩ := entry
      simp only [without, List.filter_cons] at ih ⊢
      cases key with
      | text key =>
          dsimp only
          split
          · rename_i kept
            have apart : key ≠ name := by
              rintro rfl
              simp [among] at kept
            simpa [get?, apart] using ih
          · exact ih
      | _ => exact ih

end EGraphSearch
