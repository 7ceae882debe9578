import EGraphSearch.Experiment.Basic
import EGraphSearch.Proofs.Extractor
import EGraphSearch.Proofs.Search.Summaries

/-!
# What budget trials make of options

A trial sets its budget, its seed and the collection of statistics, and none of these can be an
option as well.  With options that leave all three alone, each trial is a standalone run under them.
The experiment always passes on whether statistics are collected, so it never gets past its trials.
-/

set_option autoImplicit false

namespace EGraphSearch

/-! ## What trials set for themselves -/

namespace Trial

theorem firstRepeated?_spec (options : Options) :
    match firstRepeated? options with
    | some name => name ∈ ownOptions ∧ (options.get? name).isSome
    | none => ∀ name ∈ ownOptions, options.get? name = none := by
  fun_induction firstRepeated? options with
  | case1 => simp [Options.get?]
  | case2 name value rest own => simpa [Options.get?] using own
  | case3 key value rest foreign ih =>
      have passed : ∀ name ∈ ownOptions,
          Options.get? ((.text key, value) :: rest) name = Options.get? rest name := by
        intro name own
        have apart : key ≠ name := by
          rintro rfl
          exact foreign (List.contains_iff_mem.mpr own)
        rw [Options.get?, if_neg apart]
      split at ih
      · exact ⟨ih.1, by rw [passed _ ih.1]; exact ih.2⟩
      · exact fun name own => (passed name own).trans (ih name own)
  | case4 entry rest notText ih =>
      obtain ⟨key, value⟩ := entry
      have passed : ∀ name, Options.get? ((key, value) :: rest) name = Options.get? rest name := by
        intro name
        cases key with
        | text text => exact absurd rfl (notText text value)
        | _ => rfl
      simpa only [passed] using ih

theorem firstUnknown?_eq_none (options : Options)
    (fields : ∀ entry ∈ options, Settings.isField entry.1 = true) :
    firstUnknown? options = none := by
  fun_induction firstUnknown? options with
  | case1 => rfl
  | case2 name value rest known ih => exact ih fun entry member => fields entry (by simp [member])
  | case3 name value rest unknown =>
      exact absurd (fields _ List.mem_cons_self) unknown
  | case4 entry rest notText ih =>
      exact ih fun entry member => fields entry (by simp [member])

/-- The options leave the budget and the seed to the trials. -/
structure Leaves (options : Options) : Prop where
  budget : options.get? "max_playouts" = none
  seed : options.get? "seed" = none

variable {options : Options}

theorem firstRepeated?_eq (leaves : Leaves options) :
    firstRepeated? options =
      if (options.get? "collect_statistics").isSome then some "collect_statistics" else none := by
  have spec := firstRepeated?_spec options
  cases found : firstRepeated? options with
  | none =>
      rw [found] at spec
      rw [spec "collect_statistics" (by simp [ownOptions])]
      rfl
  | some name =>
      rw [found] at spec
      obtain ⟨own, here⟩ := spec
      simp only [ownOptions, List.mem_cons, List.not_mem_nil, or_false] at own
      rcases own with rfl | rfl | rfl
      · simp [leaves.budget] at here
      · simp [leaves.seed] at here
      · rw [if_pos here]

theorem settings_of_repeated {name : String} (repeated : firstRepeated? options = some name)
    (budget seed : Number) :
    settings budget seed options = .error (.mismatch (.repeatedOption name)) := by
  simp only [settings, repeated]

/-! ## Standalone runs -/

variable {σ : Type}

def limited (budget seed : Number) (options : Options) : Options :=
  (.text "max_playouts", .number budget) :: (.text "seed", .number seed) :: options

theorem valueOf_limited {budget seed : Number} {name : String} (notBudget : name ≠ "max_playouts")
    (notSeed : name ≠ "seed") :
    Settings.valueOf (limited budget seed options) name = Settings.valueOf options name := by
  rw [limited, Settings.valueOf_cons, if_neg (Ne.symm notBudget), Settings.valueOf_cons,
    if_neg (Ne.symm notSeed)]

/-- The extractor of a standalone run. -/
def standalone (g : EGraph) (oracle : Oracle σ) (options : Options) (budget seed : Number) :
    Except Fault (Extractor σ) :=
  (Settings.ofOptions (limited budget seed options)).bind fun settings =>
    Extractor.make g oracle settings (.byName .null) (.byName .null)

def bestAlone (g : EGraph) (oracle : Oracle σ) (options : Options) (run : Number × Number)
    (state : σ) : Except Fault (Option Float) × σ :=
  match standalone g oracle options run.1 run.2 with
  | .error fault => (.error fault, state)
  | .ok e =>
    ((e.run state).1.map fun outcome => outcome.best.map Prod.snd,
      (e.run state).2.evaluator.oracle)

/-- The best costs of standalone runs, one after the other; the first fault ends them. -/
def series (g : EGraph) (oracle : Oracle σ) (options : Options) :
    List (Number × Number) → σ → Except Fault Costs × σ
  | [], state => (.ok [], state)
  | run :: rest, state =>
    match bestAlone g oracle options run state with
    | (.error fault, state) => (.error fault, state)
    | (.ok cost, state) =>
      ((series g oracle options rest state).1.map (cost :: ·),
        (series g oracle options rest state).2)

def numbers (ns : List Nat) : List Number := ns.map fun (n : Nat) => .int n

def pairs (budget : Nat) (seeds : List Nat) : List (Number × Number) :=
  (numbers seeds).map fun seed => (.int budget, seed)

def runsOf (budgets seeds : List Nat) : List (Number × Number) :=
  budgets.flatMap fun budget => pairs budget seeds

theorem numbers_cons (n : Nat) (ns : List Nat) : numbers (n :: ns) = .int n :: numbers ns := rfl

@[simp] theorem numbers_eq_nil {ns : List Nat} : numbers ns = [] ↔ ns = [] := by
  rw [numbers, List.map_eq_nil_iff]

theorem pairs_cons (budget seed : Nat) (seeds : List Nat) :
    pairs budget (seed :: seeds) = (.int budget, .int seed) :: pairs budget seeds := rfl

theorem runsOf_cons (budget : Nat) (budgets seeds : List Nat) :
    runsOf (budget :: budgets) seeds = pairs budget seeds ++ runsOf budgets seeds := rfl

def extractor (g : EGraph) (oracle : Oracle σ) (options : Options) (budget seed : Number) :
    Except Fault (Extractor σ) :=
  (settings budget seed options).bind fun settings =>
    Extractor.make g oracle settings (.byName .null) (.byName .null)

end Trial

theorem Extractor.make_collecting {σ : Type} (g : EGraph) (oracle : Oracle σ) (s : Settings)
    (policy : Named Policy) (transform : Named Transform) (collected : Datum) :
    Extractor.make g oracle { s with collectStatistics := collected } policy transform =
      (Extractor.make g oracle s policy transform).map fun e =>
        { e with plan := e.plan.withSummary collected.isTrue } := by
  simp only [make, bind, Except.bind, Except.map]
  split
  · rfl
  · split
    · rfl
    · split <;> rfl

namespace Trial

variable {σ : Type} {options : Options} {s : Settings} {g : EGraph} {oracle : Oracle σ}

/-- The settings of a trial are those of the standalone run, without statistics. -/
theorem settings_of_absent (checked : Settings.ofOptions options = .ok s) (leaves : Leaves options)
    (absent : options.get? "collect_statistics" = none) (budget seed : Nat) :
    ∃ alone, Settings.ofOptions (limited (.int budget) (.int seed) options) = .ok alone ∧
      alone.rolloutPolicy = s.rolloutPolicy ∧ alone.valueTransform = s.valueTransform ∧
      alone.failureCost = s.failureCost ∧ alone.seed = .number (.int seed) ∧
      settings (.int budget) (.int seed) options =
        .ok { alone with collectStatistics := .number (.truth false) } := by
  obtain ⟨fields, known⟩ := Settings.ofOptions_eq_ok checked
  have fieldsAlone : ∀ entry ∈ limited (.int budget) (.int seed) options,
      Settings.isField entry.1 = true :=
    List.forall_mem_cons.mpr ⟨rfl, List.forall_mem_cons.mpr ⟨rfl, fields⟩⟩
  have repeated : firstRepeated? options = none := by
    rw [firstRepeated?_eq leaves, absent]
    rfl
  refine ⟨_, (Settings.ofOptions_of_fields fieldsAlone).trans
    (Settings.ofKnown_of_agree known rfl fun name notBudget notSeed _ =>
      valueOf_limited notBudget notSeed), rfl, rfl, rfl, rfl, ?_⟩
  simp only [settings, repeated, firstUnknown?_eq_none options fields]
  refine Settings.ofKnown_of_agree known rfl fun name notBudget notSeed notCollected => ?_
  exact (valueOf_limited notBudget notSeed).trans
    ((Settings.valueOf_cons _ name _).trans (if_neg (Ne.symm notCollected)))

/-- Every trial is the standalone run, without a summary. -/
theorem extractor_of_absent (g : EGraph) (oracle : Oracle σ) {policy : Policy}
    {transform : Transform} (checked : Settings.ofOptions options = .ok s)
    (leaves : Leaves options) (absent : options.get? "collect_statistics" = none)
    (choosing : Policy.ofName s.rolloutPolicy = .ok policy)
    (valuing : Transform.ofName s.valueTransform s.failureCost = .ok transform)
    (budget seed : Nat) :
    ∃ e, standalone g oracle options (.int budget) (.int seed) = .ok e ∧
      extractor g oracle options (.int budget) (.int seed) =
        .ok { e with plan := e.plan.withSummary false } := by
  obtain ⟨alone, accepted, samePolicy, sameTransform, sameCost, sameSeed, trial⟩ :=
    settings_of_absent checked leaves absent budget seed
  rw [standalone, extractor, accepted, trial]
  simp only [Except.bind]
  rw [Extractor.make_collecting]
  have seeded : seedOf alone.seed = .ok (SeedMix.words seed) := by
    rw [sameSeed]
    rfl
  have policyKnown :
      (Named.byName .null).resolve Policy.ofName alone.rolloutPolicy = .ok policy := by
    rw [samePolicy]
    exact choosing
  have transformKnown :
      (Named.byName .null).resolve (fun name => Transform.ofName name alone.failureCost)
        alone.valueTransform = .ok transform := by
    rw [sameTransform, sameCost]
    exact valuing
  simp only [Extractor.make, policyKnown, transformKnown, seeded, bind, Except.bind, Except.map,
    pure, Except.pure]
  exact ⟨_, rfl, rfl⟩

/-! ## Results by budget -/

theorem Results.get_put_self (results : Results) (budget : Int) (costs : Costs) :
    (results.put (.int budget) costs).get (.int budget) = .ok costs := by
  induction results with
  | nil => simp [put, get, Number.same]
  | cons entry rest ih =>
      obtain ⟨key, old⟩ := entry
      rw [put]
      split
      · rename_i same
        simp [get, same]
      · rename_i other
        simpa [get, other] using ih

theorem Results.get_put_of_ne (results : Results) {budget other : Int} (apart : budget ≠ other)
    (costs : Costs) :
    (results.put (.int budget) costs).get (.int other) = results.get (.int other) := by
  induction results with
  | nil => simp [put, get, Number.same, apart]
  | cons entry rest ih =>
      obtain ⟨key, old⟩ := entry
      rw [put]
      split
      · rename_i same
        have notOther : key.same (.int other) = false := by
          by_contra sameOther
          exact apart (Number.eq_of_same_int same (by simpa using sameOther))
        simp [get, notOther]
      · cases found : key.same (.int other) with
        | true => simp [get, found]
        | false => simpa [get, found] using ih

/-! ## Runs one after the other -/

theorem series_append (before after : List (Number × Number)) (state : σ) :
    series g oracle options (before ++ after) state =
      match series g oracle options before state with
      | (.error fault, state) => (.error fault, state)
      | (.ok costs, state) =>
        ((series g oracle options after state).1.map (costs ++ ·),
          (series g oracle options after state).2) := by
  induction before generalizing state with
  | nil =>
      simp only [List.nil_append, series]
      rcases series g oracle options after state with ⟨_ | _, _⟩ <;> rfl
  | cons run rest ih =>
      simp only [List.cons_append, series]
      rcases bestAlone g oracle options run state with ⟨fault | cost, next⟩
      · rfl
      · simp only [ih]
        rcases series g oracle options rest next with ⟨fault | costs, last⟩
        · rfl
        · dsimp only [Except.map]
          rcases series g oracle options after last with ⟨_ | _, _⟩ <;> rfl

theorem series_length (runs : List (Number × Number)) : ∀ {state : σ} {costs : Costs},
    (series g oracle options runs state).1 = .ok costs → costs.length = runs.length := by
  induction runs with
  | nil =>
      intro state costs ended
      obtain rfl := Except.ok.inj ended
      rfl
  | cons run rest ih =>
      intro state costs ended
      rw [series] at ended
      rcases once : bestAlone g oracle options run state with ⟨fault | cost, next⟩ <;>
        rw [once] at ended
      · cases ended
      · rcases later : series g oracle options rest next with ⟨fault | more, last⟩ <;>
          simp only [later, Except.map] at ended
        · cases ended
        · obtain rfl := Except.ok.inj ended
          simp [ih (congrArg Prod.fst later)]

/-- Standalone runs come to what the trials come to, and the trials write nothing down. -/
structure Follows {β : Type} (before : State σ) (trials : Except Fault β × State σ)
    (alone : Except Fault β × σ) : Prop where
  same : alone = (trials.1, trials.2.oracle)
  results : trials.2.results = before.results

section Series

variable (known : ∀ budget seed : Nat,
    ∃ e, standalone g oracle options (.int budget) (.int seed) = .ok e ∧
      extractor g oracle options (.int budget) (.int seed) =
        .ok { e with plan := e.plan.withSummary false })

include known

theorem runOnce_follows (budget seed : Nat) (st : State σ) :
    Follows st (runOnce g oracle options (.int budget) (.int seed) st)
      (bestAlone g oracle options (.int budget, .int seed) st.oracle) := by
  obtain ⟨e, alone, trial⟩ := known budget seed
  rw [extractor] at trial
  simp only [runOnce, trial, bestAlone, alone, Extractor.run]
  exact ⟨Prod.ext (extract_best_withSummary e.plan false st.oracle).symm
    (congrArg (fun progress => progress.evaluator.oracle)
      (extract_withSummary e.plan false st.oracle).2).symm, rfl⟩

theorem runSeeds_follows (budget : Nat) (seeds : List Nat) (st : State σ) :
    Follows st (runSeeds g oracle options (.int budget) (numbers seeds) st)
      (series g oracle options (pairs budget seeds) st.oracle) := by
  induction seeds generalizing st with
  | nil => exact ⟨rfl, rfl⟩
  | cons seed rest ih =>
      obtain ⟨alone, kept⟩ := runOnce_follows known budget seed st
      rw [numbers_cons, pairs_cons, runSeeds, series, alone]
      generalize runOnce g oracle options (.int budget) (.int seed) st = trial at kept ⊢
      obtain ⟨fault | cost, after⟩ := trial
      · exact ⟨rfl, kept⟩
      · obtain ⟨later, keptLater⟩ := ih after
        dsimp only
        rw [later]
        generalize runSeeds g oracle options (.int budget) (numbers rest) after = trials
          at keptLater ⊢
        obtain ⟨fault | costs, last⟩ := trials <;> exact ⟨rfl, keptLater.trans kept⟩

theorem runBudgets_series (seeds budgets : List Nat) (st : State σ) :
    (runBudgets g oracle options (numbers seeds) (numbers budgets) st).1 =
        (series g oracle options (runsOf budgets seeds) st.oracle).1.map (fun _ => ()) ∧
      (runBudgets g oracle options (numbers seeds) (numbers budgets) st).2.oracle =
        (series g oracle options (runsOf budgets seeds) st.oracle).2 := by
  induction budgets generalizing st with
  | nil => exact ⟨rfl, rfl⟩
  | cons budget rest ih =>
      obtain ⟨alone, -⟩ := runSeeds_follows known budget seeds st
      rw [numbers_cons, runsOf_cons, runBudgets, series_append, alone]
      rcases runSeeds g oracle options (.int budget) (numbers seeds) st with ⟨fault | costs, after⟩
      · exact ⟨rfl, rfl⟩
      · obtain ⟨result, oracleAfter⟩ := ih { after with
          results := after.results.put (.int budget) costs
          journal := after.journal ++ [remark (.int budget) costs] }
        dsimp only at result oracleAfter ⊢
        rw [result, oracleAfter]
        rcases series g oracle options (runsOf rest seeds) after.oracle with ⟨_ | _, _⟩ <;>
          exact ⟨rfl, rfl⟩

/-- What is written down of a budget is the costs of its runs; of the runs of equal budgets, the
last ones count. -/
theorem runBudgets_results (seeds budgets : List Nat) (st : State σ) {costs : Costs}
    (ended : (series g oracle options (runsOf budgets seeds) st.oracle).1 = .ok costs) :
    (∀ budget : Nat, budget ∉ budgets →
      (runBudgets g oracle options (numbers seeds) (numbers budgets) st).2.results.get
        (.int budget) = st.results.get (.int budget)) ∧
    ∀ (i budget : Nat), budgets[i]? = some budget → budget ∉ budgets.drop (i + 1) →
      (runBudgets g oracle options (numbers seeds) (numbers budgets) st).2.results.get
        (.int budget) = .ok ((costs.drop (i * seeds.length)).take seeds.length) := by
  induction budgets generalizing st costs with
  | nil => exact ⟨fun _ _ => rfl, by simp⟩
  | cons first rest ih =>
      obtain ⟨alone, kept⟩ := runSeeds_follows known first seeds st
      rw [runsOf_cons, series_append] at ended
      rcases own : series g oracle options (pairs first seeds) st.oracle with
        ⟨fault | block, state⟩ <;> simp only [own] at ended
      · cases ended
      rcases later : series g oracle options (runsOf rest seeds) state with ⟨fault | more, last⟩ <;>
        simp only [later, Except.map] at ended
      · cases ended
      obtain rfl := Except.ok.inj ended
      have blockLength : block.length = seeds.length := by
        simpa [pairs, numbers] using series_length _ (congrArg Prod.fst own)
      rw [own] at alone
      rw [numbers_cons, runBudgets]
      generalize runSeeds g oracle options (.int first) (numbers seeds) st = trials at alone kept ⊢
      obtain ⟨fault | costs, after⟩ := trials <;> cases alone
      obtain ⟨foreign, listed⟩ := ih { after with
          results := after.results.put (.int first) block
          journal := after.journal ++ [remark (.int first) block] }
        (congrArg Prod.fst later)
      dsimp only at kept foreign listed ⊢
      refine ⟨fun budget absent => ?_, fun i budget here lastOne => ?_⟩
      · have apart := List.ne_of_not_mem_cons absent
        rw [foreign budget (List.not_mem_of_not_mem_cons absent),
          Results.get_put_of_ne _ (by exact_mod_cast apart.symm), kept]
      · cases i with
        | zero =>
            obtain rfl := Option.some.inj here
            rw [foreign first (by simpa using lastOne), Results.get_put_self]
            simp [← blockLength]
        | succ i =>
            rw [listed i budget (by simpa using here) (by simpa using lastOne), Nat.succ_mul,
              Nat.add_comm, ← blockLength, List.drop_length_add_append]

end Series

/-! ## Options that repeat what trials set -/

/-- With a first run, an option that the trials set ends them before anything else happens. -/
theorem run_of_repeated (g : EGraph) (oracle : Oracle σ) {name : String}
    (repeated : firstRepeated? options = some name) (start : σ) {budgets seeds : List Number}
    (tried : budgets ≠ []) (seeded : seeds ≠ []) :
    run g oracle start budgets seeds options =
      (.error (.mismatch (.repeatedOption name)), ⟨start, [], []⟩) := by
  obtain ⟨budget, moreBudgets, rfl⟩ := List.exists_cons_of_ne_nil tried
  obtain ⟨seed, moreSeeds, rfl⟩ := List.exists_cons_of_ne_nil seeded
  simp only [run, runBudgets, runSeeds, runOnce, settings_of_repeated repeated, Except.bind]

theorem runBudgets_unseeded (budgets : List Number) (st : State σ) :
    (runBudgets g oracle options [] budgets st).1 = .ok () := by
  induction budgets generalizing st with
  | nil => rfl
  | cons budget rest ih => exact ih _

theorem run_idle (start : σ) {budgets seeds : List Number} (idle : budgets = [] ∨ seeds = []) :
    (run g oracle start budgets seeds options).1 = .ok () := by
  rcases idle with rfl | rfl
  · rfl
  · exact runBudgets_unseeded budgets _

end Trial

/-! ## The experiment -/

namespace Experiment

variable {a : Arguments} {text : Option String} {options : Options}

/-- The experiment takes the budget and the seed out of the options, and always says whether
statistics are collected. -/
theorem optionsOf_spec (passed : optionsOf a text = .ok options) :
    Trial.Leaves options ∧ (options.get? "collect_statistics").isSome := by
  unfold optionsOf at passed
  obtain ⟨given, passed⟩ : ∃ given : Options, (do
      let kept := given.without ["max_playouts", "seed"]
      let options : Options :=
        if (kept.get? "collect_statistics").isSome then kept
        else kept ++ [(.text "collect_statistics", .number (.truth false))]
      let _ ← Settings.ofOptions options
      return options) = Except.ok options := by
    dsimp only at passed
    split at passed
    · exact ⟨_, passed⟩
    · obtain ⟨given, -, passed⟩ := Settings.ok_of_bind passed
      exact ⟨given, passed⟩
  obtain ⟨_, -, passed⟩ := Settings.ok_of_bind passed
  obtain rfl := Except.ok.inj passed
  have gone : ∀ name ∈ ["max_playouts", "seed"],
      (given.without ["max_playouts", "seed"]).get? name = none :=
    fun name among => given.get?_without among
  split
  · rename_i stated
    exact ⟨⟨gone _ (by simp), gone _ (by simp)⟩, stated⟩
  · refine ⟨⟨?_, ?_⟩, ?_⟩ <;> rw [Options.get?_append]
    · rw [gone _ (by simp)]
      rfl
    · rw [gone _ (by simp)]
      rfl
    · simp [Options.get?]

theorem lift_ok {β : Type} (x : β) :
    (liftM (Except.ok x : Except Fault β) : Running β) = pure x := rfl

/-- With a budget and a seed, the experiment ends at its trials. -/
theorem run_refused {g : EGraph} (graph : graphOf a = .ok g)
    (passed : optionsOf a text = .ok options) (tried : a.budgets ≠ []) (seeded : 0 < a.numSeeds) :
    (run a text).1 = .error (.mismatch (.repeatedOption "collect_statistics")) ∧
      (run a text).2.findings = [] ∧ (run a text).2.written = none := by
  obtain ⟨leaves, stated⟩ := optionsOf_spec passed
  have repeated := (Trial.firstRepeated?_eq leaves).trans (if_pos stated)
  have someSeed : (seedsOf a).map (fun seed : Nat => Number.int seed) ≠ [] := by
    simp [seedsOf]
    omega
  have someBudget : a.budgets.map Number.int ≠ [] := by simpa using tried
  have trials := Trial.run_of_repeated g (Pricing.size a.measure).oracle repeated 0 someBudget
    someSeed
  simp only [run, steps, graph, passed, searchAll, lift_ok, pure_bind, trials]
  exact ⟨rfl, rfl, rfl⟩

end Experiment

/-! ## Which options reach the runs -/

namespace Trial

variable {σ : Type}

/-- The trials of these budgets and seeds are standalone runs under the options. -/
structure Honours (g : EGraph) (oracle : Oracle σ) (start : σ) (budgets seeds : List Nat)
    (options : Options) : Prop where
  /-- Every trial has an extractor, which is that of the standalone run without its summary. -/
  builds : ∀ budget seed : Nat, ∃ e,
    standalone g oracle options (.int budget) (.int seed) = .ok e ∧
      extractor g oracle options (.int budget) (.int seed) =
        .ok { e with plan := e.plan.withSummary false }
  ends : (run g oracle start (numbers budgets) (numbers seeds) options).1 =
    (series g oracle options (runsOf budgets seeds) start).1.map fun _ => ()
  state : (run g oracle start (numbers budgets) (numbers seeds) options).2.oracle =
    (series g oracle options (runsOf budgets seeds) start).2
  /-- A budget has one cost for each seed; that of equal budgets comes from the last one. -/
  reports : ∀ costs, (series g oracle options (runsOf budgets seeds) start).1 = .ok costs →
    costs.length = budgets.length * seeds.length ∧
    ∀ i budget : Nat, budgets[i]? = some budget → budget ∉ budgets.drop (i + 1) →
      (run g oracle start (numbers budgets) (numbers seeds) options).2.results.get (.int budget) =
        .ok ((costs.drop (i * seeds.length)).take seeds.length)

/-- No trial gets under way with the options, because of the option of this name. -/
structure Refuses (g : EGraph) (oracle : Oracle σ) (start : σ) (budgets seeds : List Nat)
    (options : Options) (name : String) : Prop where
  settings : ∀ budget seed, settings budget seed options =
    .error (.mismatch (.repeatedOption name))
  /-- The oracle is never asked. -/
  run : budgets ≠ [] → seeds ≠ [] → run g oracle start (numbers budgets) (numbers seeds) options =
    (.error (.mismatch (.repeatedOption name)), ⟨start, [], []⟩)
  idle : budgets = [] ∨ seeds = [] →
    (Trial.run g oracle start (numbers budgets) (numbers seeds) options).1 = .ok ()

theorem runsOf_length (budgets seeds : List Nat) :
    (runsOf budgets seeds).length = budgets.length * seeds.length := by
  simp [runsOf, pairs, numbers, List.length_flatMap]

/-- Options that leave the budget and the seed to the trials are honoured exactly if they leave the
collection of statistics to them as well; the experiment does not, so it ends at its trials. -/
theorem honoured_or_refused {options : Options} {s : Settings} {policy : Policy}
    {transform : Transform} (checked : Settings.ofOptions options = .ok s) (leaves : Leaves options)
    (choosing : Policy.ofName s.rolloutPolicy = .ok policy)
    (valuing : Transform.ofName s.valueTransform s.failureCost = .ok transform) :
    (options.get? "collect_statistics" = none →
      ∀ (g : EGraph) (oracle : Oracle σ) (start : σ) (budgets seeds : List Nat),
        Honours g oracle start budgets seeds options) ∧
    ((options.get? "collect_statistics").isSome →
      ∀ (g : EGraph) (oracle : Oracle σ) (start : σ) (budgets seeds : List Nat),
        Refuses g oracle start budgets seeds options "collect_statistics") ∧
    ∀ (a : Experiment.Arguments) (text : Option String) (g : EGraph),
      Experiment.graphOf a = .ok g → Experiment.optionsOf a text = .ok options →
      a.budgets ≠ [] → 0 < a.numSeeds →
      (Experiment.run a text).1 = .error (.mismatch (.repeatedOption "collect_statistics")) ∧
        (Experiment.run a text).2.findings = [] ∧ (Experiment.run a text).2.written = none := by
  refine ⟨fun absent g oracle start budgets seeds => ?_,
    fun given g oracle start budgets seeds => ?_,
    fun a text g graph passed tried seeded => Experiment.run_refused graph passed tried seeded⟩
  · have known := extractor_of_absent g oracle checked leaves absent choosing valuing
    obtain ⟨ends, oracleAfter⟩ := runBudgets_series known seeds budgets ⟨start, [], []⟩
    exact ⟨known, ends, oracleAfter, fun costs ended =>
      ⟨(series_length _ ended).trans (runsOf_length budgets seeds),
        (runBudgets_results known seeds budgets ⟨start, [], []⟩ ended).2⟩⟩
  · have repeated := (firstRepeated?_eq leaves).trans (if_pos given)
    refine ⟨settings_of_repeated repeated, fun tried seeded => ?_, fun idle => ?_⟩
    · exact run_of_repeated g oracle repeated start (by simpa using tried) (by simpa using seeded)
    · exact run_idle start (by simpa using idle)

/-- Options that leave everything to the trials but the weight of exploration. -/
def plain : Options := [(.text "exploration_constant", .number 1)]

def quiet : Options := plain ++ [(.text "collect_statistics", .number (.truth false))]

set_option maxRecDepth 4000 in
theorem honoured_or_refused_quiet :
    Honours EGraph.loopGraph Oracle.flat () [3] [0, 1] plain ∧
      Refuses EGraph.loopGraph Oracle.flat () [3] [0, 1] quiet "collect_statistics" := by
  have checkedPlain : ∃ s, Settings.ofOptions plain = .ok s ∧
      Policy.ofName s.rolloutPolicy = .ok .uniform ∧
      Transform.ofName s.valueTransform s.failureCost = .ok .reciprocal := ⟨_, rfl, rfl, rfl⟩
  have checkedQuiet : ∃ s, Settings.ofOptions quiet = .ok s ∧
      Policy.ofName s.rolloutPolicy = .ok .uniform ∧
      Transform.ofName s.valueTransform s.failureCost = .ok .reciprocal := ⟨_, rfl, rfl, rfl⟩
  obtain ⟨_, checked, choosing, valuing⟩ := checkedPlain
  obtain ⟨_, checked', choosing', valuing'⟩ := checkedQuiet
  exact ⟨(honoured_or_refused checked ⟨rfl, rfl⟩ choosing valuing).1 rfl _ _ _ _ _,
    (honoured_or_refused checked' ⟨rfl, rfl⟩ choosing' valuing').2.1 rfl _ _ _ _ _⟩

end Trial

end EGraphSearch
