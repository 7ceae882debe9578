import Mathlib.Data.List.Chain
import EGraphSearch.Proofs.Search.Lockstep

/-!
# The longer of two searches

Along the history of a search the best pair only becomes cheaper.  A shorter search is the beginning
of a longer one, so what the longer one finds in the end is not dearer.  The final term is priced
besides, and that is all that can undo a larger limit.
-/

set_option autoImplicit false

namespace EGraphSearch

variable {σ ρ : Type}

/-! ## Chains -/

theorem isChain_cons_append {β : Type} {R : β → β → Prop} {x : β} {xs ys : List β}
    (first : (x :: xs).IsChain R) (rest : (xs.getLastD x :: ys).IsChain R) :
    (x :: (xs ++ ys)).IsChain R := by
  have place : (x :: xs).getLast? = some (xs.getLastD x) := by
    rw [List.getLast?_cons, List.getLastD_eq_getLast?]
  have joined : ∀ last ∈ (x :: xs).getLast?, ∀ next ∈ ys.head?, R last next := by
    intro last reached next follows
    cases place.symm.trans reached
    exact rest.rel_head? follows
  exact first.append rest.tail joined

theorem noDearer_last {bests : List (Option (Term × Float))} :
    ∀ {first : Option (Term × Float)}, (first :: bests).IsChain NoDearer →
      Best Costed (bests.getLastD first) →
      ∀ n, NoDearer ((bests.take n).getLastD first) (bests.getLastD first) := by
  induction bests with
  | nil => exact fun _ costed n => by simpa using NoDearer.refl costed
  | cons next rest ih =>
      intro first chain costed n
      obtain ⟨grows, later⟩ := List.isChain_cons_cons.mp chain
      rw [List.getLastD_cons] at costed ⊢
      cases n with
      | zero => exact grows.trans (ih later costed 0)
      | succ n =>
          rw [List.take_succ_cons, List.getLastD_cons]
          exact ih later costed n

/-! ## Along the history -/

section History

variable {plan : Plan σ ρ Float} {start : Nat} {limit : Option Number}

theorem batchStatesFrom_cheapens (wf : plan.graph.toArena.WellFormed)
    (priced : plan.toProblem.Priced Costed) (bound : Nat) :
    ∀ {ran : Nat} {budget : Budget} {s : Progress σ Float}, Sane plan.toProblem Costed s →
      start < s.tree.size →
      (s.best :: (batchStatesFrom plan start limit bound ran budget s).map
        Progress.best).IsChain NoDearer := by
  induction bound with
  | zero => exact fun _ _ => List.isChain_singleton _
  | succ bound ih =>
      intro ran budget s sane inside
      rw [batchStatesFrom]
      split
      · exact List.isChain_singleton _
      · split
        · exact List.isChain_singleton _
        · split
          · exact List.isChain_singleton _
          · rename_i leaf next played
            obtain ⟨_, _, playedTree⟩ :=
              (playout_spec wf priced sane.faithful inside played).played
            have insideNext : start < (next.record plan.tuning leaf).tree.size := by
              rw [tree_record]
              exact Nat.lt_of_lt_of_le inside playedTree.kept.size_le
            rw [List.map_cons]
            exact List.isChain_cons_cons.mpr ⟨sane.noDearer_play wf priced inside played,
              ih (sane.play wf priced inside played) insideNext⟩

theorem roundStates_cheapens (alone : Number.below 1 plan.tuning.workers = false)
    (wf : plan.graph.toArena.WellFormed) (priced : plan.toProblem.Priced Costed)
    (perRound : Number) (bound : Nat) :
    ∀ {budget : Budget} {s : Progress σ Float}, Sane plan.toProblem Costed s →
      (s.best :: (roundStates plan perRound bound budget s).map Progress.best).IsChain
        NoDearer := by
  induction bound with
  | zero => exact fun _ => List.isChain_singleton _
  | succ bound ih =>
      intro budget s sane
      cases spent : budget.exhausted with
      | true =>
          rw [roundStates, spent]
          exact List.isChain_singleton _
      | false =>
          have first : (s.best :: (batchStates plan s.committed (some perRound) budget s).map
              Progress.best).IsChain NoDearer :=
            batchStatesFrom_cheapens wf priced _ sane sane.committed_lt
          rcases batch : plan.runBatch s.committed (some perRound) budget s with
            ⟨fault | count, left, u⟩
          · simpa [roundStates, spent, batch] using first
          · have ran : runBatch plan s.committed (some perRound) budget s = ⟨.ok count, left, u⟩ :=
              (runBatch_alone alone _ _ _ _).symm.trans batch
            have saneU : Sane plan.toProblem Costed u := by
              have chain := (runBatch_spec (congrArg BatchEnd.ran ran)).batch
              rw [ran] at chain
              exact (chain.spec wf priced sane sane.committed_lt).sane
            have reached := congrArg Progress.best (batchStates_last (congrArg BatchEnd.ran ran))
            rw [ran, ← List.getLastD_map (f := Progress.best)] at reached
            obtain ⟨saneNext, _, sameBest, _⟩ := settle_spec saneU
            rw [roundStates_settles spent batch saneU.committed_lt, List.map_append]
            refine isChain_cons_append first ?_
            rw [← reached]
            cases u.settle.2 with
            | true => exact List.isChain_singleton _
            | false =>
                have later : (u.settle.1.best :: (roundStates plan perRound bound left
                    u.settle.1).map Progress.best).IsChain NoDearer := ih saneNext
                rwa [sameBest] at later

theorem history_cheapens (alone : Number.below 1 plan.tuning.workers = false)
    (wf : plan.graph.toArena.WellFormed) (priced : plan.toProblem.Priced Costed) (oracle : σ) :
    ((plan.history oracle).map Progress.best).IsChain NoDearer := by
  have opened : Sane plan.toProblem Costed (plan.opened oracle) := (sane_initial oracle).report _
  rw [Plan.history, Plan.historyFrom, List.map_cons]
  unfold Plan.statesFrom
  split
  · exact batchStatesFrom_cheapens wf priced _ opened opened.committed_lt
  · exact roundStates_cheapens alone wf priced _ _ opened

end History

/-! ## Two limits -/

section Longer

variable {plan : Plan σ ρ Float} {fewer more : Nat}

/-- The best pair at the end of a search is not dearer under a larger limit. -/
theorem searched_longer (alone : Number.below 1 plan.tuning.workers = false)
    (timeless : plan.timeLimit = none) (wf : plan.graph.toArena.WellFormed)
    (priced : plan.toProblem.Priced Costed) (le : fewer ≤ more) {oracle : σ}
    (endedShort : ((plan.limited fewer).searched oracle).result = .ok ())
    (endedLong : ((plan.limited more).searched oracle).result = .ok ()) :
    NoDearer ((plan.limited fewer).searched oracle).progress.best
      ((plan.limited more).searched oracle).progress.best := by
  have aloneBoth : ∀ most, Number.below 1 (plan.limited most).tuning.workers = false :=
    fun _ => alone
  have bestOf : ∀ (states : List (Progress σ Float)) (s : Progress σ Float),
      ((states.map Progress.standing).getLastD s.standing).best =
        (states.map Progress.best).getLastD s.best := by
    intro states s
    rw [List.getLastD_map, List.getLastD_map]
    rfl
  have shortEnd : ((plan.limited fewer).searched oracle).progress.best =
      ((((plan.limited more).states oracle).map Progress.best).take fewer).getLastD
        ((plan.limited more).opened oracle).best := by
    have last := congrArg Standing.best (states_last (aloneBoth fewer) endedShort)
    rw [(searched_begins wf alone timeless le oracle).states endedShort, ← List.map_take] at last
    rw [← List.map_take, ← bestOf]
    exact last
  have longEnd : ((plan.limited more).searched oracle).progress.best =
      (((plan.limited more).states oracle).map Progress.best).getLastD
        ((plan.limited more).opened oracle).best := by
    rw [← bestOf]
    exact congrArg Standing.best (states_last (aloneBoth more) endedLong)
  have costed : Best Costed ((plan.limited more).searched oracle).progress.best :=
    (sane_searched endedLong (aloneBoth more) wf priced).best
  rw [longEnd] at costed
  rw [shortEnd, longEnd]
  exact noDearer_last (history_cheapens (aloneBoth more) wf priced oracle) costed fewer

theorem finalBest_cases {best : Option (Term × Float)} {term : Term} {cost : Option Float}
    {seen : Term} {lowest : Float} (picked : finalBest best term cost = some (seen, lowest)) :
    best = some (seen, lowest) ∨ cost = some lowest := by
  cases cost with
  | none => exact .inl picked
  | some c =>
      cases best with
      | none =>
          cases picked
          exact .inr rfl
      | some known =>
          simp only [finalBest, Option.elim, cheaper] at picked
          split at picked
          · cases picked
            exact .inr rfl
          · cases picked
            exact .inl rfl

/-- A final term can undo a larger limit, and nothing else can. -/
theorem finalBest_longer {short long : Option (Term × Float)} {term term' : Term}
    {cost cost' : Option Float} (grows : NoDearer short long) (costedShort : Best Costed short)
    (costedLong : Best Costed long) (number : ∀ c, cost = some c → c.isNaN = false)
    {seen : Term} {lowest : Float} (picked : finalBest short term cost = some (seen, lowest)) :
    Finds (finalBest long term' cost') lowest ↔
      ∀ c, cost = some c → Finds (finalBest long term' cost') c := by
  constructor
  · rintro ⟨later, dearest, same, le⟩ c rfl
    obtain ⟨found', picked', le'⟩ :=
      cheaper_le costedShort (show Costed (term, c) from number c rfl)
    cases picked.symm.trans picked'
    exact ⟨later, dearest, same, Doubles.le_trans le le'⟩
  · intro undone
    rcases finalBest_cases picked with known | final
    · exact .of_noDearer (grows.trans (noDearer_final costedLong term' cost')) known
    · exact undone _ final

/-- Of two extractions that return, the one with the larger limit has playouts that find nothing
dearer, and a best pair that is not dearer unless the smaller limit has a cheaper final term. -/
theorem extract_longer {plan : Plan σ ρ Float} {k fewer more : Nat} {oracle : σ}
    {short long : Outcome Float} {shortEnd longEnd : Progress σ Float} (paced : plan.Paced k)
    (wf : plan.graph.toArena.WellFormed)
    (costed : ∀ term state cost, (plan.ask term state).1 = .ok (.cost cost) → cost.isNaN = false)
    (le : fewer ≤ more)
    (extractedShort : extract (plan.limited fewer) oracle = (.ok short, shortEnd))
    (extractedLong : extract (plan.limited more) oracle = (.ok long, longEnd)) :
    NoDearer ((plan.limited fewer).searched oracle).progress.best
        ((plan.limited more).searched oracle).progress.best ∧
      ∀ term cost, short.best = some (term, cost) →
        (Finds long.best cost ↔ ∀ final, short.cost = some final → Finds long.best final) := by
  have priced : plan.toProblem.Priced Costed := fun _ _ _ _ _ _ answer => costed _ _ _ answer
  obtain ⟨endedShort, concludedShort⟩ := extract_spec extractedShort
  obtain ⟨endedLong, concludedLong⟩ := extract_spec extractedLong
  have saneShort : Sane plan.toProblem Costed ((plan.limited fewer).searched oracle).progress :=
    sane_searched endedShort paced.alone wf priced
  have saneLong : Sane plan.toProblem Costed ((plan.limited more).searched oracle).progress :=
    sane_searched endedLong paced.alone wf priced
  have playouts := searched_longer paced.alone paced.timeless wf priced le endedShort endedLong
  refine ⟨playouts, ?_⟩
  intro term cost best
  obtain ⟨reply, answer, charged⟩ := concludedShort.priced
  have number : ∀ c, short.cost = some c → c.isNaN = false := by
    intro c same
    rw [charged] at same
    cases reply with
    | failed why => cases same
    | cost x =>
        cases same
        exact costed _ _ _ answer
  rw [concludedShort.best_eq] at best
  rw [concludedLong.best_eq]
  exact finalBest_longer playouts saneShort.best saneLong.best number best

end Longer

end EGraphSearch
