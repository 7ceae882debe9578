import EGraphSearch.Proofs.Search.Accounting

/-!
# Shifts one after the other

The search runs its workers in turn: each takes its whole shift before the next one starts.  That is
one of the orders in which a crew can take its turns, so a shared batch keeps the accounts, also
when a worker fails.
-/

set_option autoImplicit false

namespace EGraphSearch

variable {σ ρ α : Type} [Scalar α] {plan : Plan σ ρ α} {start : Nat} {limit : Option Number}

namespace Crew

theorem run_append (g : EGraph) (tuning : Tuning α) (constants : Option (ScoreConstants α))
    (start : Nat) (limit : Option Number) (turns others : List (Turn σ α)) (c : Crew σ α) :
    c.run g tuning constants start limit (turns ++ others) =
      (c.run g tuning constants start limit turns).run g tuning constants start limit others := by
  induction turns generalizing c with
  | nil => rfl
  | cons turn rest ih => exact ih _

/-- Some turns lead to the given state with nothing in flight and so many idle workers. -/
def Reaches (plan : Plan σ ρ α) (constants : Option (ScoreConstants α)) (start : Nat)
    (limit : Option Number) (c : Crew σ α) (shared : Shared σ α) (idle : Nat) : Prop :=
  ∃ turns after, c.run plan.graph plan.tuning constants start limit turns = after ∧
    after.shared = shared ∧ after.flying = [] ∧ idle ≤ after.idle

variable {constants : Option (ScoreConstants α)} {c mid : Crew σ α} {shared : Shared σ α}
  {idle : Nat}

theorem Reaches.after (turns : List (Turn σ α))
    (ran : c.run plan.graph plan.tuning constants start limit turns = mid)
    (reaches : mid.Reaches plan constants start limit shared idle) :
    c.Reaches plan constants start limit shared idle := by
  obtain ⟨others, after, later, rest⟩ := reaches
  exact ⟨turns ++ others, after, by rw [run_append, ran, later], rest⟩

theorem Reaches.stay (landed : c.flying = []) (ready : idle ≤ c.idle) :
    c.Reaches plan constants start limit c.shared idle :=
  ⟨[], c, rfl, rfl, landed, ready⟩

/-- What rollouts do outside the lock. -/
def rollingOut (sampling : Sampling σ ρ α) (shared : Shared σ α) : Turn σ α :=
  .outside (shared.progress.afterSampling sampling).evaluator
    (shared.progress.afterSampling sampling).journal shared.budget.elapsed

theorem turn_begin_refused {others : Nat} {result : Except Fault (Option Flight)}
    (enough : c.idle = others + 1)
    (began : c.shared.begin plan.graph plan.tuning constants start limit = (result, shared))
    (refused : ∀ flight, result ≠ .ok (some flight)) :
    c.run plan.graph plan.tuning constants start limit [.begin] =
      { c with shared := shared, idle := others } := by
  rcases result with fault | none | flight
  · simp only [run, turn, enough, began]
  · simp only [run, turn, enough, began]
  · exact absurd rfl (refused flight)

theorem turn_begin_began {others : Nat} {flight : Flight} (enough : c.idle = others + 1)
    (began : c.shared.begin plan.graph plan.tuning constants start limit =
      (.ok (some flight), shared)) :
    c.turn plan.graph plan.tuning constants start limit .begin =
      { c with
        shared := shared
        idle := others
        flying := flight :: c.flying
        begun := c.begun ++ [flight] } := by
  simp only [turn, enough, began]

theorem reaches_work (bound : Nat) : ∀ {c : Crew σ α}, c.flying = [] → idle < c.idle →
    c.Reaches plan constants start limit
      (work plan constants start limit bound c.shared).2 idle := by
  induction bound with
  | zero => exact fun landed ready => .stay landed (Nat.le_of_lt ready)
  | succ bound ih =>
      intro c landed ready
      obtain ⟨others, enough⟩ : ∃ others, c.idle = others + 1 := ⟨c.idle - 1, by omega⟩
      have left : idle ≤ others := by omega
      rcases began : c.shared.begin plan.graph plan.tuning constants start limit with
        ⟨fault | none | flight, shared⟩
      · simp only [work, began]
        exact .after _ (turn_begin_refused enough began (by simp)) (.stay landed left)
      · simp only [work, began]
        exact .after _ (turn_begin_refused enough began (by simp)) (.stay landed left)
      · -- The worker lands this playout before it begins another, so its place is the only one.
        have turned := turn_begin_began enough began
        rw [landed] at turned
        simp only [work, began, land]
        rcases evaluateLeaf plan.toProblem plan.tuning.rollouts flight.tracker
          shared.progress.evaluator (plan.stream flight.index) with ⟨fault | leaf, sampling⟩
        · have ran : c.run plan.graph plan.tuning constants start limit
              [.begin, rollingOut sampling shared, .fail 0] =
                { c with
                  shared := { shared with
                    progress := shared.progress.afterSampling sampling }.abandon plan.tuning flight
                  idle := others
                  flying := []
                  failed := flight :: c.failed
                  begun := c.begun ++ [flight] } := by
            simp only [run, turned]
            rfl
          exact .after _ ran (.stay rfl left)
        · have ran : c.run plan.graph plan.tuning constants start limit
              [.begin, rollingOut sampling shared, .finish 0 leaf] =
                { c with
                  shared := { shared with
                    progress := shared.progress.afterSampling sampling }.finish plan.tuning flight
                      leaf
                  idle := others + 1
                  flying := []
                  finished := (flight, leaf.value) :: c.finished
                  begun := c.begun ++ [flight] } := by
            simp only [run, turned]
            rfl
          exact .after _ ran (ih rfl (Nat.lt_succ_of_le left))

theorem reaches_shifts (lossValue : α) (charged : plan.valuation.failure = .ok lossValue)
    (workers : Nat) : ∀ {c : Crew σ α}, c.flying = [] → workers ≤ c.idle →
      c.Reaches plan (plan.tuning.constants lossValue) start limit
        (shifts plan start limit workers c.shared).2 0 := by
  induction workers with
  | zero => exact fun landed _ => .stay landed (Nat.zero_le _)
  | succ workers ih =>
      intro c landed ready
      have worked : c.Reaches plan (plan.tuning.constants lossValue) start limit
          (work plan (plan.tuning.constants lossValue) start limit
            (batchBound limit c.shared.budget) c.shared).2 workers :=
        reaches_work _ landed ready
      obtain ⟨turns, after, ran, same, landedAfter, left⟩ := worked
      have later := ih landedAfter left
      have shifted : shift plan start limit c.shared = work plan
          (plan.tuning.constants lossValue) start limit (batchBound limit c.shared.budget)
          c.shared := by
        simp only [shift, charged]
      rw [same] at later
      simp only [shifts, shifted]
      rcases ended : work plan (plan.tuning.constants lossValue) start limit
        (batchBound limit c.shared.budget) c.shared with ⟨fault | _, s⟩
      · rw [ended] at later
        exact .after turns ran later
      · rw [ended] at later
        exact .after turns ran later

end Crew

/-! ## Shared batches -/

variable {workers : Number} {budget : Budget} {s : Progress σ α}

/-- A shared batch ends as some order of turns ends in which everything has landed. -/
theorem runShared_reaches {count : Int} (whole : workers.int? = some count) {lossValue : α}
    (charged : plan.valuation.failure = .ok lossValue) :
    ∃ turns c, (Crew.assemble count.toNat ⟨budget, 0, s⟩).run plan.graph plan.tuning
        (plan.tuning.constants lossValue) start limit turns = c ∧ c.flying = [] ∧
      (runShared plan workers start limit budget s).budget = c.shared.budget ∧
      (runShared plan workers start limit budget s).progress = c.shared.progress := by
  have reaches : (Crew.assemble count.toNat ⟨budget, 0, s⟩).Reaches plan
      (plan.tuning.constants lossValue) start limit
      (shifts plan start limit count.toNat ⟨budget, 0, s⟩).2 0 :=
    Crew.reaches_shifts lossValue charged count.toNat rfl (Nat.le_refl _)
  obtain ⟨turns, c, ran, same, landed, _⟩ := reaches
  refine ⟨turns, c, ran, landed, ?_, ?_⟩
  · rw [same]
    simp only [runShared, whole]
  · rw [same]
    simp only [runShared, whole]

/-- A shared batch leaves no virtual loss behind, and counts its playouts at the root, whether or
not a worker failed. -/
theorem runShared_settled {plan : Plan σ ρ ℝ} {s : Progress σ ℝ} {amount exploration : ℝ}
    (ready : Ready plan.graph plan.tuning start amount ⟨budget, 0, s⟩) {count : Int}
    (whole : workers.int? = some count) {lossValue : ℝ}
    (charged : plan.valuation.failure = .ok lossValue)
    (explores : plan.tuning.exploration = some exploration) :
    ∃ finished, (∀ i,
        ((runShared plan workers start limit budget s).progress.tree.node i).virtualLoss = 0) ∧
      ((runShared plan workers start limit budget s).progress.tree.node 0).visits =
        (s.tree.node 0).visits + finished ∧
      (runShared plan workers start limit budget s).progress.playouts = s.playouts + finished := by
  obtain ⟨turns, c, ran, landed, _, progress⟩ := runShared_reaches whole charged
  have constants : plan.tuning.constants lossValue = some ⟨exploration, lossValue⟩ := by
    simp [Tuning.constants, explores]
  rw [constants] at ran
  have accounts : Accounts plan.graph start limit amount ⟨budget, 0, s⟩ count.toNat c :=
    ran ▸ (ready.accounts limit count.toNat).run ready _ turns
  have settled := accounts.settled ready landed
  rw [progress]
  exact ⟨c.finished.length, settled.loss_eq, settled.root_visits, accounts.playouts_eq⟩

end EGraphSearch
