import EGraphSearch.Proofs.Number.Counts
import EGraphSearch.Proofs.Number.Exact
import EGraphSearch.Proofs.Search.Flights

/-!
# Accounting for playouts in any order

However the workers of a batch take their turns, the counters of every node tell which playouts
crossed it: its virtual loss counts those in flight, its visits and its total value those that
finished.  The accounts hold exactly, over the real numbers.
-/

set_option autoImplicit false

namespace EGraphSearch

variable {σ : Type} {g : EGraph} {tuning : Tuning ℝ} {start : Nat} {limit : Option Number}
  {amount : ℝ} {base : Shared σ ℝ} {workers : Nat} {c : Crew σ ℝ}

/-! ## Counting flights -/

/-- How many of the flights cross a node. -/
def crossings (i : Nat) (flights : List Flight) : Nat := flights.countP fun f => f.path.contains i

/-- The sum of the values of the playouts that crossed a node. -/
noncomputable def earnings (i : Nat) (finished : List (Flight × ℝ)) : ℝ :=
  ((finished.filter fun entry => entry.1.path.contains i).map Prod.snd).sum

theorem crossings_cons (i : Nat) (f : Flight) (flights : List Flight) :
    crossings i (f :: flights) = crossings i flights + if i ∈ f.path then 1 else 0 := by
  by_cases crosses : i ∈ f.path <;> simp [crossings, crosses]

theorem earnings_cons (i : Nat) (f : Flight) (value : ℝ) (finished : List (Flight × ℝ)) :
    earnings i ((f, value) :: finished) =
      earnings i finished + if i ∈ f.path then value else 0 := by
  by_cases crosses : i ∈ f.path <;> simp [earnings, crosses, add_comm]

theorem perm_cons_eraseIdx {flights : List Flight} {place : Nat} {f : Flight}
    (found : flights[place]? = some f) : flights.Perm (f :: flights.eraseIdx place) := by
  obtain ⟨inside, rfl⟩ := List.getElem?_eq_some_iff.mp found
  exact (List.getElem_cons_eraseIdx_perm inside).symm

theorem crossings_eraseIdx (i : Nat) {flights : List Flight} {place : Nat} {f : Flight}
    (found : flights[place]? = some f) :
    crossings i flights = crossings i (flights.eraseIdx place) + if i ∈ f.path then 1 else 0 := by
  rw [← crossings_cons]
  exact (perm_cons_eraseIdx found).countP_eq _

/-! ## Accounts -/

/-- A batch that is about to start, with nothing in flight. -/
structure Ready (g : EGraph) (tuning : Tuning ℝ) (start : Nat) (amount : ℝ) (base : Shared σ ℝ) :
    Prop where
  accepted : g.Accepted
  explored : Explores g Tree.initial base.progress.tree
  inside : start < base.progress.tree.size
  settled : ∀ i, (base.progress.tree.node i).virtualLoss = 0
  unstarted : base.started = 0
  loss : tuning.virtualLoss = some amount
  nonneg : 0 ≤ amount

structure Accounts (g : EGraph) (start : Nat) (limit : Option Number) (amount : ℝ)
    (base : Shared σ ℝ) (workers : Nat) (c : Crew σ ℝ) : Prop where
  explored : Explores g base.progress.tree c.shared.progress.tree
  launched : ∀ f ∈ c.begun, f.Launched g c.shared.progress.tree start
  /-- Every playout is in flight, finished or failed, and in one place only. -/
  sorted : c.begun.Perm (c.flying ++ (c.finished.map Prod.fst ++ c.failed))
  loss_eq : ∀ i, (c.shared.progress.tree.node i).virtualLoss = amount * crossings i c.flying
  visits_eq : ∀ i, (c.shared.progress.tree.node i).visits =
    (base.progress.tree.node i).visits + crossings i (c.finished.map Prod.fst)
  total_eq : ∀ i, (c.shared.progress.tree.node i).total =
    (base.progress.tree.node i).total + earnings i c.finished
  playouts_eq : c.shared.progress.playouts = base.progress.playouts + c.finished.length
  indices_eq : c.begun.map Flight.index = List.range' base.budget.claimed c.begun.length
  claimed_eq : c.shared.budget.claimed = base.budget.claimed + c.begun.length
  started_eq : c.shared.started = c.begun.length
  maxPlayouts_eq : c.shared.budget.maxPlayouts = base.budget.maxPlayouts
  within_limit : ∀ most, limit.bind Number.ceiling? = some most → c.begun.length ≤ most
  within_budget : ∀ rest, base.budget.remaining? = some rest → c.begun.length ≤ rest
  crew_le : c.idle + c.flying.length + c.failed.length ≤ workers

theorem Ready.accounts (ready : Ready g tuning start amount base) (limit : Option Number)
    (workers : Nat) :
    Accounts g start limit amount base workers (Crew.assemble workers base) where
  explored := .here
  launched := by simp [Crew.assemble]
  sorted := by simp [Crew.assemble]
  loss_eq i := by simp [Crew.assemble, crossings, ready.settled i]
  visits_eq i := by simp [Crew.assemble, crossings]
  total_eq i := by simp [Crew.assemble, earnings]
  playouts_eq := by simp [Crew.assemble]
  indices_eq := by simp [Crew.assemble]
  claimed_eq := by simp [Crew.assemble]
  started_eq := by simp [Crew.assemble, ready.unstarted]
  maxPlayouts_eq := rfl
  within_limit := by simp [Crew.assemble]
  within_budget := by simp [Crew.assemble]
  crew_le := by simp [Crew.assemble]

theorem Accounts.charted (ready : Ready g tuning start amount base)
    (accounts : Accounts g start limit amount base workers c) :
    Charted g c.shared.progress.tree ∧
      Tree.Lasts base.progress.tree c.shared.progress.tree := by
  have wf := ready.accepted.wellFormed
  exact accounts.explored.charted wf (ready.explored.charted wf charted_initial).1

theorem Accounts.of_mem_flying (accounts : Accounts g start limit amount base workers c)
    {place : Nat} {f : Flight} (found : c.flying[place]? = some f) :
    f.Launched g c.shared.progress.tree start := by
  refine accounts.launched f (accounts.sorted.mem_iff.mpr ?_)
  exact List.mem_append_left _ (List.mem_of_getElem? found)

/-! ## Turns -/

theorem lt_of_not_reachedBy {n : Number} {least count : Nat} (ceiling : n.ceiling? = some least)
    (below : n.reachedBy count = false) : count < least := by
  by_contra reached
  rw [Number.reachedBy_of_ceiling ceiling (Nat.not_lt.mp reached)] at below
  simp at below

theorem Accounts.more_within_limit (accounts : Accounts g start limit amount base workers c)
    (below : limit.any (·.reachedBy c.shared.started) = false) {most : Nat}
    (ceiling : limit.bind Number.ceiling? = some most) : c.begun.length + 1 ≤ most := by
  obtain ⟨n, rfl, ceiling⟩ := Option.bind_eq_some_iff.mp ceiling
  rw [Option.any_some, accounts.started_eq] at below
  exact lt_of_not_reachedBy ceiling below

theorem Accounts.more_within_budget (accounts : Accounts g start limit amount base workers c)
    (unspent : c.shared.budget.exhausted = false) {rest : Nat}
    (remaining : base.budget.remaining? = some rest) : c.begun.length + 1 ≤ rest := by
  unfold Budget.remaining? at remaining
  split at remaining
  · simp at remaining
  · rename_i n most
    obtain ⟨least, ceiling, rfl⟩ := Option.map_eq_some_iff.mp remaining
    simp only [Budget.exhausted, accounts.maxPlayouts_eq, most, Option.any_some,
      accounts.claimed_eq, Bool.or_eq_false_iff] at unspent
    have less := lt_of_not_reachedBy ceiling unspent.1
    omega

theorem counters_addLoss {n m : SearchNode ℝ} {crosses : Prop} [Decidable crosses]
    (same : m.statistics = if crosses then (n.addLoss amount).statistics else n.statistics) :
    m.visits = n.visits ∧ m.total = n.total ∧
      m.virtualLoss = n.virtualLoss + if crosses then amount else 0 := by
  by_cases here : crosses
  · simpa [here, SearchNode.statistics, SearchNode.addLoss] using same
  · simpa [here, SearchNode.statistics] using same

theorem Accounts.begin (ready : Ready g tuning start amount base)
    (constants : ScoreConstants ℝ) (accounts : Accounts g start limit amount base workers c) :
    Accounts g start limit amount base workers
      (c.turn g tuning (some constants) start limit .begin) := by
  obtain ⟨charted, lasts⟩ := accounts.charted ready
  have inside := Nat.lt_of_lt_of_le ready.inside lasts.size_le
  have crew := accounts.crew_le
  simp only [Crew.turn]
  cases idle : c.idle with
  | zero => exact accounts
  | succ idle' =>
      rw [idle] at crew
      rcases begin_spec ready.accepted.wellFormed constants ready.loss charted inside limit with
        ⟨began, _⟩ | ⟨f, after, began, below, unspent, index, launched, explored, statistics⟩
      · simp only [began]
        exact { accounts with crew_le := by simp only; omega }
      · simp only [began]
        have counters := fun i => counters_addLoss (statistics i)
        have lastsAfter := (explored.charted ready.accepted.wellFormed charted).2
        constructor
        · exact accounts.explored.trans explored
        · intro f' member
          rcases List.mem_append.mp member with old | new
          · exact (accounts.launched f' old).later charted.toLinked lastsAfter
          · rw [List.mem_singleton.mp new]
            exact launched
        · exact (List.perm_append_singleton f c.begun).trans (accounts.sorted.cons f)
        · intro i
          rw [(counters i).2.2, accounts.loss_eq, crossings_cons]
          split <;> push_cast <;> ring
        · intro i
          rw [(counters i).1, accounts.visits_eq]
        · intro i
          rw [(counters i).2.1, accounts.total_eq]
        · exact accounts.playouts_eq
        · rw [List.map_append, accounts.indices_eq, List.length_append, List.length_singleton,
            List.range'_concat, List.map_singleton, index, accounts.claimed_eq, Nat.one_mul]
        · simp only [List.length_append, List.length_singleton]
          rw [accounts.claimed_eq]
          omega
        · simp [accounts.started_eq]
        · exact accounts.maxPlayouts_eq
        · intro most ceiling
          rw [List.length_append, List.length_singleton]
          exact accounts.more_within_limit below ceiling
        · intro rest remaining
          rw [List.length_append, List.length_singleton]
          exact accounts.more_within_budget unspent remaining
        · simp only [List.length_cons]
          omega

section Ending

variable {place : Nat} {f : Flight}

theorem Accounts.sorted_eraseIdx (accounts : Accounts g start limit amount base workers c)
    (found : c.flying[place]? = some f) :
    c.begun.Perm (c.flying.eraseIdx place ++ f :: (c.finished.map Prod.fst ++ c.failed)) :=
  (accounts.sorted.trans ((perm_cons_eraseIdx found).append_right _)).trans
    List.perm_middle.symm

theorem Accounts.loss_eraseIdx (ready : Ready g tuning start amount base)
    (accounts : Accounts g start limit amount base workers c)
    (found : c.flying[place]? = some f) (i : Nat) :
    ((if i ∈ f.path then (c.shared.progress.tree.node i).removeLoss amount
      else c.shared.progress.tree.node i)).virtualLoss =
        amount * crossings i (c.flying.eraseIdx place) := by
  have loss := accounts.loss_eq i
  rw [crossings_eraseIdx i found] at loss
  by_cases crosses : i ∈ f.path
  · rw [if_pos crosses] at loss ⊢
    have left : (c.shared.progress.tree.node i).virtualLoss - amount =
        amount * crossings i (c.flying.eraseIdx place) := by
      rw [loss]
      push_cast
      ring
    -- What the other flights have lost is not negative, so the clamp at zero changes nothing.
    have nonneg : 0 ≤ amount * (crossings i (c.flying.eraseIdx place) : ℝ) :=
      mul_nonneg ready.nonneg (Nat.cast_nonneg _)
    rw [SearchNode.removeLoss, scalar_max_real, scalar_zero_real, ← left]
    exact max_eq_right (left ▸ nonneg)
  · rw [if_neg crosses] at loss ⊢
    simpa using loss

theorem Accounts.finish (ready : Ready g tuning start amount base)
    (constants : ScoreConstants ℝ) (accounts : Accounts g start limit amount base workers c)
    (place : Nat) (leaf : Leaf ℝ) :
    Accounts g start limit amount base workers
      (c.turn g tuning (some constants) start limit (.finish place leaf)) := by
  obtain ⟨charted, _⟩ := accounts.charted ready
  have crew := accounts.crew_le
  simp only [Crew.turn]
  cases found : c.flying[place]? with
  | none => exact accounts
  | some f =>
      obtain ⟨after, finished, updated⟩ :=
        finish_spec ready.loss charted (accounts.of_mem_flying found) leaf
      have fewer := (perm_cons_eraseIdx found).length_eq
      simp only [finished]
      refine { accounts with
        explored := ?_, launched := ?_, sorted := ?_, loss_eq := ?_, visits_eq := ?_
        total_eq := ?_, playouts_eq := ?_, crew_le := ?_ }
      · rw [tree_record]
        exact accounts.explored.trans (.restate .here updated.restated)
      · intro f' member
        rw [tree_record]
        exact (accounts.launched f' member).later charted.toLinked updated.restated.lasts
      · exact accounts.sorted_eraseIdx found
      · intro i
        rw [tree_record, updated.node_eq, ← accounts.loss_eraseIdx ready found i]
        split <;> rfl
      · intro i
        rw [tree_record, updated.node_eq, List.map_cons, crossings_cons, ← Nat.add_assoc,
          ← accounts.visits_eq i]
        split <;> rfl
      · intro i
        rw [tree_record, updated.node_eq, earnings_cons, ← add_assoc, ← accounts.total_eq i]
        split
        · rfl
        · exact (add_zero _).symm
      · rw [playouts_record, accounts.playouts_eq, List.length_cons, Nat.add_assoc]
      · simp only [List.length_cons] at fewer ⊢
        omega

theorem Accounts.fail (ready : Ready g tuning start amount base)
    (constants : ScoreConstants ℝ) (accounts : Accounts g start limit amount base workers c)
    (place : Nat) :
    Accounts g start limit amount base workers
      (c.turn g tuning (some constants) start limit (.fail place)) := by
  obtain ⟨charted, _⟩ := accounts.charted ready
  have crew := accounts.crew_le
  simp only [Crew.turn]
  cases found : c.flying[place]? with
  | none => exact accounts
  | some f =>
      obtain ⟨after, abandoned, updated⟩ :=
        abandon_spec ready.loss charted.toLinked (accounts.of_mem_flying found)
      have fewer := (perm_cons_eraseIdx found).length_eq
      simp only [abandoned, Shared.withTree]
      refine { accounts with
        explored := ?_, launched := ?_, sorted := ?_, loss_eq := ?_, visits_eq := ?_
        total_eq := ?_, crew_le := ?_ }
      · exact accounts.explored.trans (.restate .here updated.restated)
      · intro f' member
        exact (accounts.launched f' member).later charted.toLinked updated.restated.lasts
      · exact (accounts.sorted_eraseIdx found).trans (List.perm_middle.symm.append_left _)
      · intro i
        rw [updated.node_eq, ← accounts.loss_eraseIdx ready found i]
      · intro i
        rw [updated.node_eq, ← accounts.visits_eq i]
        split <;> rfl
      · intro i
        rw [updated.node_eq, ← accounts.total_eq i]
        split <;> rfl
      · simp only [List.length_cons] at fewer ⊢
        omega

end Ending

theorem Accounts.turn (ready : Ready g tuning start amount base) (constants : ScoreConstants ℝ)
    (accounts : Accounts g start limit amount base workers c) (turn : Turn σ ℝ) :
    Accounts g start limit amount base workers
      (c.turn g tuning (some constants) start limit turn) := by
  cases turn with
  | begin => exact accounts.begin ready constants
  | finish place leaf => exact accounts.finish ready constants place leaf
  | fail place => exact accounts.fail ready constants place
  | outside evaluator journal elapsed => exact { accounts with }

theorem Accounts.run (ready : Ready g tuning start amount base) (constants : ScoreConstants ℝ)
    (turns : List (Turn σ ℝ)) : ∀ {c : Crew σ ℝ},
      Accounts g start limit amount base workers c →
      Accounts g start limit amount base workers
        (c.run g tuning (some constants) start limit turns) := by
  induction turns with
  | nil => exact fun accounts => accounts
  | cons turn rest ih => exact fun accounts => ih (accounts.turn ready constants turn)

/-! ## Whole batches -/

/-- The accounts when nothing is in flight. -/
structure Settled (base : Shared σ ℝ) (c : Crew σ ℝ) : Prop where
  loss_eq : ∀ i, (c.shared.progress.tree.node i).virtualLoss = 0
  root_visits : (c.shared.progress.tree.node 0).visits =
    (base.progress.tree.node 0).visits + c.finished.length

theorem Accounts.settled (ready : Ready g tuning start amount base)
    (accounts : Accounts g start limit amount base workers c) (landed : c.flying = []) :
    Settled base c := by
  obtain ⟨charted, _⟩ := accounts.charted ready
  constructor
  · intro i
    rw [accounts.loss_eq, landed]
    simp [crossings]
  · -- Every path begins at the root.
    have all : crossings 0 (c.finished.map Prod.fst) = (c.finished.map Prod.fst).length := by
      refine List.countP_eq_length.mpr fun f member => ?_
      have begun : f ∈ c.begun := accounts.sorted.mem_iff.mpr
        (List.mem_append_right _ (List.mem_append_left _ member))
      simpa using (accounts.launched f begun).root_mem charted.toLinked
    rw [accounts.visits_eq, all, List.length_map]

/-- However many workers take their turns in whatever order: the accounts hold, beginning a playout
never fails and is refused only by the limit or the budget, and when nothing is in flight all
virtual loss is gone. -/
theorem any_order_keeps_accounts (ready : Ready g tuning start amount base)
    (constants : ScoreConstants ℝ) (limit : Option Number) (workers : Nat)
    (turns : List (Turn σ ℝ))
    (ran : (Crew.assemble workers base).run g tuning (some constants) start limit turns = c) :
    Accounts g start limit amount base workers c ∧
    (∃ flight? shared, c.shared.begin g tuning (some constants) start limit =
        (.ok flight?, shared) ∧
      (flight? = none ↔ limit.any (·.reachedBy c.shared.started) = true ∨
        c.shared.budget.exhausted = true)) ∧
    (c.flying = [] → Settled base c) := by
  have accounts : Accounts g start limit amount base workers c :=
    ran ▸ (ready.accounts limit workers).run ready constants turns
  refine ⟨accounts, ?_, accounts.settled ready⟩
  obtain ⟨charted, lasts⟩ := accounts.charted ready
  have inside := Nat.lt_of_lt_of_le ready.inside lasts.size_le
  rcases begin_spec ready.accepted.wellFormed constants ready.loss charted inside limit with
    ⟨began, full⟩ | ⟨f, after, began, below, unspent, _⟩
  · exact ⟨none, _, began, by simpa using full⟩
  · exact ⟨some f, _, began, by simp [below, unspent]⟩

section Loop

noncomputable def loopTuning : Tuning ℝ :=
  { exploration := some 1, virtualLoss := some 1, rollouts := 1, perRound := none, workers := 2
    completionAttempts := 10, logInterval := 100 }

/-- Three playouts on the graph with a cycle. -/
noncomputable def loopBatch : Shared Unit ℝ :=
  ⟨{ maxPlayouts := some 3, timeLimit := none }, 0, Progress.initial ()⟩

/-- Two workers begin a playout each; the first playout finishes, the other one fails. -/
noncomputable def loopCrew : Crew Unit ℝ :=
  (Crew.assemble 2 loopBatch).run EGraph.loopGraph loopTuning (some ⟨1, 0⟩) 0 none
    [.begin, .begin, .finish 1 { Tally.empty with value := 1 }, .fail 0]

theorem loopBatch_ready : Ready EGraph.loopGraph loopTuning 0 1 loopBatch where
  accepted := EGraph.loopGraph_accepted
  explored := .here
  inside := Nat.one_pos
  settled i := by
    rw [loopBatch, Progress.initial, Tree.node_initial]
    exact scalar_zero_real
  unstarted := rfl
  loss := rfl
  nonneg := zero_le_one

theorem any_order_keeps_accounts_loop :
    Ready EGraph.loopGraph loopTuning 0 1 loopBatch ∧
      Accounts EGraph.loopGraph 0 none 1 loopBatch 2 loopCrew ∧
      (∀ i, (loopCrew.shared.progress.tree.node i).visits =
        crossings i (loopCrew.finished.map Prod.fst)) ∧
      (loopCrew.flying = [] → Settled loopBatch loopCrew) := by
  obtain ⟨accounts, _, settled⟩ :=
    any_order_keeps_accounts loopBatch_ready ⟨1, 0⟩ none 2
      [.begin, .begin, .finish 1 { Tally.empty with value := 1 }, .fail 0] (c := loopCrew) rfl
  have unvisited : ∀ i, (loopBatch.progress.tree.node i).visits = 0 := by
    intro i
    rw [loopBatch, Progress.initial, Tree.node_initial]
    rfl
  refine ⟨loopBatch_ready, accounts, fun i => ?_, settled⟩
  rw [accounts.visits_eq, unvisited, Nat.zero_add]

end Loop

end EGraphSearch
