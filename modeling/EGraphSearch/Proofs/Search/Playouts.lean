import EGraphSearch.Proofs.Rollout
import EGraphSearch.Proofs.Search.Descent
import EGraphSearch.Proofs.Tracker.Terms
import EGraphSearch.Search.Playout

/-!
# What a playout does

A playout keeps the tree faithful, adds one visit to every node of its path and to no other, and
prices terms of terminal trackers only.  If the problem is regular it never fails.
-/

set_option autoImplicit false

namespace EGraphSearch

variable {σ ρ α : Type} [Scalar α] {g : EGraph}

/-! ## Paths of playouts -/

/-- What a playout from `start` did to the tree: it went down to `start` along `path` and on along
`below`. -/
structure Played (g : EGraph) (tree after : Tree α) (start : Nat) (path below : List Nat) :
    Prop where
  path_eq : tree.pathFromRoot start = .ok path
  faithful : Faithful g after
  kept : Tree.Kept tree after
  below_parent : ∀ j ∈ below, start < j ∧ ∃ p ∈ start :: below, (after.node j).parent = some p
  visits_eq : ∀ j, (after.node j).visits = (tree.node j).visits + if j ∈ path ++ below then 1 else 0
  /-- Nodes above the start and off the path keep their children. -/
  children_eq : ∀ j, j ∉ start :: below → (after.node j).children = (tree.node j).children
  notes_eq : ∀ j, (tree.node j).numMoves.isSome →
    (after.node j).numMoves = (tree.node j).numMoves ∧
    (after.node j).terminal = (tree.node j).terminal

theorem Descent.nodup_path {tree : Tree α} {start : Nat} {walk : Walk α} {below path : List Nat}
    (descent : Descent g tree start walk below) (faithful : Faithful g tree)
    (inside : start < tree.size) (pathEq : tree.pathFromRoot start = .ok path) :
    (path ++ below).Nodup ∧ ∀ j ∈ path ++ below, j < walk.tree.size := by
  obtain ⟨before, pathStart, earlier, ascending⟩ := faithful.toLinked.exists_path start inside
  obtain rfl : path = before ++ [start] := Except.ok.inj (pathEq.symm.trans pathStart)
  have pathBound : ∀ j ∈ before ++ [start], j ≤ start := by
    intro j hj
    rcases List.mem_append.mp hj with hj | hj
    · exact Nat.le_of_lt (earlier j hj)
    · exact Nat.le_of_eq (List.mem_singleton.mp hj)
  constructor
  · refine List.nodup_append.mpr ⟨ascending, descent.distinct, ?_⟩
    intro a ha b hb same
    have := pathBound a ha
    have := (descent.inside b hb).1
    omega
  · intro j hj
    rcases List.mem_append.mp hj with hj | hj
    · exact Nat.lt_of_le_of_lt (pathBound j hj) (Nat.lt_of_lt_of_le inside descent.kept.size_le)
    · exact (descent.inside j hj).2

theorem credit_spec {tree : Tree α} (faithful : Faithful g tree) {start : Nat}
    (inside : start < tree.size) {walk : Walk α} {below path : List Nat}
    (descent : Descent g tree start walk below) (pathEq : tree.pathFromRoot start = .ok path)
    (value : α) : ∃ after, walk.tree.creditPath value (path ++ below) = (.ok (), after) ∧
      Played g tree after start path below := by
  obtain ⟨distinct, insideAll⟩ := descent.nodup_path faithful inside pathEq
  obtain ⟨after, credited, size, nodes⟩ :=
    Tree.updatePath_spec (f := SearchNode.credit value) _ distinct insideAll
  have same : ∀ j, (after.node j).parent = (walk.tree.node j).parent ∧
      (after.node j).move = (walk.tree.node j).move ∧
      (after.node j).children = (walk.tree.node j).children ∧
      (after.node j).numMoves = (walk.tree.node j).numMoves ∧
      (after.node j).terminal = (walk.tree.node j).terminal := by
    intro j
    rw [nodes j]
    split <;> simp [SearchNode.credit]
  refine ⟨after, credited, pathEq, descent.faithful.updated size same, ?_, ?_, ?_, ?_, ?_⟩
  · exact descent.kept.trans
      ⟨Nat.le_of_eq size.symm, fun j _ => (same j).1, fun j _ => (same j).2.1⟩
  · intro j hj
    obtain ⟨p, hp, parent⟩ := descent.chained j hj
    exact ⟨(descent.inside j hj).1, p, hp, by rw [(same j).1, parent]⟩
  · intro j
    rw [nodes j, ← descent.visits_eq j]
    split <;> simp [SearchNode.credit]
  · intro j apart
    rw [(same j).2.2.1, descent.frame j apart]
  · intro j known
    rw [(same j).2.2.2.1, (same j).2.2.2.2]
    exact descent.notes_eq j known

/-! ## Rollouts from a leaf -/

/-- What holds of the best pair, if there is one. -/
def Best (P : Term × α → Prop) (best : Option (Term × α)) : Prop :=
  ∀ found, best = some found → P found

theorem best_cheaper {P : Term × α → Prop} {best : Option (Term × α)} {found : Term × α}
    (known : Best P best) (here : P found) : Best P (cheaper best found) := by
  intro pick picked
  cases best with
  | none =>
      cases picked
      exact here
  | some old =>
      simp only [cheaper] at picked
      split at picked
      · cases picked
        exact here
      · cases picked
        exact known _ rfl

/-- Whatever the oracle charges for the term of a terminal tracker has the property. -/
def Problem.Priced (p : Problem σ ρ α) (P : Term × α → Prop) : Prop :=
  ∀ t term state cost, Tracker.Inv p.graph t → t.toTerm p.graph = .ok term →
    (p.ask term state).1 = .ok (.cost cost) → P (term, cost)

/-- What a search needs so that nothing in it fails. -/
structure Problem.Regular (p : Problem σ ρ α) : Prop where
  accepted : p.graph.Accepted
  checkable : p.graph.Checkable
  reliable : p.choose.Reliable p.graph
  answers : ∀ term state, ∃ reply, (p.ask term state).1 = .ok reply
  failure : ∃ x, p.valuation.failure = .ok x

section Leaf

variable {p : Problem σ ρ α} {P : Term × α → Prop} {s : Sampling σ ρ α}

omit [Scalar α] in
theorem evaluate_cases (e : Evaluator σ) (term : Term) :
    (∃ fault evaluator, e.evaluate p.ask term = (.error fault, evaluator) ∧
      (p.ask term e.oracle).1 = .error fault) ∨
    ∃ reply evaluator, e.evaluate p.ask term = (.ok reply, evaluator) ∧
      (p.ask term e.oracle).1 = .ok reply := by
  unfold Evaluator.evaluate
  rcases p.ask term e.oracle with ⟨fault | reply, state⟩
  · exact .inl ⟨fault, _, rfl, rfl⟩
  · exact .inr ⟨reply, _, rfl, rfl⟩

omit [Scalar α] in
theorem countFailure_spec (count : α → Tally α → Tally α)
    (keeps : ∀ x tally, (count x tally).best = tally.best) :
    (s.countFailure p count).2.tracker = s.tracker ∧
    (s.countFailure p count).2.tally.best = s.tally.best := by
  unfold Sampling.countFailure
  split <;> simp [keeps]

theorem price_spec (priced : p.Priced P) {t : Tracker} (inv : Tracker.Inv p.graph t) {term : Term}
    (termOf : t.toTerm p.graph = .ok term) (best : Best P s.tally.best) :
    (s.price p term).2.tracker = s.tracker ∧ Best P (s.price p term).2.tally.best := by
  unfold Sampling.price
  rcases evaluate_cases (p := p) s.evaluator term with
    ⟨fault, evaluator, asked, _⟩ | ⟨reply, evaluator, asked, answer⟩
  · rw [asked]
    exact ⟨rfl, best⟩
  · rw [asked]
    cases reply with
    | failed why =>
        obtain ⟨tracker, same⟩ := countFailure_spec (p := p) (s := { s with
          evaluator := evaluator
          unpriced := s.unpriced ++ [(term, why)] }) Tally.failed (fun _ _ => rfl)
        exact ⟨tracker, by rw [same]; exact best⟩
    | cost cost => exact ⟨rfl, best_cheaper best (priced t term _ cost inv termOf answer)⟩

theorem rollOnce_spec (wf : p.graph.toArena.WellFormed) (priced : p.Priced P) (keep : Bool)
    (inv : Tracker.Inv p.graph s.tracker) (best : Best P s.tally.best) :
    Tracker.Inv p.graph (s.rollOnce p keep).2.tracker ∧
      Best P (s.rollOnce p keep).2.tally.best := by
  obtain ⟨⟨moves, run⟩, _⟩ := rollout_spec p.choose wf _ s.source
    (Nat.lt_succ_self _) inv
  have invEnd := run.inv wf inv
  have invKept : Tracker.Inv p.graph
      (if keep then s.tracker else (rollout p.graph p.choose s.tracker s.source).tracker) := by
    split
    · exact inv
    · exact invEnd
  unfold Sampling.rollOnce
  dsimp only
  split
  · exact ⟨invKept, best⟩
  · obtain ⟨tracker, same⟩ := countFailure_spec (p := p) (s := { s with
      source := (rollout p.graph p.choose s.tracker s.source).source
      tracker :=
        if keep then s.tracker else (rollout p.graph p.choose s.tracker s.source).tracker })
      Tally.deadEnd (fun _ _ => rfl)
    exact ⟨by rw [tracker]; exact invKept, by rw [same]; exact best⟩
  · split
    · exact ⟨invKept, best⟩
    · rename_i term termOf
      obtain ⟨tracker, best⟩ := price_spec (s := { s with
        source := (rollout p.graph p.choose s.tracker s.source).source
        tracker :=
          if keep then s.tracker else (rollout p.graph p.choose s.tracker s.source).tracker })
        priced invEnd termOf best
      exact ⟨by rw [tracker]; exact invKept, best⟩

theorem rollMany_cases {keep : Bool} {count : Nat} {last : Sampling σ ρ α}
    (rolled : s.rollMany p keep (count + 1) = (.ok (), last)) :
    ∃ next, s.rollOnce p keep = (.ok (), next) ∧ next.rollMany p keep count = (.ok (), last) := by
  simp only [Sampling.rollMany] at rolled
  rcases once : s.rollOnce p keep with ⟨fault | _, next⟩
  · simp [once] at rolled
  · simp only [once] at rolled
    exact ⟨next, rfl, rolled⟩

theorem evaluateLeaf_cases {rollouts : Number} {tracker : Tracker} {evaluator : Evaluator σ}
    {source : ρ} {leaf : Leaf α} {last : Sampling σ ρ α}
    (evaluated : evaluateLeaf p rollouts tracker evaluator source = (.ok leaf, last)) :
    ∃ count, rollouts.int? = some count ∧ last.leaf count = leaf ∧
      (Sampling.start tracker evaluator source).rollMany p (decide (1 < count)) count.toNat =
        (.ok (), last) := by
  unfold evaluateLeaf at evaluated
  split at evaluated
  · simp at evaluated
  · rename_i count whole
    dsimp only at evaluated
    rcases rolled : (Sampling.start tracker evaluator source).rollMany p (decide (1 < count))
      count.toNat with ⟨fault | _, sampling⟩
    · simp [rolled] at evaluated
    · simp only [rolled] at evaluated
      split at evaluated
      · simp at evaluated
      · obtain ⟨made, rfl⟩ : sampling.leaf count = leaf ∧ sampling = last := by
          simpa using evaluated
        exact ⟨count, whole, made, rolled⟩

theorem rollMany_spec (wf : p.graph.toArena.WellFormed) (priced : p.Priced P) (keep : Bool)
    (count : Nat) : ∀ {s : Sampling σ ρ α}, Tracker.Inv p.graph s.tracker → Best P s.tally.best →
      Best P (s.rollMany p keep count).2.tally.best := by
  induction count with
  | zero => exact fun _ best => best
  | succ count ih =>
      intro s inv best
      obtain ⟨invNext, bestNext⟩ := rollOnce_spec wf priced keep inv best
      simp only [Sampling.rollMany]
      split
      · rename_i rolled
        rw [rolled] at bestNext
        exact bestNext
      · rename_i rolled
        rw [rolled] at invNext bestNext
        exact ih invNext bestNext

theorem evaluateLeaf_spec (wf : p.graph.toArena.WellFormed) (priced : p.Priced P)
    {rollouts : Number} {tracker : Tracker} {evaluator : Evaluator σ} {source : ρ} {leaf : Leaf α}
    (inv : Tracker.Inv p.graph tracker)
    (evaluated : (evaluateLeaf p rollouts tracker evaluator source).1 = .ok leaf) :
    Best P leaf.best := by
  obtain ⟨count, _, rfl, rolled⟩ := evaluateLeaf_cases (Prod.ext evaluated rfl)
  have best := rollMany_spec wf priced (decide (1 < count)) count.toNat
    (s := Sampling.start tracker evaluator source) inv (fun _ none_ => by
      simp [Sampling.start, Tally.empty] at none_)
  rw [rolled] at best
  exact best

end Leaf

/-! ## Playouts -/

variable {p : Problem σ ρ α} {P : Term × α → Prop} {tuning : Tuning α} {source : ρ} {start : Nat}
  {s after : Progress σ α} {leaf : Leaf α}

/-- A playout that succeeded. -/
structure PlayoutSpec (p : Problem σ ρ α) (P : Term × α → Prop) (start : Nat)
    (s after : Progress σ α) (leaf : Leaf α) : Prop where
  played : ∃ path below, Played p.graph s.tree after.tree start path below
  best : Best P leaf.best
  playouts_eq : after.playouts = s.playouts
  best_eq : after.best = s.best
  committed_eq : after.committed = s.committed

theorem playout_spec (wf : p.graph.toArena.WellFormed) (priced : p.Priced P)
    (faithful : Faithful p.graph s.tree) (inside : start < s.tree.size)
    (succeeded : playout p tuning start source s = (.ok leaf, after)) :
    PlayoutSpec p P start s after leaf := by
  obtain ⟨tracker, replayed⟩ := faithful.replayed start inside
  obtain ⟨before, path, _, _⟩ := faithful.toLinked.exists_path start inside
  simp only [playout, replayed, selectAndExpand, path] at succeeded
  rcases descend_spec wf (tuning.constants Scalar.zero) _ (Nat.lt_succ_self _) faithful inside
      replayed with ⟨below, descent⟩ | ⟨_, fault, failed⟩
  · simp only [descent.path, Except.map] at succeeded
    split at succeeded
    · simp at succeeded
    · rename_i leaf' sampling evaluated
      have best : Best P leaf'.best :=
        evaluateLeaf_spec wf priced (descent.inv wf) (by rw [evaluated])
      obtain ⟨credited, ok, played⟩ := credit_spec faithful inside descent path leaf'.value
      rw [ok] at succeeded
      obtain ⟨rfl, rfl⟩ : leaf' = leaf ∧ _ = after := by simpa using succeeded
      exact ⟨⟨_, below, played⟩, best, rfl, rfl, rfl⟩
  · simp [failed, Except.map] at succeeded

end EGraphSearch
