import EGraphSearch.Proofs.Search.Keeping
import EGraphSearch.Proofs.Search.Rolls
import EGraphSearch.Proofs.Search.Traffic

/-!
# Landings

A playout taken apart: its walk goes down the tree, its rollouts follow one at a time, and it lands
when its value is credited to the path of its walk.  Others take their steps in between, some never
land, and virtual loss comes and goes.  All the same, the visits and the total of a node are those
of the playouts through it that have landed.
-/

set_option autoImplicit false

namespace EGraphSearch

structure Aloft (σ ρ α : Type) where
  path : List Nat
  sampling : Sampling σ ρ α
  /-- What the rollouts have come to so far. -/
  rolls : List (Roll α)

structure Landing (α : Type) where
  path : List Nat
  rolls : List (Roll α)
  value : α

def landingsThrough {α : Type} (v : Nat) (landings : List (Landing α)) : List (Landing α) :=
  landings.filter fun landing => landing.path.contains v

variable {σ ρ α : Type} [Scalar α]

def Aloft.landing (a : Aloft σ ρ α) (count : Int) : Landing α :=
  ⟨a.path, a.rolls, (a.sampling.leaf count).value⟩

/-- Nothing but virtual loss differs. -/
structure Tree.SameCredit (tree after : Tree α) : Prop where
  restated : Tree.Restated tree after
  visits_eq : ∀ v, (after.node v).visits = (tree.node v).visits
  total_eq : ∀ v, (after.node v).total = (tree.node v).total

theorem Tree.SameCredit.refl (tree : Tree α) : Tree.SameCredit tree tree :=
  ⟨⟨rfl, fun _ => ⟨_, _, _, rfl⟩⟩, fun _ => rfl, fun _ => rfl⟩

theorem sameCredit_updatePath {f : SearchNode α → SearchNode α}
    (light : ∀ n, ∃ loss, f n = { n with virtualLoss := loss }) (path : List Nat) (tree : Tree α) :
    Tree.SameCredit tree (Tree.updatePath f path tree).2 := by
  refine ⟨Tree.restated_updatePath (fun n => ?_) path tree,
    Tree.field_updatePath SearchNode.visits (fun n => ?_) path tree,
    Tree.field_updatePath SearchNode.total (fun n => ?_) path tree⟩ <;>
    obtain ⟨loss, same⟩ := light n
  · exact ⟨_, _, loss, same⟩
  · rw [same]
  · rw [same]

theorem sameCredit_abandon (tuning : Tuning α) (flight : Flight) (shared : Shared σ α) :
    Tree.SameCredit shared.progress.tree (shared.abandon tuning flight).progress.tree := by
  unfold Shared.abandon
  split
  · exact .refl _
  · rename_i amount _
    exact sameCredit_updatePath (f := SearchNode.removeLoss amount) (fun _ => ⟨_, rfl⟩) _ _

/-- What a search can come to, with the playouts that are aloft and those that have landed, in order
of time.  A rollout is a step of its own and finds the evaluator as the step before has left it. -/
inductive Playing (p : Problem σ ρ α) (tuning : Tuning α) :
    Progress σ α → List (Aloft σ ρ α) → List (Landing α) → Prop
  | fresh (oracle : σ) : Playing p tuning (Progress.initial oracle) [] []
  /-- What credits no value and counts no playout: virtual loss, a commitment, a report. -/
  | aside {s t : Progress σ α} {aloft : List (Aloft σ ρ α)} {landings : List (Landing α)}
      (playing : Playing p tuning s aloft landings) (credit : Tree.SameCredit s.tree t.tree)
      (playouts : t.playouts = s.playouts) : Playing p tuning t aloft landings
  /-- A walk whose playout goes no further. -/
  | walked {s : Progress σ α} {aloft : List (Aloft σ ρ α)} {landings : List (Landing α)}
      {start : Nat} {tracker : Tracker} (constants : Option (ScoreConstants α))
      (playing : Playing p tuning s aloft landings)
      (replayed : replay p.graph s.tree start = .ok tracker) :
      Playing p tuning
        { s with tree := (selectAndExpand p.graph constants s.tree tracker start).tree } aloft
        landings
  | departed {s : Progress σ α} {aloft : List (Aloft σ ρ α)} {landings : List (Landing α)}
      {start : Nat} {tracker : Tracker} {constants : Option (ScoreConstants α)} {path : List Nat}
      (source : ρ) (playing : Playing p tuning s aloft landings)
      (replayed : replay p.graph s.tree start = .ok tracker)
      (arrived : (selectAndExpand p.graph constants s.tree tracker start).path = .ok path) :
      Playing p tuning
        { s with tree := (selectAndExpand p.graph constants s.tree tracker start).tree }
        (⟨path, Sampling.start (selectAndExpand p.graph constants s.tree tracker start).tracker
          s.evaluator source, []⟩ :: aloft) landings
  | rolled {s : Progress σ α} {aloft : List (Aloft σ ρ α)} {landings : List (Landing α)}
      {place : Nat} {a : Aloft σ ρ α} {after : Sampling σ ρ α} {count : Int} {roll : Roll α}
      (playing : Playing p tuning s aloft landings) (found : aloft[place]? = some a)
      (whole : tuning.rollouts.int? = some count)
      (comesTo : { a.sampling with evaluator := s.evaluator }.next p = .ok roll)
      (once : { a.sampling with evaluator := s.evaluator }.rollOnce p (decide (1 < count)) =
        (.ok (), after)) :
      Playing p tuning { s with evaluator := after.evaluator }
        (aloft.set place { a with sampling := after, rolls := a.rolls ++ [roll] }) landings
  | landed {s t : Progress σ α} {aloft : List (Aloft σ ρ α)} {landings : List (Landing α)}
      {place : Nat} {a : Aloft σ ρ α} {count : Int} (playing : Playing p tuning s aloft landings)
      (found : aloft[place]? = some a) (whole : tuning.rollouts.int? = some count)
      (nonzero : count ≠ 0) (number : a.rolls.length = count.toNat)
      (tree : t.tree = (s.tree.creditPath (a.sampling.leaf count).value a.path).2)
      (playouts : t.playouts = s.playouts + 1) :
      Playing p tuning t (aloft.eraseIdx place) (landings ++ [a.landing count])
  /-- A playout whose rollouts end with a fault. -/
  | dropped {s : Progress σ α} {aloft : List (Aloft σ ρ α)} {landings : List (Landing α)}
      (place : Nat) (playing : Playing p tuning s aloft landings) :
      Playing p tuning s (aloft.eraseIdx place) landings

/-! ## The books -/

/-- The value of a landing is the mean of what its rollouts are worth. -/
def Landing.Scored (valuation : Valuation α) (rollouts : Number) (landing : Landing α) : Prop :=
  ∃ count worths, rollouts.int? = some count ∧ landing.rolls.length = count.toNat ∧
    List.Forall₂ (fun roll x => roll.worth valuation = .ok x) landing.rolls worths ∧
    landing.value = worths.foldl (· + ·) Scalar.zero / Scalar.ofInt count

def Aloft.Tallied (valuation : Valuation α) (a : Aloft σ ρ α) : Prop :=
  ∃ worths, List.Forall₂ (fun roll x => roll.worth valuation = .ok x) a.rolls worths ∧
    a.sampling.tally.total = worths.foldl (· + ·) Scalar.zero

/-- Visits and totals are those of the playouts that have landed. -/
structure Banked (p : Problem σ ρ α) (tuning : Tuning α) (s : Progress σ α)
    (aloft : List (Aloft σ ρ α)) (landings : List (Landing α)) : Prop where
  charted : Charted p.graph s.tree
  airborne : ∀ a ∈ aloft, ∃ last, s.tree.pathFromRoot last = .ok a.path
  tallied : ∀ a ∈ aloft, a.Tallied p.valuation
  visits_eq : ∀ v, (s.tree.node v).visits = (landingsThrough v landings).length
  total_eq : ∀ v, (s.tree.node v).total =
    ((landingsThrough v landings).map Landing.value).foldl (· + ·) Scalar.zero
  playouts_eq : s.playouts = landings.length
  scored : ∀ landing ∈ landings, landing.Scored p.valuation tuning.rollouts

section Banked

variable {p : Problem σ ρ α} {tuning : Tuning α} {s t : Progress σ α} {aloft : List (Aloft σ ρ α)}
  {landings : List (Landing α)} {a : Aloft σ ρ α} {place : Nat}

theorem banked_initial (oracle : σ) : Banked p tuning (Progress.initial oracle) [] [] where
  charted := charted_initial
  airborne := by simp
  tallied := by simp
  visits_eq v := by
    rw [Progress.initial, Tree.node_initial]
    rfl
  total_eq v := by
    rw [Progress.initial, Tree.node_initial]
    rfl
  playouts_eq := rfl
  scored := by simp

/-- Nothing is credited while a tree only grows. -/
theorem Banked.later (banked : Banked p tuning s aloft landings)
    (charted : Charted p.graph t.tree) (kept : Tree.Kept s.tree t.tree)
    (visits : ∀ v, (t.tree.node v).visits = (s.tree.node v).visits)
    (total : ∀ v, (t.tree.node v).total = (s.tree.node v).total)
    (playouts : t.playouts = s.playouts) : Banked p tuning t aloft landings where
  charted := charted
  airborne a member := by
    obtain ⟨last, path⟩ := banked.airborne a member
    exact ⟨last, Tree.pathFromRoot_of_kept kept path⟩
  tallied := banked.tallied
  visits_eq v := (visits v).trans (banked.visits_eq v)
  total_eq v := (total v).trans (banked.total_eq v)
  playouts_eq := playouts.trans banked.playouts_eq
  scored := banked.scored

theorem Banked.aside (banked : Banked p tuning s aloft landings)
    (credit : Tree.SameCredit s.tree t.tree) (playouts : t.playouts = s.playouts) :
    Banked p tuning t aloft landings :=
  banked.later (credit.restated.charted banked.charted) credit.restated.lasts.kept
    credit.visits_eq credit.total_eq playouts

section Walk

variable {start : Nat} {tracker : Tracker} {constants : Option (ScoreConstants α)}

theorem Banked.walked (wf : p.graph.toArena.WellFormed) (banked : Banked p tuning s aloft landings)
    (constants : Option (ScoreConstants α)) (replayed : replay p.graph s.tree start = .ok tracker) :
    Banked p tuning
      { s with tree := (selectAndExpand p.graph constants s.tree tracker start).tree } aloft
      landings := by
  obtain ⟨charted, lasts⟩ := charted_selectAndExpand wf constants banked.charted replayed
  have statistics := statistics_selectAndExpand (g := p.graph) constants s.tree tracker start
  exact banked.later charted lasts.kept (fun v => congrArg Prod.fst (statistics v))
    (fun v => congrArg (·.2.1) (statistics v)) rfl

theorem Banked.departed (wf : p.graph.toArena.WellFormed)
    (banked : Banked p tuning s aloft landings)
    (replayed : replay p.graph s.tree start = .ok tracker) {path : List Nat}
    (arrived : (selectAndExpand p.graph constants s.tree tracker start).path = .ok path)
    (source : ρ) :
    Banked p tuning
      { s with tree := (selectAndExpand p.graph constants s.tree tracker start).tree }
      (⟨path, Sampling.start (selectAndExpand p.graph constants s.tree tracker start).tracker
        s.evaluator source, []⟩ :: aloft) landings := by
  have walked := banked.walked wf constants replayed
  rcases selectAndExpand_cases wf constants banked.charted (inside_of_replay replayed) replayed with
    spec | ⟨_, fault, failed⟩
  · obtain ⟨path', last, arrives⟩ := spec.arrives
    obtain rfl : path = path' := Except.ok.inj (arrived.symm.trans arrives.returned)
    refine { walked with airborne := ?_, tallied := ?_ }
    · rintro a (_ | ⟨_, member⟩)
      · exact ⟨last, arrives.path_eq⟩
      · exact walked.airborne a member
    · rintro a (_ | ⟨_, member⟩)
      · exact ⟨[], .nil, rfl⟩
      · exact walked.tallied a member
  · simp [failed] at arrived

end Walk

theorem Aloft.Tallied.rolled (tallied : a.Tallied p.valuation) {evaluator : Evaluator σ}
    {roll : Roll α} {after : Sampling σ ρ α} {keep : Bool}
    (comesTo : { a.sampling with evaluator := evaluator }.next p = .ok roll)
    (once : { a.sampling with evaluator := evaluator }.rollOnce p keep = (.ok (), after)) :
    Aloft.Tallied p.valuation { a with sampling := after, rolls := a.rolls ++ [roll] } := by
  obtain ⟨worths, each, sum⟩ := tallied
  obtain ⟨roll', x, same, worth, total⟩ := rollOnce_worth once
  obtain rfl := Except.ok.inj (comesTo.symm.trans same)
  refine ⟨worths ++ [x], List.rel_append each (.cons worth .nil), ?_⟩
  rw [List.foldl_append, ← sum]
  exact total

theorem Banked.rolled (banked : Banked p tuning s aloft landings)
    (found : aloft[place]? = some a) {roll : Roll α} {after : Sampling σ ρ α} {keep : Bool}
    (comesTo : { a.sampling with evaluator := s.evaluator }.next p = .ok roll)
    (once : { a.sampling with evaluator := s.evaluator }.rollOnce p keep = (.ok (), after)) :
    Banked p tuning { s with evaluator := after.evaluator }
      (aloft.set place { a with sampling := after, rolls := a.rolls ++ [roll] }) landings := by
  have member := List.mem_of_getElem? found
  refine { banked with airborne := ?_, tallied := ?_ }
  · intro b listed
    rcases List.mem_or_eq_of_mem_set listed with old | rfl
    · exact banked.airborne b old
    · exact banked.airborne a member
  · intro b listed
    rcases List.mem_or_eq_of_mem_set listed with old | rfl
    · exact banked.tallied b old
    · exact (banked.tallied a member).rolled comesTo once

theorem Banked.creditPath (banked : Banked p tuning s aloft landings) (member : a ∈ aloft)
    (value : α) : ∃ after, s.tree.creditPath value a.path = (.ok (), after) ∧
      Updated a.path (SearchNode.credit value) s.tree after := by
  obtain ⟨last, path⟩ := banked.airborne a member
  exact updated_path banked.charted.toLinked (Tree.inside_of_pathFromRoot path) path
    fun _ => ⟨_, _, _, rfl⟩

omit [Scalar α] in
theorem landingsThrough_append (v : Nat) (landings : List (Landing α)) (landing : Landing α) :
    landingsThrough v (landings ++ [landing]) =
      landingsThrough v landings ++ if v ∈ landing.path then [landing] else [] := by
  by_cases passes : v ∈ landing.path <;> simp [landingsThrough, passes]

theorem Banked.dropped (banked : Banked p tuning s aloft landings) (place : Nat) :
    Banked p tuning s (aloft.eraseIdx place) landings :=
  { banked with
    airborne := fun a member => banked.airborne a (List.mem_of_mem_eraseIdx member)
    tallied := fun a member => banked.tallied a (List.mem_of_mem_eraseIdx member) }

theorem Banked.landed (banked : Banked p tuning s aloft landings)
    (found : aloft[place]? = some a) {count : Int} (whole : tuning.rollouts.int? = some count)
    (number : a.rolls.length = count.toNat)
    (tree : t.tree = (s.tree.creditPath (a.sampling.leaf count).value a.path).2)
    (playouts : t.playouts = s.playouts + 1) :
    Banked p tuning t (aloft.eraseIdx place) (landings ++ [a.landing count]) := by
  have member := List.mem_of_getElem? found
  obtain ⟨after, credited, updated⟩ := banked.creditPath member (a.sampling.leaf count).value
  obtain rfl : t.tree = after := tree.trans (congrArg Prod.snd credited)
  obtain ⟨worths, each, sum⟩ := banked.tallied a member
  refine ⟨updated.restated.charted banked.charted, ?_, (banked.dropped place).tallied, ?_, ?_, ?_,
    ?_⟩
  · intro b listed
    obtain ⟨last, path⟩ := (banked.dropped place).airborne b listed
    exact ⟨last, Tree.pathFromRoot_of_kept updated.restated.lasts.kept path⟩
  · intro v
    rw [updated.node_eq, landingsThrough_append, List.length_append, ← banked.visits_eq]
    by_cases passes : v ∈ a.path <;> simp [Aloft.landing, passes, SearchNode.credit]
  · intro v
    rw [updated.node_eq, landingsThrough_append, List.map_append, List.foldl_append,
      ← banked.total_eq]
    by_cases passes : v ∈ a.path <;> simp [Aloft.landing, passes, SearchNode.credit]
  · rw [playouts, banked.playouts_eq, List.length_append, List.length_singleton]
  · intro landing listed
    rcases List.mem_append.mp listed with old | new
    · exact banked.scored landing old
    · rw [List.mem_singleton.mp new]
      exact ⟨count, worths, whole, number, each, congrArg (· / Scalar.ofInt count) sum⟩

/-- However the playouts interleave, the books are right. -/
theorem Playing.banked (wf : p.graph.toArena.WellFormed)
    (playing : Playing p tuning s aloft landings) : Banked p tuning s aloft landings := by
  induction playing with
  | fresh oracle => exact banked_initial oracle
  | aside _ credit playouts ih => exact ih.aside credit playouts
  | walked constants _ replayed ih => exact ih.walked wf constants replayed
  | departed source _ replayed arrived ih => exact ih.departed wf replayed arrived source
  | rolled _ found _ comesTo once ih => exact ih.rolled found comesTo once
  | landed _ found whole _ number tree playouts ih =>
      exact ih.landed found whole number tree playouts
  | dropped place _ ih => exact ih.dropped place

end Banked

/-! ## Searches -/

section Steps

variable {p : Problem σ ρ α} {tuning : Tuning α} {s : Progress σ α} {aloft : List (Aloft σ ρ α)}
  {landings : List (Landing α)} {start index : Nat} {source : ρ}

theorem Playing.rollMany {count : Int} (whole : tuning.rollouts.int? = some count) (n : Nat) :
    ∀ {s : Progress σ α} {a : Aloft σ ρ α} {last : Sampling σ ρ α},
      Playing p tuning s (a :: aloft) landings → a.sampling.evaluator = s.evaluator →
      a.sampling.rollMany p (decide (1 < count)) n = (.ok (), last) →
      ∃ rolls, rolls.length = n ∧ Playing p tuning { s with evaluator := last.evaluator }
        (⟨a.path, last, a.rolls ++ rolls⟩ :: aloft) landings := by
  induction n with
  | zero =>
      intro s a last playing same rolled
      obtain ⟨-, rfl⟩ := Prod.mk.inj rolled
      rw [same]
      exact ⟨[], rfl, by simpa using playing⟩
  | succ n ih =>
      intro s a last playing same rolled
      obtain ⟨after, once, later⟩ := rollMany_cases rolled
      obtain ⟨roll, -, comesTo, -⟩ := rollOnce_worth once
      have found : (a :: aloft)[0]? = some a := rfl
      have current : { a.sampling with evaluator := s.evaluator } = a.sampling := by rw [← same]
      rw [← current] at once comesTo
      obtain ⟨rest, length, onward⟩ := ih (playing.rolled found whole comesTo once) rfl later
      refine ⟨roll :: rest, by rw [List.length_cons, length], ?_⟩
      rw [List.append_assoc] at onward
      exact onward

theorem Playing.evaluate {path : List Nat} {tracker : Tracker} {leaf : Leaf α}
    {last : Sampling σ ρ α}
    (playing : Playing p tuning s
      (⟨path, Sampling.start tracker s.evaluator source, []⟩ :: aloft) landings)
    (evaluated : evaluateLeaf p tuning.rollouts tracker s.evaluator source = (.ok leaf, last)) :
    ∃ count rolls, tuning.rollouts.int? = some count ∧ count ≠ 0 ∧ rolls.length = count.toNat ∧
      last.leaf count = leaf ∧
      Playing p tuning (s.afterSampling last) (⟨path, last, rolls⟩ :: aloft) landings := by
  obtain ⟨count, whole, made, rolled⟩ := evaluateLeaf_cases evaluated
  have nonzero : count ≠ 0 := by
    rintro rfl
    simp [evaluateLeaf, whole, Sampling.rollMany] at evaluated
  obtain ⟨rolls, length, onward⟩ := playing.rollMany whole count.toNat rfl rolled
  exact ⟨count, rolls, whole, nonzero, length, made, onward.aside (.refl _) rfl⟩

/-- A playout that is alone either lands or leaves no more than its walk behind. -/
theorem Playing.playout (wf : p.graph.toArena.WellFormed) (playing : Playing p tuning s [] landings)
    (start : Nat) (source : ρ) :
    (∃ fault next, playout p tuning start source s = (.error fault, next) ∧
      Playing p tuning next [] landings) ∨
    ∃ leaf next landing, playout p tuning start source s = (.ok leaf, next) ∧
      Playing p tuning (next.record tuning leaf) [] (landings ++ [landing]) := by
  unfold EGraphSearch.playout
  split
  · exact .inl ⟨_, _, rfl, playing⟩
  · rename_i tracker replayed
    dsimp only
    split
    · exact .inl ⟨_, _, rfl, playing.walked _ replayed⟩
    · rename_i path arrived
      have departed := playing.departed source replayed arrived
      split
      · rename_i sampling _
        have walked := playing.walked (tuning.constants Scalar.zero) replayed
        exact .inl ⟨_, _, rfl, walked.aside (.refl _) rfl⟩
      · rename_i leaf sampling evaluated
        obtain ⟨count, rolls, whole, nonzero, number, rfl, aloft⟩ := departed.evaluate evaluated
        obtain ⟨after, credited, _⟩ := (aloft.banked wf).creditPath (List.mem_singleton_self _)
          (sampling.leaf count).value
        have credited : ((selectAndExpand p.graph (tuning.constants Scalar.zero) s.tree tracker
          start).tree.creditPath (sampling.leaf count).value path) = (.ok (), after) := credited
        rw [credited]
        refine .inr ⟨_, _, ⟨path, rolls, (sampling.leaf count).value⟩, rfl, ?_⟩
        have found : [(⟨path, sampling, rolls⟩ : Aloft σ ρ α)][0]? = some ⟨path, sampling, rolls⟩ :=
          rfl
        refine aloft.landed found whole nonzero number ?_ ?_
        · rw [tree_record]
          exact (congrArg Prod.snd credited).symm
        · rw [playouts_record]
          rfl

theorem Playing.launch {shared : Shared σ α} (constants : Option (ScoreConstants α))
    (playing : Playing p tuning shared.progress aloft landings) (start index : Nat) (source : ρ) :
    (∃ fault after, shared.launch p.graph tuning constants start index = (.error fault, after) ∧
      Playing p tuning after.progress aloft landings) ∨
    ∃ flight after, shared.launch p.graph tuning constants start index = (.ok flight, after) ∧
      flight.index = index ∧
      Playing p tuning after.progress
        (⟨flight.path, Sampling.start flight.tracker after.progress.evaluator source, []⟩ :: aloft)
        landings := by
  unfold Shared.launch
  split
  · exact .inl ⟨_, _, rfl, playing⟩
  · rename_i tracker replayed
    have walked := playing.walked constants replayed
    dsimp only
    split
    · exact .inl ⟨_, _, rfl, walked⟩
    · rename_i path arrived
      have departed := playing.departed source replayed arrived
      split
      · exact .inl ⟨_, _, rfl, walked⟩
      · rename_i amount _
        have light := sameCredit_updatePath (f := SearchNode.addLoss amount) (fun _ => ⟨_, rfl⟩)
          path (selectAndExpand p.graph constants shared.progress.tree tracker start).tree
        split
        · rename_i fault tree added
          rw [← Tree.addLoss, added] at light
          exact .inl ⟨_, _, rfl, walked.aside light rfl⟩
        · rename_i tree added
          rw [← Tree.addLoss, added] at light
          exact .inr ⟨_, _, rfl, rfl, departed.aside light rfl⟩

theorem Playing.reverted (shared : Shared σ α) (flight : Flight)
    (playing : Playing p tuning shared.progress aloft landings) :
    Playing p tuning (shared.abandon tuning flight).progress aloft landings :=
  playing.aside (sameCredit_abandon tuning flight shared)
    (abandon_visits tuning flight shared).2.2

theorem Playing.finish (shared : Shared σ α) (flight : Flight) {a : Aloft σ ρ α} {place : Nat}
    {count : Int} (playing : Playing p tuning shared.progress aloft landings)
    (found : aloft[place]? = some a) (path : flight.path = a.path)
    (whole : tuning.rollouts.int? = some count) (nonzero : count ≠ 0)
    (number : a.rolls.length = count.toNat) :
    Playing p tuning (shared.finish tuning flight (a.sampling.leaf count)).progress
      (aloft.eraseIdx place) (landings ++ [a.landing count]) := by
  refine (playing.reverted shared flight).landed found whole nonzero number ?_ ?_
  · simp only [Shared.finish, tree_record, Shared.withTree, path]
  · simp only [Shared.finish, playouts_record, Shared.withTree]

end Steps

theorem Playing.fly {plan : Plan σ ρ α} {landings : List (Landing α)} {shared : Shared σ α}
    (playing : Playing plan.toProblem plan.tuning shared.progress [] landings)
    (constants : Option (ScoreConstants α)) (start index : Nat) :
    ∃ landings, Playing plan.toProblem plan.tuning
      (Shared.fly plan constants start index shared).2.progress [] landings := by
  unfold Shared.fly
  rcases playing.launch constants start index (plan.stream index) with
    ⟨fault, after, launched, onward⟩ | ⟨flight, after, launched, rfl, departed⟩
  · rw [launched]
    exact ⟨landings, onward⟩
  · rw [launched]
    dsimp only [land]
    split
    · rename_i fault sampling _
      have rolled : Playing plan.toProblem plan.tuning (after.progress.afterSampling sampling) _
        landings := departed.aside (.refl _) rfl
      have reverted := rolled.reverted
        { after with progress := after.progress.afterSampling sampling } flight
      exact ⟨landings, reverted.dropped 0⟩
    · rename_i leaf sampling evaluated
      obtain ⟨count, rolls, whole, nonzero, number, rfl, aloft⟩ := departed.evaluate evaluated
      have found : [(⟨flight.path, sampling, rolls⟩ : Aloft σ ρ α)][0]? =
        some ⟨flight.path, sampling, rolls⟩ := rfl
      have landed := aloft.finish
        { after with progress := after.progress.afterSampling sampling } flight found rfl whole
        nonzero number
      exact ⟨_, landed⟩

/-- Every extraction, also one that ends with a fault, is made of these steps. -/
theorem playing_extract {plan : Plan σ ρ α} (wf : plan.graph.toArena.WellFormed) (oracle : σ) :
    ∃ landings, Playing plan.toProblem plan.tuning (extract plan oracle).2 [] landings := by
  refine keeps_extract (Q := fun s => ∃ landings, Playing plan.toProblem plan.tuning s [] landings)
    ⟨?_, ?_, ?_, ?_⟩ (fun oracle => ⟨[], .fresh oracle⟩) oracle
  · rintro s t ⟨landings, playing⟩ tree playouts
    exact ⟨landings, playing.aside (tree ▸ .refl _) playouts⟩
  · rintro s next start source leaf ⟨landings, playing⟩ played
    rcases playing.playout wf start source with
      ⟨_, _, failed, -⟩ | ⟨leaf', next', landing, same, onward⟩
    · cases played.symm.trans failed
    · obtain ⟨outcome, rfl⟩ := Prod.mk.inj (played.symm.trans same)
      obtain rfl := Except.ok.inj outcome
      exact ⟨_, onward⟩
  · rintro s next start source fault ⟨landings, playing⟩ stalled
    rcases playing.playout wf start source with ⟨_, next', same, onward⟩ | ⟨_, _, _, ended, -⟩
    · obtain ⟨-, rfl⟩ := Prod.mk.inj (stalled.symm.trans same)
      exact ⟨landings, onward⟩
    · cases stalled.symm.trans ended
  · rintro constants start index shared ⟨landings, playing⟩
    exact playing.fly constants start index

end EGraphSearch
