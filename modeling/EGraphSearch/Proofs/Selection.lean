import EGraphSearch.Proofs.Number.Exact
import EGraphSearch.Proofs.Tree.Choosing
import Mathlib.Data.Prod.Lex
import Mathlib.Order.WithBot

/-!
# Which child is selected

Where the scores that are compared are linearly ordered, selection picks the first listed move that
has no child, and after that the listed child with the greatest score, the one discovered first
among equals.  The most visited child is the greatest in the order of visits and then of means.
-/

set_option autoImplicit false

namespace EGraphSearch

/-! ## The greatest entry discovered first -/

section Ranks

variable {β γ : Type} [LinearOrder γ]

/-- The winner is the first of the offered entries with the greatest rank. -/
def FirstGreatest (rank : Nat × Nat → γ) (offered : List (Nat × Nat)) (winner : Nat × Nat) : Prop :=
  ∃ earlier later, offered = earlier ++ winner :: later ∧
    (∀ entry ∈ earlier, rank entry < rank winner) ∧ ∀ entry ∈ later, rank entry ≤ rank winner

namespace FirstGreatest

variable {rank : Nat × Nat → γ} {offered : List (Nat × Nat)} {first second winner : Nat × Nat}

theorem le (greatest : FirstGreatest rank offered winner) :
    ∀ entry ∈ offered, rank entry ≤ rank winner := by
  obtain ⟨earlier, later, rfl, less, le⟩ := greatest
  intro entry member
  rcases List.mem_append.mp member with member | member
  · exact (less entry member).le
  · rcases List.mem_cons.mp member with rfl | member
    · exact le_rfl
    · exact le entry member

theorem cons_lower (greatest : FirstGreatest rank (second :: offered) winner)
    (lower : rank first < rank second) :
    FirstGreatest rank (first :: second :: offered) winner := by
  have firstLess := lower.trans_le (greatest.le second List.mem_cons_self)
  obtain ⟨earlier, later, split, less, le⟩ := greatest
  exact ⟨first :: earlier, later, by rw [split, List.cons_append],
    List.forall_mem_cons.mpr ⟨firstLess, less⟩, le⟩

theorem insert_second (greatest : FirstGreatest rank (first :: offered) winner)
    (le : rank second ≤ rank first) : FirstGreatest rank (first :: second :: offered) winner := by
  obtain ⟨earlier, later, split, less, leLater⟩ := greatest
  cases earlier with
  | nil =>
      obtain ⟨rfl, rfl⟩ := List.cons_eq_cons.mp split
      exact ⟨[], second :: offered, rfl, by simp, List.forall_mem_cons.mpr ⟨le, leLater⟩⟩
  | cons head earlier =>
      obtain ⟨rfl, rfl⟩ := List.cons_eq_cons.mp split
      obtain ⟨firstLess, lessEarlier⟩ := List.forall_mem_cons.mp less
      exact ⟨first :: second :: earlier, later, rfl, List.forall_mem_cons.mpr
        ⟨firstLess, List.forall_mem_cons.mpr ⟨le.trans_lt firstLess, lessEarlier⟩⟩, leLater⟩

theorem eq_of_split {other : Nat × Nat} {earlier between later : List (Nat × Nat)}
    (greatest : FirstGreatest rank (earlier ++ winner :: later) winner)
    (split : winner :: later = between ++ other :: offered)
    (less : ∀ entry ∈ earlier ++ between, rank entry < rank other) : winner = other := by
  cases between with
  | nil => exact (List.cons_eq_cons.mp split).1
  | cons head between =>
      obtain ⟨rfl, rfl⟩ := List.cons_eq_cons.mp split
      have le := greatest.le other (by simp)
      exact absurd (less winner (by simp)) (not_lt.mpr le)

theorem unique {other : Nat × Nat} (greatest : FirstGreatest rank offered winner)
    (greatestOther : FirstGreatest rank offered other) : winner = other := by
  obtain ⟨earlier, later, rfl, less, _⟩ := id greatest
  obtain ⟨earlierOther, laterOther, same, lessOther, _⟩ := id greatestOther
  rcases List.append_eq_append_iff.mp same with ⟨between, rfl, split⟩ | ⟨between, rfl, split⟩
  · exact greatest.eq_of_split split lessOther
  · exact (eq_of_split (same ▸ greatestOther) split less).symm

end FirstGreatest

def Ranks (exceeds : β → β → Bool) (key : Nat → β) (rank : Nat × Nat → γ)
    (entries : List (Nat × Nat)) : Prop :=
  ∀ x ∈ entries, ∀ y ∈ entries, exceeds (key x.2) (key y.2) = true ↔ rank y < rank x

variable {exceeds : β → β → Bool} {key : Nat → β} {rank : Nat × Nat → γ}
  {entries : List (Nat × Nat)}

theorem Ranks.mono {fewer : List (Nat × Nat)} (ranks : Ranks exceeds key rank entries)
    (subset : fewer ⊆ entries) : Ranks exceeds key rank fewer :=
  fun x hx y hy => ranks x (subset hx) y (subset hy)

/-- An entry replaces the best one so far only if it is strictly greater, so the first one stays. -/
theorem firstBest_some_firstGreatest {winner : Nat × Nat} :
    ∀ {best : Nat × Nat}, Ranks exceeds key rank (best :: entries) →
      firstBest exceeds key entries (some best) = some winner →
      FirstGreatest rank (best :: entries) winner := by
  induction entries with
  | nil =>
      rintro best - picked
      obtain rfl := Option.some.inj picked
      exact ⟨[], [], rfl, by simp, by simp⟩
  | cons entry rest ih =>
      intro best ranks picked
      have beats := ranks entry (by simp) best (by simp)
      rw [firstBest] at picked
      by_cases greater : rank best < rank entry
      · rw [if_pos (beats.mpr greater)] at picked
        have later := ih (ranks.mono (List.subset_cons_self best _)) picked
        exact later.cons_lower greater
      · rw [if_neg fun exceeds => greater (beats.mp exceeds)] at picked
        have later := ih (ranks.mono
          (List.cons_subset_cons best (List.subset_cons_self entry rest))) picked
        exact later.insert_second (not_lt.mp greater)

theorem firstBest_firstGreatest (ranks : Ranks exceeds key rank entries) {winner : Nat × Nat}
    (picked : firstBest exceeds key entries none = some winner) :
    FirstGreatest rank entries winner := by
  cases entries with
  | nil => cases picked
  | cons entry rest => exact firstBest_some_firstGreatest ranks picked

/-! ## Moves -/

def offeredChildren (children : List (Nat × Nat)) (moves : List Nat) : List (Nat × Nat) :=
  children.filter fun entry => moves.contains entry.1

/-- What to select among the listed moves: the first one without a child, or else the child of
greatest rank behind one of them. -/
inductive Selects (rank : Nat × Nat → γ) (children : List (Nat × Nat)) (moves : List Nat) :
    Choice → Prop
  | untried {earlier : List Nat} {move : Nat} {later : List Nat}
      (split : moves = earlier ++ move :: later)
      (tried : ∀ m ∈ earlier, m ∈ children.map Prod.fst)
      (fresh : move ∉ children.map Prod.fst) : Selects rank children moves (.untried move)
  | known {move child : Nat} (tried : ∀ m ∈ moves, m ∈ children.map Prod.fst)
      (greatest : FirstGreatest rank (offeredChildren children moves) (move, child)) :
      Selects rank children moves (.known move child)

theorem any_fst_iff {children : List (Nat × Nat)} {move : Nat} :
    (children.any fun entry => entry.1 == move) = true ↔ move ∈ children.map Prod.fst := by
  simp

theorem chooseMove_selects {children : List (Nat × Nat)} {moves : List Nat}
    (ranks : Ranks exceeds key rank (offeredChildren children moves)) (some_move : moves ≠ []) :
    ∃ choice, chooseMove exceeds key children moves = some choice ∧
      Selects rank children moves choice := by
  unfold chooseMove
  cases found : moves.find? fun move => !children.any fun entry => entry.1 == move with
  | some move =>
      obtain ⟨fresh, earlier, later, split, tried⟩ := List.find?_eq_some_iff_append.mp found
      refine ⟨.untried move, rfl, .untried split (fun m hm => ?_) fun member => ?_⟩
      · exact any_fst_iff.mp (by simpa using tried m hm)
      · rw [any_fst_iff.mpr member] at fresh
        cases fresh
  | none =>
      have tried : ∀ m ∈ moves, m ∈ children.map Prod.fst := by
        intro m hm
        exact any_fst_iff.mp (by simpa using List.find?_eq_none.mp found m hm)
      dsimp only
      rw [← offeredChildren]
      cases picked : firstBest exceeds key (offeredChildren children moves) none with
      | some winner =>
          exact ⟨.known winner.1 winner.2, rfl, .known tried (firstBest_firstGreatest ranks picked)⟩
      | none =>
          obtain ⟨move, listed⟩ := List.exists_mem_of_ne_nil moves some_move
          obtain ⟨entry, member, rfl⟩ := List.mem_map.mp (tried move listed)
          rw [firstBest_eq_none, offeredChildren, List.filter_eq_nil_iff] at picked
          exact absurd (by simpa using listed) (picked entry member)

end Ranks

/-! ## Trees -/

namespace Tree

variable {α γ : Type} [Scalar α] [LinearOrder γ] {t : Tree α} {i : Nat}

theorem selectMove_selects (inside : i < t.size) {moves : List Nat} (some_move : moves ≠ [])
    {constants : ScoreConstants α} {rank : Nat × Nat → γ}
    (ranks : Ranks Score.exceeds
      (fun child => (t.node child).score constants (t.node i).presence) rank
      (offeredChildren (t.node i).children moves)) :
    ∃ choice, t.selectMove (some constants) i moves = .ok choice ∧
      Selects rank (t.node i).children moves choice := by
  obtain ⟨choice, chosen, selects⟩ := chooseMove_selects ranks some_move
  have notEmpty : moves.isEmpty = false := by simpa using some_move
  have scored : t.canScore (some constants) (t.node i) moves = true := by
    simp [canScore, SearchNode.score?]
  refine ⟨choice, ?_, selects⟩
  cases choice <;>
    simp only [selectMove, notEmpty, Bool.false_eq_true, if_false, node_eq inside,
      SearchNode.score?, Option.getD_some, chosen, scored, if_true]

/-- Children with the same statistics have the same score, so the one discovered first is
selected. -/
theorem selectMove_of_alike (irrefl : ∀ x : α, Scalar.below x x = false) (inside : i < t.size)
    {moves : List Nat} (some_move : moves ≠ [])
    (tried : ∀ m ∈ moves, m ∈ (t.node i).children.map Prod.fst) {first : Nat × Nat}
    {rest : List (Nat × Nat)} (offered : offeredChildren (t.node i).children moves = first :: rest)
    (alike : ∀ entry ∈ rest, (t.node entry.2).visits = (t.node first.2).visits ∧
      (t.node entry.2).total = (t.node first.2).total ∧
      (t.node entry.2).virtualLoss = (t.node first.2).virtualLoss)
    (constants : ScoreConstants α) :
    t.selectMove (some constants) i moves = .ok (.known first.1 first.2) := by
  have same : ∀ entry ∈ first :: rest, (t.node entry.2).score constants (t.node i).presence =
      (t.node first.2).score constants (t.node i).presence := by
    refine List.forall_mem_cons.mpr ⟨rfl, fun entry member => ?_⟩
    obtain ⟨visits, total, virtualLoss⟩ := alike entry member
    simp only [SearchNode.score, SearchNode.isUnvisited, SearchNode.presence, visits, total,
      virtualLoss]
    rfl
  have equal : ∀ score : Score α, score.exceeds score = false := by
    rintro (_ | x)
    · rfl
    · exact irrefl x
  have ranks : Ranks Score.exceeds
      (fun child => (t.node child).score constants (t.node i).presence) (fun _ => 0)
      (offeredChildren (t.node i).children moves) := by
    rw [offered]
    intro x hx y hy
    simp only [same x hx, same y hy, equal, Bool.false_eq_true, lt_irrefl]
  obtain ⟨choice, selected, selects⟩ := selectMove_selects inside some_move ranks
  rw [selected]
  cases selects with
  | untried split _ fresh => exact absurd (tried _ (by simp [split])) fresh
  | known _ greatest =>
      obtain ⟨earlier, later, split, less, _⟩ := greatest
      cases earlier with
      | nil =>
          rw [offered] at split
          cases (List.cons_eq_cons.mp split).1
          rfl
      | cons entry earlier => exact absurd (less entry List.mem_cons_self) (lt_irrefl 0)

theorem busier_ranks {worth : Nat × Nat → γ} {entries : List (Nat × Nat)}
    (means : ∀ x ∈ entries, ∀ y ∈ entries,
      Scalar.below (t.node x.2).mean (t.node y.2).mean = true ↔ worth x < worth y) :
    Ranks busier t.node (fun entry => toLex ((t.node entry.2).visits, worth entry)) entries := by
  intro x hx y hy
  rw [Prod.Lex.toLex_lt_toLex, ← means y hy x hx]
  simp only [busier, Bool.or_eq_true, decide_eq_true_eq, Bool.and_eq_true, beq_iff_eq]
  rw [eq_comm]

theorem mostVisited_firstGreatest (inside : i < t.size) (skip : Bool) {worth : Nat × Nat → γ}
    (means : ∀ x ∈ t.admissible i skip, ∀ y ∈ t.admissible i skip,
      Scalar.below (t.node x.2).mean (t.node y.2).mean = true ↔ worth x < worth y) :
    ∃ picked, t.mostVisited i skip = .ok picked ∧
      (picked = none ↔ t.admissible i skip = []) ∧
      ∀ winner, picked = some winner →
        FirstGreatest (fun entry => toLex ((t.node entry.2).visits, worth entry))
          (t.admissible i skip) winner :=
  ⟨_, mostVisited_eq inside skip, firstBest_eq_none, fun _ picked =>
    firstBest_firstGreatest (busier_ranks means) picked⟩

end Tree

/-! ## Exact scores -/

/-- Where a score stands; children that no playout has reached are above all others. -/
def Score.place : Score ℝ → WithTop ℝ
  | unvisited => ⊤
  | value x => x

theorem Score.exceeds_iff (s u : Score ℝ) : s.exceeds u = true ↔ u.place < s.place := by
  cases s <;> cases u <;> simp [Score.exceeds, Score.place, Scalar.below, Scalar.belowInfinity]

theorem ranks_place (t : Tree ℝ) (constants : ScoreConstants ℝ) (presence : ℝ)
    (entries : List (Nat × Nat)) :
    Ranks Score.exceeds (fun child => (t.node child).score constants presence)
      (fun entry => ((t.node entry.2).score constants presence).place) entries :=
  fun _ _ _ _ => Score.exceeds_iff _ _

/-! ## What is selected -/

/-- Where scores are compared as in a linear order, selection among some moves always succeeds: it
takes the first move without a child, or else the first discovered of the listed children with the
greatest score.  The most visited child is the first discovered of the admissible ones with the
greatest pair of visits and mean, and there is none only if no child is admissible. -/
theorem selection_takes_first_greatest {α : Type} [Scalar α] :
    (∀ {γ : Type} [LinearOrder γ] (score : Nat → γ) (children : List (Nat × Nat))
      (moves : List Nat), moves ≠ [] →
      ∃ choice, chooseMove (fun x y => decide (y < x)) score children moves = some choice ∧
        Selects (fun entry => score entry.2) children moves choice) ∧
    ∀ (t : Tree α) (i : Nat), i < t.size →
      (∀ {γ : Type} [LinearOrder γ] (constants : ScoreConstants α) (rank : Nat × Nat → γ)
        (moves : List Nat), moves ≠ [] →
        Ranks Score.exceeds (fun child => (t.node child).score constants (t.node i).presence) rank
          (offeredChildren (t.node i).children moves) →
        ∃ choice, t.selectMove (some constants) i moves = .ok choice ∧
          Selects rank (t.node i).children moves choice) ∧
      ∀ {γ : Type} [LinearOrder γ] (skip : Bool) (worth : Nat × Nat → γ),
        (∀ x ∈ t.admissible i skip, ∀ y ∈ t.admissible i skip,
          Scalar.below (t.node x.2).mean (t.node y.2).mean = true ↔ worth x < worth y) →
        ∃ picked, t.mostVisited i skip = .ok picked ∧
          (picked = none ↔ t.admissible i skip = []) ∧
          ∀ winner, picked = some winner →
            FirstGreatest (fun entry => toLex ((t.node entry.2).visits, worth entry))
              (t.admissible i skip) winner := by
  refine ⟨fun score children moves some_move => ?_, fun t i inside => ⟨?_, ?_⟩⟩
  · exact chooseMove_selects (fun _ _ _ _ => decide_eq_true_iff) some_move
  · exact fun constants rank moves some_move ranks =>
      Tree.selectMove_selects inside some_move ranks
  · exact fun skip worth means => Tree.mostVisited_firstGreatest inside skip means

/-! ## A tie -/

noncomputable def visitedChild (move visits total : Nat) : SearchNode ℝ :=
  { SearchNode.fresh (some 0) (some move) .none .none 1 with visits := visits, total := total }

/-- Two children that are alike, and one that has the best of both visits and values. -/
noncomputable def tiedTree : Tree ℝ :=
  ⟨#[{ SearchNode.root with children := [(5, 1), (1, 2), (7, 3)], visits := 17 },
    visitedChild 5 4 2, visitedChild 1 4 2, visitedChild 7 9 9]⟩

theorem belowMean_iff (x y : ℝ) : Scalar.below x y = true ↔ x < y := by simp [Scalar.below]

/-- Without the best child among the moves the first of the two equal ones is selected, though its
move is listed last; over all children the best one is the most visited. -/
theorem selection_takes_first_greatest_tied :
    0 < tiedTree.size ∧
    tiedTree.selectMove (some ⟨1, 0⟩) 0 [1, 5] = .ok (.known 5 1) ∧
    tiedTree.mostVisited 0 false = .ok (some (7, 3)) := by
  have inside : 0 < tiedTree.size := Nat.succ_pos 3
  obtain ⟨-, trees⟩ := selection_takes_first_greatest (α := ℝ)
  obtain ⟨moves, visits⟩ := trees tiedTree 0 inside
  refine ⟨inside, ?_, ?_⟩
  · obtain ⟨choice, selected, selects⟩ := moves ⟨1, 0⟩ _ [1, 5] (List.cons_ne_nil 1 [5])
      (ranks_place tiedTree ⟨1, 0⟩ _ _)
    rw [selected]
    cases selects with
    | @untried earlier move later split _ fresh =>
        have listed : move ∈ [1, 5] := by
          rw [split]
          simp
        have children : (tiedTree.node 0).children.map Prod.fst = [5, 1, 7] := rfl
        rw [children] at fresh
        simp only [List.mem_cons, List.not_mem_nil, or_false] at listed fresh
        omega
    | known _ greatest =>
        cases greatest.unique ⟨[], [(1, 2)], rfl, by simp, List.forall_mem_singleton.mpr le_rfl⟩
        rfl
  · obtain ⟨picked, found, empty, greatest⟩ := visits false
      (fun entry => (tiedTree.node entry.2).mean) fun _ _ _ _ => belowMean_iff _ _
    have best : FirstGreatest (fun entry => toLex ((tiedTree.node entry.2).visits,
        (tiedTree.node entry.2).mean)) (tiedTree.admissible 0 false) (7, 3) := by
      refine ⟨[(5, 1), (1, 2)], [], rfl, ?_, by simp⟩
      simp only [List.forall_mem_cons, Prod.Lex.toLex_lt_toLex]
      exact ⟨.inl (by decide), .inl (by decide), by simp⟩
    cases picked with
    | none => exact absurd (empty.mp rfl) (List.cons_ne_nil _ _)
    | some winner => rw [found, (greatest winner rfl).unique best]

end EGraphSearch
