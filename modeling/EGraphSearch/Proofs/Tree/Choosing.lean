import EGraphSearch.Tree.Selection

/-!
# What selection picks

`firstBest` picks one of the offered entries, and none only if none is offered.  A measure that the
comparison respects is largest at the picked entry, and an entry that beats all others is picked.
-/

set_option autoImplicit false

namespace EGraphSearch

/-! ## The first best entry -/

section FirstBest

variable {β : Type} {exceeds : β → β → Bool} {key : Nat → β} {entries : List (Nat × Nat)}
  {best winner : Nat × Nat}

theorem firstBest_isSome (entries : List (Nat × Nat)) (best : Nat × Nat) :
    (firstBest exceeds key entries (some best)).isSome := by
  induction entries generalizing best with
  | nil => rfl
  | cons entry rest ih => exact ih _

theorem firstBest_some_mem (picked : firstBest exceeds key entries (some best) = some winner) :
    winner = best ∨ winner ∈ entries := by
  induction entries generalizing best with
  | nil => exact .inl (Option.some.inj picked).symm
  | cons entry rest ih =>
      rcases ih picked with same | later
      · split at same
        · exact .inr (by simp [same])
        · exact .inl same
      · exact .inr (List.mem_cons_of_mem _ later)

theorem firstBest_mem (picked : firstBest exceeds key entries none = some winner) :
    winner ∈ entries := by
  cases entries with
  | nil => simp [firstBest] at picked
  | cons entry rest =>
      rcases firstBest_some_mem picked with same | later
      · simp [same]
      · exact List.mem_cons_of_mem _ later

theorem firstBest_eq_none : firstBest exceeds key entries none = none ↔ entries = [] := by
  cases entries with
  | nil => simp [firstBest]
  | cons entry rest =>
      simp only [firstBest, reduceCtorEq, iff_false]
      rw [← Option.isNone_iff_eq_none, Bool.not_eq_true, Option.isNone_eq_false_iff]
      exact firstBest_isSome rest entry

theorem firstBest_some_max {measure : Nat × Nat → Nat}
    (raises : ∀ a b, exceeds (key a.2) (key b.2) = true → measure b ≤ measure a)
    (keeps : ∀ a b, exceeds (key a.2) (key b.2) = false → measure a ≤ measure b)
    (picked : firstBest exceeds key entries (some best) = some winner) :
    measure best ≤ measure winner ∧ ∀ entry ∈ entries, measure entry ≤ measure winner := by
  induction entries generalizing best with
  | nil => simp [Option.some.inj picked]
  | cons entry rest ih =>
      obtain ⟨first, later⟩ := ih picked
      cases beats : exceeds (key entry.2) (key best.2) with
      | true =>
          rw [if_pos beats] at first
          exact ⟨Nat.le_trans (raises _ _ beats) first, List.forall_mem_cons.mpr ⟨first, later⟩⟩
      | false =>
          rw [if_neg (by simp [beats])] at first
          exact ⟨first, List.forall_mem_cons.mpr ⟨Nat.le_trans (keeps _ _ beats) first, later⟩⟩

theorem firstBest_max (measure : Nat × Nat → Nat)
    (raises : ∀ a b, exceeds (key a.2) (key b.2) = true → measure b ≤ measure a)
    (keeps : ∀ a b, exceeds (key a.2) (key b.2) = false → measure a ≤ measure b)
    (picked : firstBest exceeds key entries none = some winner) :
    ∀ entry ∈ entries, measure entry ≤ measure winner := by
  cases entries with
  | nil => simp
  | cons entry rest =>
      obtain ⟨first, later⟩ := firstBest_some_max raises keeps picked
      exact List.forall_mem_cons.mpr ⟨first, later⟩

theorem firstBest_some_eq (strict : ∀ entry ∈ entries, entry ≠ winner →
      exceeds (key winner.2) (key entry.2) = true ∧ exceeds (key entry.2) (key winner.2) = false)
    (start : best = winner ∨
      winner ∈ entries ∧ exceeds (key winner.2) (key best.2) = true) :
    firstBest exceeds key entries (some best) = some winner := by
  induction entries generalizing best with
  | nil =>
      rcases start with rfl | ⟨member, _⟩
      · rfl
      · simp at member
  | cons entry rest ih =>
      simp only [firstBest]
      apply ih fun e he => strict e (List.mem_cons_of_mem _ he)
      by_cases here : entry = winner
      · left
        rcases start with rfl | ⟨_, beats⟩
        · simp [here]
        · rw [here, if_pos beats]
      · obtain ⟨wins, loses⟩ := strict entry (by simp) here
        rcases start with rfl | ⟨member, beats⟩
        · exact .inl (by simp [loses])
        · rcases List.mem_cons.mp member with same | later
          · exact absurd same.symm here
          · exact .inr ⟨later, by split <;> assumption⟩

theorem firstBest_eq (member : winner ∈ entries) (strict : ∀ entry ∈ entries, entry ≠ winner →
      exceeds (key winner.2) (key entry.2) = true ∧ exceeds (key entry.2) (key winner.2) = false) :
    firstBest exceeds key entries none = some winner := by
  cases entries with
  | nil => simp at member
  | cons entry rest =>
      simp only [firstBest]
      apply firstBest_some_eq fun e he => strict e (List.mem_cons_of_mem _ he)
      by_cases here : entry = winner
      · exact .inl here
      · rcases List.mem_cons.mp member with same | later
        · exact absurd same.symm here
        · exact .inr ⟨later, (strict entry (by simp) here).1⟩

/-! Where the measure differs it decides, so only the entries of the highest measure matter. -/

section Highest

variable {measure : Nat × Nat → Nat} {most : Nat}

theorem firstBest_highest_some (decides : ∀ a b, measure b < measure a →
      exceeds (key a.2) (key b.2) = true ∧ exceeds (key b.2) (key a.2) = false)
    (bound : ∀ entry ∈ entries, measure entry ≤ most) (highest : measure best = most) :
    firstBest exceeds key entries (some best) =
      firstBest exceeds key (entries.filter fun entry => measure entry == most) (some best) := by
  induction entries generalizing best with
  | nil => rfl
  | cons entry rest ih =>
      have boundRest := fun e he => bound e (List.mem_cons_of_mem entry he)
      by_cases top : measure entry = most
      · rw [List.filter_cons_of_pos (by simpa using top)]
        simp only [firstBest]
        exact ih boundRest (by split <;> assumption)
      · have lower : measure entry < measure best :=
          highest ▸ Nat.lt_of_le_of_ne (bound entry (by simp)) top
        rw [List.filter_cons_of_neg (by simpa using top)]
        simp only [firstBest, (decides best entry lower).2, Bool.false_eq_true, if_false]
        exact ih boundRest highest

/-- From a best entry that is lower, or from none. -/
theorem firstBest_highest (decides : ∀ a b, measure b < measure a →
      exceeds (key a.2) (key b.2) = true ∧ exceeds (key b.2) (key a.2) = false)
    (bound : ∀ entry ∈ entries, measure entry ≤ most)
    (reached : ∃ entry ∈ entries, measure entry = most) :
    ∀ {best : Option (Nat × Nat)}, (∀ lower ∈ best, measure lower < most) →
      firstBest exceeds key entries best =
        firstBest exceeds key (entries.filter fun entry => measure entry == most) none := by
  induction entries with
  | nil => simp at reached
  | cons entry rest ih =>
      intro best below
      have boundRest := fun e he => bound e (List.mem_cons_of_mem entry he)
      by_cases top : measure entry = most
      · rw [List.filter_cons_of_pos (by simpa using top)]
        have taken : firstBest exceeds key (entry :: rest) best =
            firstBest exceeds key rest (some entry) := by
          cases best with
          | none => rfl
          | some lower =>
              have higher := (decides entry lower (top ▸ below lower rfl)).1
              simp only [firstBest, higher, if_true]
        rw [taken]
        exact firstBest_highest_some decides boundRest top
      · have lower := Nat.lt_of_le_of_ne (bound entry (by simp)) top
        have later : ∃ e ∈ rest, measure e = most := by
          obtain ⟨e, member, same⟩ := reached
          rcases List.mem_cons.mp member with rfl | later
          · exact absurd same top
          · exact ⟨e, later, same⟩
        rw [List.filter_cons_of_neg (by simpa using top)]
        cases best with
        | none => exact ih boundRest later fun _ same => Option.some.inj same ▸ lower
        | some known =>
            refine ih boundRest later fun _ same => Option.some.inj same ▸ ?_
            split
            · exact lower
            · exact below known rfl

end Highest

end FirstBest

/-! ## Moves and children -/

/-- The first of the moves that has no child yet. -/
def firstUntried (children : List (Nat × Nat)) (moves : List Nat) : Option Nat :=
  moves.find? fun move => !children.any fun entry => entry.1 == move

theorem firstUntried_spec {children : List (Nat × Nat)} {moves : List Nat} {move : Nat}
    (found : firstUntried children moves = some move) :
    move ∈ moves ∧ ∀ entry ∈ children, entry.1 ≠ move :=
  ⟨List.mem_of_find?_eq_some found, by simpa using List.find?_some found⟩

/-- Where the moves tried so far are the first ones, the first untried one comes next. -/
theorem prefix_of_firstUntried {children : List (Nat × Nat)} {moves : List Nat} {move : Nat}
    (tried : children.map Prod.fst <+: moves) (distinct : moves.Nodup)
    (found : firstUntried children moves = some move) :
    children.map Prod.fst ++ [move] <+: moves := by
  obtain ⟨rest, rfl⟩ := tried
  have skipped : (children.map Prod.fst).find?
      (fun move => !children.any fun entry => entry.1 == move) = none := by
    simp only [List.find?_eq_none, List.mem_map]
    rintro m ⟨entry, member, rfl⟩
    simpa using ⟨entry.2, member⟩
  rw [firstUntried, List.find?_append, skipped, Option.none_or] at found
  cases rest with
  | nil => simp at found
  | cons first later =>
      have fresh : ∀ entry ∈ children, entry.1 ≠ first := by
        intro entry member same
        have apart := (List.nodup_append.mp distinct).2.2
        exact apart entry.1 (List.mem_map_of_mem member) first List.mem_cons_self same
      rw [List.find?_cons_of_pos (by simpa using fresh)] at found
      obtain rfl : first = move := Option.some.inj found
      exact ⟨later, by simp⟩

/-- Selection picks the first untried move of the list, or a child behind one of them. -/
theorem chooseMove_spec {β : Type} (exceeds : β → β → Bool) (key : Nat → β)
    (children : List (Nat × Nat)) {moves : List Nat} (some_move : moves ≠ []) :
    (∃ move, firstUntried children moves = some move ∧
      chooseMove exceeds key children moves = some (.untried move)) ∨
    ∃ entry ∈ children, entry.1 ∈ moves ∧
      chooseMove exceeds key children moves = some (.known entry.1 entry.2) := by
  unfold chooseMove
  cases found : moves.find? fun move => !children.any fun entry => entry.1 == move with
  | some move => exact .inl ⟨move, found, rfl⟩
  | none =>
      right
      simp only [List.find?_eq_none, Bool.not_eq_true, Bool.not_eq_false', List.any_eq_true,
        beq_iff_eq] at found
      obtain ⟨move, member⟩ := List.exists_mem_of_ne_nil moves some_move
      obtain ⟨known, listed, same⟩ := found move member
      cases picked : firstBest exceeds key
          (children.filter fun entry => moves.contains entry.1) none with
      | none =>
          rw [firstBest_eq_none, List.filter_eq_nil_iff] at picked
          exact absurd (by simpa [same] using member) (picked known listed)
      | some winner =>
          obtain ⟨child, offered⟩ := List.mem_filter.mp (firstBest_mem picked)
          exact ⟨winner, child, by simpa using offered, rfl⟩

namespace Tree

variable {α : Type} [Scalar α] {t : Tree α} {i : Nat}

theorem node_eq (inside : i < t.size) : t.nodes[i]? = some (t.node i) := by
  have inside : i < t.nodes.size := inside
  simp [node, Array.getD, inside]

theorem node_of_le (outside : t.size ≤ i) : t.node i = SearchNode.root := by
  have outside : ¬ i < t.nodes.size := Nat.not_lt.mpr outside
  simp [node, Array.getD, outside]

@[simp] theorem node_initial (i : Nat) : (initial : Tree α).node i = SearchNode.root := by
  cases i with
  | zero => rfl
  | succ i => exact node_of_le (Nat.succ_le_succ (Nat.zero_le i))

theorem get_eq (inside : i < t.size) : t.get i = .ok (t.node i) := by
  simp [get, node_eq inside]

/-- With constants at hand selection always succeeds; without them it may lack a score. -/
theorem selectMove_spec (constants : Option (ScoreConstants α)) (inside : i < t.size)
    {moves : List Nat} (some_move : moves ≠ []) :
    (∃ move, firstUntried (t.node i).children moves = some move ∧
      t.selectMove constants i moves = .ok (.untried move)) ∨
    (∃ entry ∈ (t.node i).children, entry.1 ∈ moves ∧
      t.selectMove constants i moves = .ok (.known entry.1 entry.2)) ∨
    (constants = none ∧ t.selectMove constants i moves = .error .tooLarge) := by
  have notEmpty : moves.isEmpty = false := by simpa using some_move
  unfold selectMove
  simp only [notEmpty, Bool.false_eq_true, if_false, node_eq inside]
  rcases chooseMove_spec (Score.exceeds (α := α))
      (fun child => ((t.node child).score? constants (t.node i).presence).getD .unvisited)
      (t.node i).children some_move with
    ⟨move, first, picked⟩ | ⟨entry, child, member, picked⟩
  · exact .inl ⟨move, first, by simp only [picked]⟩
  · right
    cases scored : t.canScore constants (t.node i) moves with
    | true => exact .inl ⟨entry, child, member, by simp only [picked, if_true]⟩
    | false =>
        right
        refine ⟨?_, by simp only [picked, Bool.false_eq_true, if_false]⟩
        cases constants with
        | none => rfl
        | some constants => simp [canScore, SearchNode.score?] at scored

theorem of_selectMove {moves : List Nat} {choice : Choice} (some_move : moves ≠ [])
    {constants : Option (ScoreConstants α)}
    (selected : t.selectMove constants i moves = .ok choice) :
    i < t.size ∧ choice.move ∈ moves ∧
      ∀ move, choice = .untried move → ∀ entry ∈ (t.node i).children, entry.1 ≠ move := by
  have inside : i < t.size := by
    refine Nat.lt_of_not_le fun outside => ?_
    have absent : t.nodes[i]? = none := Array.getElem?_eq_none outside
    simp [selectMove, absent, some_move] at selected
  rcases selectMove_spec constants inside some_move with
    ⟨move, untried, picked⟩ | ⟨entry, _, listed, picked⟩ | ⟨_, picked⟩
  · rw [picked] at selected
    cases selected
    obtain ⟨listed, fresh⟩ := firstUntried_spec untried
    refine ⟨inside, listed, ?_⟩
    rintro _ ⟨⟩
    exact fresh
  · rw [picked] at selected
    cases selected
    exact ⟨inside, listed, nofun⟩
  · simp [picked] at selected

/-- The entries among which the most visited child is picked. -/
def admissible (t : Tree α) (i : Nat) (skipDeadEnds : Bool) : List (Nat × Nat) :=
  (t.node i).children.filter fun entry =>
    !(skipDeadEnds && (t.node entry.2).status == .deadEnd)

theorem mostVisited_eq (inside : i < t.size) (skip : Bool) :
    t.mostVisited i skip = .ok (firstBest busier t.node (t.admissible i skip) none) := by
  simp [mostVisited, get_eq inside, admissible, Except.map]

theorem mem_admissible {skip : Bool} {entry : Nat × Nat} :
    entry ∈ t.admissible i skip ↔ entry ∈ (t.node i).children ∧
      (skip = true → (t.node entry.2).status ≠ .deadEnd) := by
  cases skip <;> simp [admissible]

theorem visits_le_of_busier {m n : SearchNode α} (busier_ : busier m n = true) :
    n.visits ≤ m.visits := by
  simp only [busier, Bool.or_eq_true, decide_eq_true_eq, Bool.and_eq_true, beq_iff_eq] at busier_
  omega

theorem visits_le_of_not_busier {m n : SearchNode α} (calmer : busier m n = false) :
    m.visits ≤ n.visits := by
  simp only [busier, Bool.or_eq_false_iff, decide_eq_false_iff_not] at calmer
  omega

theorem busier_of_visits_lt {m n : SearchNode α} (fewer : n.visits < m.visits) :
    busier m n = true ∧ busier n m = false := by
  have notMore : ¬ m.visits < n.visits := by omega
  have notSame : ¬ n.visits = m.visits := by omega
  simp [busier, fewer, notMore, notSame]

theorem mostVisited_spec (inside : i < t.size) {skip : Bool} {entry : Nat × Nat}
    (picked : t.mostVisited i skip = .ok (some entry)) :
    entry ∈ t.admissible i skip ∧
      ∀ other ∈ t.admissible i skip, (t.node other.2).visits ≤ (t.node entry.2).visits := by
  rw [mostVisited_eq inside, Except.ok.injEq] at picked
  exact ⟨firstBest_mem picked, firstBest_max (fun entry => (t.node entry.2).visits)
    (fun _ _ => visits_le_of_busier) (fun _ _ => visits_le_of_not_busier) picked⟩

theorem member_of_mostVisited (inside : i < t.size) {skip : Bool} {entry : Nat × Nat}
    (picked : t.mostVisited i skip = .ok (some entry)) : entry ∈ (t.node i).children :=
  (mem_admissible.mp (mostVisited_spec inside picked).1).1

theorem mostVisited_of_lt (inside : i < t.size) {skip : Bool} {entry : Nat × Nat}
    (member : entry ∈ t.admissible i skip) (more : ∀ other ∈ t.admissible i skip,
      other ≠ entry → (t.node other.2).visits < (t.node entry.2).visits) :
    t.mostVisited i skip = .ok (some entry) := by
  rw [mostVisited_eq inside, firstBest_eq member fun other listed apart =>
    busier_of_visits_lt (more other listed apart)]

/-- Dead ends with fewer visits than the most visited other child do not change the pick. -/
theorem mostVisited_agree (inside : i < t.size) {entry : Nat × Nat}
    (picked : t.mostVisited i true = .ok (some entry))
    (fewer : ∀ other ∈ (t.node i).children, (t.node other.2).status = .deadEnd →
      (t.node other.2).visits < (t.node entry.2).visits) :
    t.mostVisited i false = t.mostVisited i true := by
  obtain ⟨member, most⟩ := mostVisited_spec inside picked
  have decides : ∀ a b : Nat × Nat, (t.node b.2).visits < (t.node a.2).visits →
      busier (t.node a.2) (t.node b.2) = true ∧ busier (t.node b.2) (t.node a.2) = false :=
    fun _ _ => busier_of_visits_lt
  have bound : ∀ other ∈ t.admissible i false,
      (t.node other.2).visits ≤ (t.node entry.2).visits := by
    intro other listed
    have child := (mem_admissible.mp listed).1
    by_cases dead : (t.node other.2).status = .deadEnd
    · exact Nat.le_of_lt (fewer other child dead)
    · exact most other (mem_admissible.mpr ⟨child, fun _ => dead⟩)
  have listed : entry ∈ t.admissible i false :=
    mem_admissible.mpr ⟨(mem_admissible.mp member).1, by simp⟩
  rw [mostVisited_eq inside, mostVisited_eq inside,
    firstBest_highest decides bound ⟨entry, listed, rfl⟩ (by simp),
    firstBest_highest decides most ⟨entry, member, rfl⟩ (by simp)]
  congr 2
  simp only [admissible, List.filter_filter]
  refine List.filter_congr fun other child => ?_
  by_cases dead : (t.node other.2).status = .deadEnd
  · simp [dead, Nat.ne_of_lt (fewer other child dead)]
  · simp [dead]

end Tree

end EGraphSearch
