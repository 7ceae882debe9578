import EGraphSearch.Proofs.Search.Charts

/-!
# Exploring a tree

Walks start at any node of the tree, with the tracker of that node, and between two walks the
statistics of the nodes may change freely.  Whatever was explored like this is an arena of trackers:
each node stands for the one sequence of moves that leads to it.
-/

set_option autoImplicit false

namespace EGraphSearch

/-- The states that a node can still get to. -/
def Status.Forward : Status → Status → Prop
  | .unexpanded, _ => True
  | .partiallyExpanded, later => later = .partiallyExpanded ∨ later = .fullyExpanded
  | now, later => later = now

variable {α : Type}

theorem SearchNode.status_of_known {n : SearchNode α} {k : Nat} (known : n.numMoves = some k) :
    n.status = if k = 0 then (if n.terminal then .terminal else .deadEnd)
      else if n.children.length = 0 then .unexpanded
      else if n.children.length < k then .partiallyExpanded else .fullyExpanded := by
  cases k with
  | zero => simp [status, known]
  | succ k => simp [status, known, List.isEmpty_iff]

theorem SearchNode.numMoves_of_stuck {n : SearchNode α}
    (stuck : n.status = .terminal ∨ n.status = .deadEnd) : n.numMoves = some 0 := by
  cases known : n.numMoves with
  | none => simp [status, known] at stuck
  | some k =>
      cases k with
      | zero => rfl
      | succ k =>
          rw [status_of_known known, if_neg (Nat.succ_ne_zero k)] at stuck
          repeat' split at stuck
          all_goals simp at stuck

theorem SearchNode.Lasts.forward {n later : SearchNode α} (lasts : n.Lasts later) :
    Status.Forward n.status later.status := by
  cases known : n.numMoves with
  | none => simp [status, known, Status.Forward]
  | some k =>
      obtain ⟨moves, terminal⟩ := lasts.notes_eq (by simp [known])
      have more := lasts.children_prefix.length_le
      rw [status_of_known known, status_of_known (moves.trans known), terminal]
      by_cases none_ : k = 0
      · cases n.terminal <;> simp [none_, Status.Forward]
      · by_cases fresh : n.children.length = 0
        · simp [none_, fresh, Status.Forward]
        · have grown : ¬ later.children.length = 0 := by omega
          by_cases part : n.children.length < k
          · by_cases later_ : later.children.length < k <;>
              simp [none_, fresh, grown, part, later_, Status.Forward]
          · have full : ¬ later.children.length < k := by omega
            simp [none_, fresh, grown, part, full, Status.Forward]

variable [Scalar α] {g : EGraph} {tree mid after : Tree α} {tracker : Tracker} {start i : Nat}

/-! ## Explored trees -/

/-- Only visits, values and virtual losses differ. -/
structure Tree.Restated (tree after : Tree α) : Prop where
  size_eq : after.size = tree.size
  node_eq : ∀ j, ∃ visits total loss, after.node j =
    { tree.node j with visits := visits, total := total, virtualLoss := loss }

inductive Explores (g : EGraph) (tree : Tree α) : Tree α → Prop
  | here : Explores g tree tree
  | restate {mid after : Tree α} (explored : Explores g tree mid)
      (restated : Tree.Restated mid after) : Explores g tree after
  | walk {mid : Tree α} {start : Nat} {tracker : Tracker} (constants : ScoreConstants α)
      (explored : Explores g tree mid) (inside : start < mid.size)
      (replayed : replay g mid start = .ok tracker) :
      Explores g tree (selectAndExpand g (some constants) mid tracker start).tree

theorem Tree.Restated.trans {last : Tree α} (first : Tree.Restated tree mid)
    (second : Tree.Restated mid last) : Tree.Restated tree last where
  size_eq := second.size_eq.trans first.size_eq
  node_eq j := by
    obtain ⟨_, _, _, here⟩ := first.node_eq j
    obtain ⟨visits, total, loss, there⟩ := second.node_eq j
    exact ⟨visits, total, loss, by rw [there, here]⟩

theorem Tree.Restated.lasts (restated : Tree.Restated tree after) : Tree.Lasts tree after where
  size_le := Nat.le_of_eq restated.size_eq.symm
  node j _ := by
    obtain ⟨visits, total, loss, same⟩ := restated.node_eq j
    rw [same]
    exact ⟨rfl, rfl, rfl, rfl, rfl, List.prefix_rfl, fun _ => ⟨rfl, rfl⟩⟩

theorem Tree.Restated.charted (restated : Tree.Restated tree after) (charted : Charted g tree) :
    Charted g after := by
  have same : ∀ j, (after.node j).parent = (tree.node j).parent ∧
      (after.node j).move = (tree.node j).move ∧
      (after.node j).children = (tree.node j).children ∧
      (after.node j).numMoves = (tree.node j).numMoves ∧
      (after.node j).terminal = (tree.node j).terminal := by
    intro j
    obtain ⟨visits, total, loss, same⟩ := restated.node_eq j
    rw [same]
    exact ⟨rfl, rfl, rfl, rfl, rfl⟩
  exact charted.of_lasts (charted.toFaithful.updated restated.size_eq same) restated.lasts
    restated.size_eq fun j => (same j).2.2.1

/-- Updates of the statistics along a path are such changes, even if they stop at a missing
node. -/
theorem Tree.restated_updatePath {f : SearchNode α → SearchNode α}
    (statistical : ∀ n, ∃ visits total loss,
      f n = { n with visits := visits, total := total, virtualLoss := loss }) (path : List Nat) :
    ∀ tree : Tree α, Tree.Restated tree (updatePath f path tree).2 := by
  induction path with
  | nil => exact fun tree => ⟨rfl, fun j => ⟨_, _, _, rfl⟩⟩
  | cons i rest ih =>
      intro tree
      unfold updatePath
      split
      · obtain ⟨size, nodes⟩ := ih (tree.update i f)
        refine ⟨by rw [size, size_update], fun j => ?_⟩
        obtain ⟨visits, total, loss, same⟩ := nodes j
        obtain ⟨visits', total', loss', updated⟩ := statistical (tree.node j)
        refine ⟨visits, total, loss, ?_⟩
        rw [same, node_update]
        split
        · rw [updated]
        · rfl
      · exact ⟨rfl, fun j => ⟨_, _, _, rfl⟩⟩

/-! ## Walks leave the statistics alone -/

theorem Tree.statistics_withChild {parent move : Nat} {cls name : Label} (j : Nat) :
    ((tree.withChild parent move cls name).node j).statistics = (tree.node j).statistics := by
  rcases Nat.lt_trichotomy j tree.size with old | rfl | outside
  · rw [node_withChild_lt _ _ _ _ old]
    split <;> rfl
  · rw [node_withChild_self, node_of_le (Nat.le_refl _)]
    rfl
  · rw [node_of_le (by rw [size_withChild]; omega), node_of_le (Nat.le_of_lt outside)]

theorem statistics_expand (tree : Tree α) (moved : Tracker) (i cls move j : Nat) :
    ((expand g tree moved i cls move).tree.node j).statistics = (tree.node j).statistics := by
  unfold expand
  split
  · rfl
  · rename_i child grown added
    obtain ⟨_, _, rfl⟩ := Tree.addChild_cases added
    exact (stats_noteMoves j).1.trans (Tree.statistics_withChild j)

/-- Whatever becomes of a walk, the statistics stay what they were. -/
theorem statistics_descend (constants : Option (ScoreConstants α)) (k : Nat) :
    ∀ {tree : Tree α} {tracker : Tracker} {i : Nat}, tracker.openCount < k → ∀ j,
      ((descend g constants tree tracker i).tree.node j).statistics = (tree.node j).statistics := by
  induction k with
  | zero => exact fun small => absurd small (Nat.not_lt_zero _)
  | succ k ih =>
      intro tree tracker i small j
      have noted : ((tree.noteMoves g i tracker).node j).statistics = (tree.node j).statistics :=
        (stats_noteMoves j).1
      rw [descend]
      split
      · exact noted
      · split
        · exact noted
        · split
          · exact noted
          · rename_i moved applied
            split
            · exact (statistics_expand ..).trans noted
            · have fewer := Tracker.apply_openCount applied
              exact (ih (by omega) j).trans noted

theorem statistics_selectAndExpand (constants : Option (ScoreConstants α)) (tree : Tree α)
    (tracker : Tracker) (start j : Nat) :
    ((selectAndExpand g constants tree tracker start).tree.node j).statistics =
      (tree.node j).statistics := by
  unfold selectAndExpand
  split
  · rfl
  · exact statistics_descend constants _ (Nat.lt_succ_self _) j

/-! ## Walks -/

/-- What a walk from node `start` returns, and where it leaves the tree and the tracker. -/
structure Arrives (g : EGraph) (tree : Tree α) (start : Nat) (walk : Walk α) (path : List Nat)
    (last : Nat) : Prop where
  returned : walk.path = .ok path
  path_eq : walk.tree.pathFromRoot last = .ok path
  through : start ∈ path
  state_eq : replay g walk.tree last = .ok walk.tracker
  /-- There is one more node, and the walk ends there, or the walk ends where no move is left. -/
  grown : walk.tree.size = tree.size + 1 ∧ last = tree.size ∨
    walk.tree.size = tree.size ∧ last < tree.size ∧ walk.tracker.legalMoves g = [] ∧
      (walk.tree.node last).status = if walk.tracker.isTerminal then .terminal else .deadEnd

theorem Arrives.inside {walk : Walk α} {path : List Nat} {last : Nat}
    (arrives : Arrives g tree start walk path last) : last < walk.tree.size := by
  rcases arrives.grown with ⟨size, same⟩ | ⟨size, old, _⟩ <;> omega

theorem Ends.arrives {below before : List Nat} {last : Nat} {u : Tracker}
    (faithful : Faithful g after) (through : start ∈ before)
    (ends : Ends g tree after (before ++ below) u last) :
    Arrives g tree start ⟨after, u, .ok (before ++ below)⟩ (before ++ below) last := by
  refine ⟨rfl, ends.path_eq, List.mem_append_left _ through, ends.replayed, ?_⟩
  rcases ends.grown with grown | ⟨size, stuck⟩
  · exact .inl grown
  · have noted := (faithful.noted last ends.inside u _ ends.replayed ends.noted).2
    have none_ : (after.node last).numMoves = some 0 := by rw [ends.noted, stuck, List.length_nil]
    exact .inr ⟨size, size ▸ ends.inside, stuck,
      by rw [SearchNode.status_of_known none_, if_pos rfl, noted]⟩

structure WalkSpec (g : EGraph) (tree : Tree α) (start : Nat) (walk : Walk α) : Prop where
  charted : Charted g walk.tree
  lasts : Tree.Lasts tree walk.tree
  statistics_eq : ∀ j, (walk.tree.node j).statistics = (tree.node j).statistics
  arrives : ∃ path last, Arrives g tree start walk path last

/-- A walk arrives, unless it wants for a score. -/
theorem selectAndExpand_cases (wf : g.toArena.WellFormed) (constants : Option (ScoreConstants α))
    (charted : Charted g tree) (inside : start < tree.size)
    (replayed : replay g tree start = .ok tracker) :
    WalkSpec g tree start (selectAndExpand g constants tree tracker start) ∨
      (constants = none ∧ ∃ fault,
        (selectAndExpand g constants tree tracker start).path = .error fault) := by
  obtain ⟨before, path, _, _⟩ := charted.toLinked.exists_path start inside
  rcases descends_of_descend wf constants _ (Nat.lt_succ_self _) charted.toFaithful inside
      replayed with ⟨below, end_, u, walked, descends⟩ | ⟨missing, fault, failed⟩
  · left
    have walked : selectAndExpand g constants tree tracker start =
        ⟨end_, u, .ok (before ++ [start] ++ below)⟩ := by
      simp only [selectAndExpand, path, walked, Except.map]
    obtain ⟨chartedEnd, lasts⟩ := descends.charted wf charted inside replayed
    obtain ⟨last, ends⟩ := descends.ends charted.toFaithful inside replayed path
    have descent := descends.descent charted.toFaithful inside replayed
    rw [walked]
    exact ⟨chartedEnd, lasts, descent.statistics_eq, _, last,
      ends.arrives chartedEnd.toFaithful (by simp)⟩
  · exact .inr ⟨missing, fault, by simp only [selectAndExpand, path, failed, Except.map]⟩

/-- Whatever becomes of a walk, it keeps the tree charted. -/
theorem charted_descend (wf : g.toArena.WellFormed) (constants : Option (ScoreConstants α))
    (k : Nat) : ∀ {tree : Tree α} {tracker : Tracker} {i : Nat}, tracker.openCount < k →
      Charted g tree → i < tree.size → replay g tree i = .ok tracker →
      Charted g (descend g constants tree tracker i).tree ∧
        Tree.Lasts tree (descend g constants tree tracker i).tree := by
  induction k with
  | zero => exact fun small => absurd small (Nat.not_lt_zero _)
  | succ k ih =>
      intro tree tracker i small charted inside replayed
      rcases descend_cases wf constants inside replayed with
        ⟨stuck, stayed⟩ | ⟨p, move, moved, pending, first, applied, grown⟩ |
        ⟨m, c, moved, child, applied, followed⟩ | ⟨_, failed⟩
      · rw [stayed]
        exact (Descends.stay stuck).charted wf charted inside replayed
      · rw [grown]
        exact (Descends.grow pending first applied).charted wf charted inside replayed
      · obtain ⟨insideChild, replayedChild⟩ :=
          charted.toFaithful.followed inside replayed child applied
        have fewer := Tracker.apply_openCount applied
        obtain ⟨chartedEnd, lasts⟩ :=
          ih (by omega) (charted.noteMoves inside replayed) insideChild replayedChild
        rw [followed]
        exact ⟨chartedEnd, lasts_noteMoves.trans lasts⟩
      · rw [failed]
        exact ⟨charted.noteMoves inside replayed, lasts_noteMoves⟩

omit [Scalar α] in
theorem inside_of_replay (replayed : replay g tree start = .ok tracker) : start < tree.size := by
  cases path : tree.pathFromRoot start with
  | error fault => simp [replay, Tree.movesTo, path, Except.map] at replayed
  | ok _ => exact Tree.inside_of_pathFromRoot path

theorem charted_selectAndExpand (wf : g.toArena.WellFormed)
    (constants : Option (ScoreConstants α)) (charted : Charted g tree)
    (replayed : replay g tree start = .ok tracker) :
    Charted g (selectAndExpand g constants tree tracker start).tree ∧
      Tree.Lasts tree (selectAndExpand g constants tree tracker start).tree := by
  have inside := inside_of_replay replayed
  obtain ⟨before, path, _, _⟩ := charted.toLinked.exists_path start inside
  simp only [selectAndExpand, path]
  exact charted_descend wf constants _ (Nat.lt_succ_self _) charted inside replayed

theorem selectAndExpand_spec (wf : g.toArena.WellFormed) (constants : ScoreConstants α)
    (charted : Charted g tree) (inside : start < tree.size)
    (replayed : replay g tree start = .ok tracker) :
    WalkSpec g tree start (selectAndExpand g (some constants) tree tracker start) :=
  (selectAndExpand_cases wf (some constants) charted inside replayed).resolve_right
    fun missing => by simp at missing

theorem Explores.charted (wf : g.toArena.WellFormed) (explored : Explores g tree after)
    (charted : Charted g tree) : Charted g after ∧ Tree.Lasts tree after := by
  induction explored with
  | here => exact ⟨charted, .refl tree⟩
  | restate _ restated ih =>
      obtain ⟨chartedMid, lasts⟩ := ih
      exact ⟨restated.charted chartedMid, lasts.trans restated.lasts⟩
  | walk constants _ inside replayed ih =>
      obtain ⟨chartedMid, lasts⟩ := ih
      have spec := selectAndExpand_spec wf constants chartedMid inside replayed
      exact ⟨spec.charted, lasts.trans spec.lasts⟩

theorem Explores.trans {last : Tree α} (first : Explores g tree mid)
    (second : Explores g mid last) : Explores g tree last := by
  induction second with
  | here => exact first
  | restate _ restated ih => exact .restate ih restated
  | walk constants _ inside replayed ih => exact .walk constants ih inside replayed

/-! ## Arenas of trackers -/

/-- What node `i` says about its tracker. -/
structure Represents (g : EGraph) (tree : Tree α) (i : Nat) (t : Tracker) : Prop where
  assignment_eq : ∃ path, tree.pathFromRoot i = .ok path ∧
    t.assignment g = (path.drop 1).map fun j => ((tree.node j).cls, (tree.node j).node)
  recorded : ∀ k, (tree.node i).numMoves = some k →
    k = (t.legalMoves g).length ∧ (tree.node i).terminal = t.isTerminal
  ordered : (tree.node i).children.map Prod.fst <+: t.legalMoves g
  expanded_iff : (tree.node i).isFullyExpanded = true ↔
    (tree.node i).numMoves.isSome ∧ (tree.node i).children.map Prod.fst = t.legalMoves g
  /-- Adding the child that selection asks for never fails. -/
  growing : ∀ constants move cls name,
    tree.selectMove constants i (t.legalMoves g) = .ok (.untried move) →
      ∃ after, tree.addChild i move cls name = .ok (tree.size, after)

/-- Every node has its own tracker, and the links lead from tracker to tracker. -/
structure TrackerArena (g : EGraph) (tree : Tree α) : Prop where
  root : 0 < tree.size ∧ (tree.node 0).parent = none ∧ (tree.node 0).depth = 0
  nonroot : ∀ i < tree.size, 0 < i → ∃ p m, p < i ∧ (tree.node i).parent = some p ∧
    (tree.node i).move = some m ∧ (tree.node i).depth = (tree.node p).depth + 1 ∧
    (tree.node p).child? m = some i
  replays : ∀ i < tree.size, ∃ t, replay g tree i = .ok t ∧ Represents g tree i t
  distinct : ∀ i < tree.size, ∀ j < tree.size, ∀ t u, replay g tree i = .ok t →
    replay g tree j = .ok u → (t.assignment g).same (· == ·) (u.assignment g) = true → i = j

theorem Charted.assignment_eq (wf : g.toArena.WellFormed) (charted : Charted g tree) (i : Nat) :
    ∀ {t : Tracker}, i < tree.size → replay g tree i = .ok t →
      ∃ path, tree.pathFromRoot i = .ok path ∧
        t.assignment g = (path.drop 1).map fun j => ((tree.node j).cls, (tree.node j).node) := by
  induction i using Nat.strongRecOn with
  | _ i ih =>
      intro t inside replayed
      rcases Nat.eq_zero_or_pos i with rfl | pos
      · cases (replay_root charted.toLinked).symm.trans replayed
        exact ⟨_, charted.toLinked.pathFromRoot_root, rfl⟩
      · obtain ⟨p, m, lt, member⟩ := charted.parent i pos inside
        have insideParent := Nat.lt_trans lt inside
        obtain ⟨outer, replayedParent⟩ := charted.replayed p insideParent
        rw [replay_child charted.toLinked insideParent member, replayedParent] at replayed
        obtain ⟨path, pathParent, assignment⟩ := ih p lt insideParent replayedParent
        obtain ⟨before, pathAgain, _, _⟩ := charted.toLinked.exists_path p insideParent
        have someNode : 1 ≤ path.length := by
          rw [Except.ok.inj (pathParent.symm.trans pathAgain)]
          simp
        have inv := inv_of_replay wf replayedParent
        obtain ⟨q, pending, _⟩ := inv.of_apply wf replayed
        obtain ⟨cls, name⟩ :=
          (charted.charts p insideParent outer replayedParent).named q pending m i member
        refine ⟨path ++ [i], ?_, ?_⟩
        · rw [charted.toLinked.pathFromRoot_child insideParent member, pathParent]
          rfl
        · rw [inv.assignment_of_apply wf pending replayed, assignment,
            List.drop_append_of_le_length someNode, List.map_append, List.map_singleton, cls, name]

theorem Charted.represents (wf : g.toArena.WellFormed) (charted : Charted g tree) {t : Tracker}
    (inside : i < tree.size) (replayed : replay g tree i = .ok t) : Represents g tree i t := by
  have ordered := (charted.charts i inside t replayed).ordered
  have length := ordered.length_le
  rw [List.length_map] at length
  refine ⟨charted.assignment_eq wf i inside replayed,
    fun k known => charted.noted i inside t k replayed known, ordered, ?_, ?_⟩
  · rw [SearchNode.isFullyExpanded]
    cases known : (tree.node i).numMoves with
    | none => simp
    | some k =>
        have count := (charted.noted i inside t k replayed known).1
        simp only [Option.any_some, decide_eq_true_eq, Option.isSome_some, true_and]
        constructor
        · intro full
          exact ordered.eq_of_length_le (by rw [List.length_map, ← count]; exact full)
        · intro same
          rw [count, ← same, List.length_map]
  · intro constants move cls name picked
    have someMove : t.legalMoves g ≠ [] := by
      intro stuck
      simp [Tree.selectMove, stuck] at picked
    rcases Tree.selectMove_spec constants inside someMove with
      ⟨move', first, again⟩ | ⟨entry, _, _, again⟩ | ⟨_, again⟩
    · obtain rfl : move = move' := by simpa using picked.symm.trans again
      exact ⟨_, Tree.addChild_eq inside (firstUntried_spec first).2⟩
    · simp [again] at picked
    · simp [again] at picked

theorem Charted.arena (wf : g.toArena.WellFormed) (charted : Charted g tree) :
    TrackerArena g tree := by
  refine ⟨⟨charted.nonempty, charted.root_parent, charted.root_depth⟩, ?_, ?_, ?_⟩
  · intro i inside pos
    obtain ⟨p, m, lt, member⟩ := charted.parent i pos inside
    have insideParent := Nat.lt_trans lt inside
    obtain ⟨_, _, parent, move⟩ := charted.child p insideParent m i member
    obtain ⟨t, replayed⟩ := charted.replayed p insideParent
    exact ⟨p, m, lt, parent, move, (charted.charts p insideParent t replayed).depth_eq m i member,
      SearchNode.child?_of_mem (charted.distinct p insideParent) member⟩
  · intro i inside
    obtain ⟨t, replayed⟩ := charted.replayed i inside
    exact ⟨t, replayed, charted.represents wf inside replayed⟩
  · intro i insideLeft j insideRight t u left right same
    obtain ⟨moves, path, run⟩ := leads_of_replay wf left
    obtain ⟨others, path', run'⟩ := leads_of_replay wf right
    have choices :=
      Tracker.choice_eq_of_same wf (inv_of_replay wf left) (inv_of_replay wf right) same
    obtain rfl : moves = others := run.unique wf run' (Tracker.inv_start wf) choices
    exact charted.toLinked.movesTo_inj i insideLeft insideRight path path'

/-- Whatever was explored is an arena of trackers, what its nodes have recorded lasts, and every
further walk arrives. -/
theorem explored_tree_is_arena (accepted : g.Accepted) (explored : Explores g Tree.initial tree) :
    TrackerArena g tree ∧
    (∀ after, Explores g tree after → ∀ i < tree.size, i < after.size ∧
      replay g after i = replay g tree i ∧ (tree.node i).Lasts (after.node i) ∧
      Status.Forward (tree.node i).status (after.node i).status) ∧
    ∀ start < tree.size, ∀ t, replay g tree start = .ok t → ∀ constants, ∃ path last,
      Arrives g tree start (selectAndExpand g (some constants) tree t start) path last := by
  have wf := accepted.wellFormed
  obtain ⟨charted, _⟩ := explored.charted wf charted_initial
  refine ⟨charted.arena wf, ?_, ?_⟩
  · intro after later i inside
    obtain ⟨_, lasts⟩ := later.charted wf charted
    have node := lasts.node i inside
    exact ⟨Nat.lt_of_lt_of_le inside lasts.size_le,
      replay_congr charted.toLinked lasts.kept inside, node, node.forward⟩
  · intro start inside t replayed constants
    exact (selectAndExpand_spec wf constants charted inside replayed).arrives

/-- A first walk through the graph with a cycle. -/
def firstWalk : Walk Float :=
  selectAndExpand EGraph.loopGraph (some ⟨1.41, 0⟩) Tree.initial (Tracker.start EGraph.loopGraph) 0

theorem explored_tree_is_arena_loop :
    EGraph.loopGraph.Accepted ∧ Explores EGraph.loopGraph Tree.initial firstWalk.tree ∧
      TrackerArena EGraph.loopGraph firstWalk.tree := by
  have explored : Explores EGraph.loopGraph Tree.initial firstWalk.tree :=
    .walk _ .here Nat.one_pos (replay_root Tree.linked_initial)
  exact ⟨EGraph.loopGraph_accepted, explored,
    (explored_tree_is_arena EGraph.loopGraph_accepted explored).1⟩

end EGraphSearch
