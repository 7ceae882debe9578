import EGraphSearch.Proofs.Completion
import EGraphSearch.Proofs.Search.Accounting
import EGraphSearch.Proofs.Tree.Routes

/-!
# Traffic on the search tree

Playouts from any nodes of the tree, one after the other or many at once, send routes through the
tree.  A route ends at the node that its walk has added, or at a node without moves.  So each node
with moves has been the end of one route, the one that added it; the root never is.
-/

set_option autoImplicit false

namespace EGraphSearch

variable {σ ρ α : Type} [Scalar α]

/-! ## Ends of routes -/

section Ended

variable {g : EGraph} {tree after : Tree α} {ends : List Nat} {start : Nat}

/-- Where the routes of all walks through a tree have ended. -/
structure Ended (g : EGraph) (tree : Tree α) (ends : List Nat) : Prop where
  charted : Charted g tree
  inside : ∀ last ∈ ends, last < tree.size
  once : ∀ v < tree.size, (tree.node v).numMoves ≠ some 0 →
    ends.count v = if v = 0 then 0 else 1

theorem ended_initial : Ended g (Tree.initial : Tree α) [] where
  charted := charted_initial
  inside := by simp
  once v inside _ := by
    obtain rfl : v = 0 := Nat.lt_one_iff.mp inside
    rfl

theorem Ended.restated (ended : Ended g tree ends) (restated : Tree.Restated tree after) :
    Ended g after ends ∧ ∀ v, after.load ends v = tree.load ends v := by
  refine ⟨⟨restated.charted ended.charted, ?_, ?_⟩, Tree.load_congr restated.lasts.kept
    ended.inside⟩
  · rw [restated.size_eq]
    exact ended.inside
  · intro v inside some_move
    obtain ⟨_, _, _, same⟩ := restated.node_eq v
    rw [same] at some_move
    exact ended.once v (restated.size_eq ▸ inside) some_move

theorem Ended.walk {walk : Walk α} {path : List Nat} (ended : Ended g tree ends)
    (spec : WalkSpec g tree start walk) (walked : walk.path = .ok path) :
    ∃ last < walk.tree.size, walk.tree.pathFromRoot last = .ok path ∧
      Ended g walk.tree (last :: ends) ∧
      ∀ v, walk.tree.load (last :: ends) v = tree.load ends v + (path.contains v).toNat := by
  obtain ⟨path', last, arrives⟩ := spec.arrives
  obtain rfl : path = path' := Except.ok.inj (walked.symm.trans arrives.returned)
  have kept := spec.lasts.kept
  refine ⟨last, arrives.inside, arrives.path_eq, ⟨spec.charted, ?_, ?_⟩, ?_⟩
  · rintro e (_ | ⟨_, member⟩)
    · exact arrives.inside
    · exact Nat.lt_of_lt_of_le (ended.inside e member) kept.size_le
  · intro v insideV some_move
    have before : v < tree.size → ends.count v = if v = 0 then 0 else 1 := by
      refine fun old => ended.once v old fun none_ => some_move ?_
      rw [((spec.lasts.node v old).notes_eq (by rw [none_]; rfl)).1, none_]
    rw [List.count_cons]
    rcases arrives.grown with ⟨grown, new⟩ | ⟨same, _, _, stuck⟩
    · by_cases here : v = tree.size
      · have absent : ends.count v = 0 := List.count_eq_zero_of_not_mem fun member =>
          Nat.lt_irrefl _ (here ▸ ended.inside v member)
        have pos := ended.charted.nonempty
        rw [absent, new, here, beq_self_eq_true, if_pos rfl, if_neg (by omega)]
      · rw [new, beq_eq_false_iff_ne.mpr (Ne.symm here), if_neg Bool.false_ne_true, Nat.add_zero]
        exact before (by omega)
    · have elsewhere : last ≠ v := by
        rintro rfl
        refine some_move (SearchNode.numMoves_of_stuck ?_)
        cases terminal : walk.tracker.isTerminal <;> simp [stuck, terminal]
      rw [beq_eq_false_iff_ne.mpr elsewhere, if_neg Bool.false_ne_true, Nat.add_zero]
      exact before (same ▸ insideV)
  · intro v
    rw [Tree.load_cons, Tree.load_congr kept ended.inside, Tree.passes_eq arrives.path_eq]

end Ended

/-! ## Playouts and flights -/

section Steps

variable {p : Problem σ ρ α} {tuning : Tuning α} {constants : Option (ScoreConstants α)}
  {start index : Nat} {source : ρ} {s next : Progress σ α} {leaf : Leaf α}

/-- A playout that succeeds has evaluated the end of its walk and credited the path. -/
theorem playout_cases (played : playout p tuning start source s = (.ok leaf, next)) :
    ∃ tracker path, replay p.graph s.tree start = .ok tracker ∧
      (selectAndExpand p.graph (tuning.constants Scalar.zero) s.tree tracker start).path =
        .ok path ∧
      (selectAndExpand p.graph (tuning.constants Scalar.zero) s.tree tracker
        start).tree.creditPath leaf.value path = (.ok (), next.tree) ∧
      next.playouts = s.playouts ∧ next.committed = s.committed ∧
      ∃ sampling, evaluateLeaf p tuning.rollouts (selectAndExpand p.graph
        (tuning.constants Scalar.zero) s.tree tracker start).tracker s.evaluator source =
          (.ok leaf, sampling) := by
  unfold playout at played
  split at played
  · simp at played
  · rename_i tracker replayed
    dsimp only at played
    split at played
    · simp at played
    · rename_i path walked
      split at played
      · simp at played
      · rename_i sampling evaluated
        split at played
        · simp at played
        · rename_i credited
          obtain ⟨rfl, rfl⟩ : _ = leaf ∧ _ = next := by simpa using played
          exact ⟨tracker, path, replayed, walked, credited, rfl, rfl, sampling, evaluated⟩

theorem launch_cases {shared after : Shared σ α} {flight : Flight} {g : EGraph}
    (launched : shared.launch g tuning constants start index = (.ok flight, after)) :
    ∃ tracker amount, replay g shared.progress.tree start = .ok tracker ∧
      (selectAndExpand g constants shared.progress.tree tracker start).path =
        .ok flight.path ∧
      (selectAndExpand g constants shared.progress.tree tracker start).tree.addLoss amount
        flight.path = (.ok (), after.progress.tree) ∧
      after.progress.playouts = shared.progress.playouts ∧
      after.progress.committed = shared.progress.committed := by
  unfold Shared.launch at launched
  split at launched
  · simp at launched
  · rename_i tracker replayed
    dsimp only at launched
    split at launched
    · simp at launched
    · rename_i path walked
      split at launched
      · simp at launched
      · rename_i amount _
        split at launched
        · simp at launched
        · rename_i added
          obtain ⟨rfl, rfl⟩ : _ = flight ∧ _ = after := by simpa using launched
          exact ⟨tracker, amount, replayed, walked, added, rfl, rfl⟩

end Steps

/-! ## Traffic -/

/-- What a search can come to by playouts from any nodes of its tree, alone or at once, of which
none fails; listed are the playouts in flight.  What else a search does leaves the tree as it is. -/
inductive Traffic (p : Problem σ ρ α) (tuning : Tuning α) : Progress σ α → List Flight → Prop
  | fresh (oracle : σ) : Traffic p tuning (Progress.initial oracle) []
  | aside {s t : Progress σ α} {flying : List Flight} (traffic : Traffic p tuning s flying)
      (tree : t.tree = s.tree) (playouts : t.playouts = s.playouts) : Traffic p tuning t flying
  | played {s next : Progress σ α} {flying : List Flight} {start : Nat} {source : ρ}
      {leaf : Leaf α} (traffic : Traffic p tuning s flying) (inside : start < s.tree.size)
      (played : playout p tuning start source s = (.ok leaf, next)) :
      Traffic p tuning (next.record tuning leaf) flying
  | launched {shared after : Shared σ α} {flying : List Flight} {flight : Flight}
      {constants : Option (ScoreConstants α)} {start index : Nat}
      (traffic : Traffic p tuning shared.progress flying)
      (inside : start < shared.progress.tree.size)
      (launched : shared.launch p.graph tuning constants start index = (.ok flight, after)) :
      Traffic p tuning after.progress (flight :: flying)
  | finished {shared : Shared σ α} {flying : List Flight} {flight : Flight} {place : Nat}
      {leaf : Leaf α} (traffic : Traffic p tuning shared.progress flying)
      (found : flying[place]? = some flight) :
      Traffic p tuning (shared.finish tuning flight leaf).progress (flying.eraseIdx place)

/-- The routes with the given ends, some of them still in flight, explain the visits. -/
structure Routed (g : EGraph) (s : Progress σ α) (flying : List Flight) (ends : List Nat) :
    Prop where
  ended : Ended g s.tree ends
  airborne : ∀ f ∈ flying, ∃ last < s.tree.size, s.tree.pathFromRoot last = .ok f.path
  visits_eq : ∀ v, (s.tree.node v).visits + crossings v flying = s.tree.load ends v
  playouts_eq : s.playouts + flying.length = ends.length

section Routed

variable {p : Problem σ ρ α} {tuning : Tuning α} {s : Progress σ α} {flying : List Flight}
  {ends : List Nat}

theorem routed_initial (g : EGraph) (oracle : σ) :
    Routed g (Progress.initial oracle : Progress σ α) [] [] where
  ended := ended_initial
  airborne := by simp
  visits_eq v := by
    rw [Progress.initial, Tree.node_initial]
    rfl
  playouts_eq := rfl

theorem Routed.airborne_of_lasts {g : EGraph} {after : Tree α} (routed : Routed g s flying ends)
    (kept : Tree.Kept s.tree after) {f : Flight} (member : f ∈ flying) :
    ∃ last < after.size, after.pathFromRoot last = .ok f.path := by
  obtain ⟨last, inside, path⟩ := routed.airborne f member
  exact ⟨last, Nat.lt_of_lt_of_le inside kept.size_le,
    (Tree.pathFromRoot_congr kept inside).trans path⟩

theorem ite_mem_eq (path : List Nat) (v : Nat) :
    (if v ∈ path then 1 else 0) = (path.contains v).toNat := by
  by_cases crosses : v ∈ path <;> simp [crosses]

theorem visits_credit (n : SearchNode α) (value : α) (path : List Nat) (v : Nat) :
    (if v ∈ path then n.credit value else n).visits = n.visits + (path.contains v).toNat := by
  by_cases crosses : v ∈ path <;> simp [crosses, SearchNode.credit]

theorem Routed.played (wf : p.graph.toArena.WellFormed) (routed : Routed p.graph s flying ends)
    {start : Nat} {source : ρ} {next : Progress σ α} {leaf : Leaf α}
    (inside : start < s.tree.size)
    (played : playout p tuning start source s = (.ok leaf, next)) :
    (∃ last, Routed p.graph (next.record tuning leaf) flying (last :: ends)) ∧
      Tree.Kept s.tree next.tree := by
  obtain ⟨tracker, path, replayed, walked, credited, playouts, _⟩ := playout_cases played
  rcases selectAndExpand_cases wf (tuning.constants Scalar.zero) routed.ended.charted inside
      replayed with spec | ⟨_, fault, failed⟩
  · generalize selectAndExpand p.graph (tuning.constants Scalar.zero) s.tree tracker start = walk
      at walked credited spec
    obtain ⟨last, insideLast, pathLast, ended, load⟩ := routed.ended.walk spec walked
    obtain ⟨after, updated, same⟩ := updated_path ended.charted.toLinked insideLast pathLast
      (f := SearchNode.credit leaf.value) fun n => ⟨_, _, _, rfl⟩
    obtain rfl : after = next.tree := congrArg Prod.snd (updated.symm.trans credited)
    obtain ⟨endedNext, loadNext⟩ := ended.restated same.restated
    have kept := spec.lasts.kept.trans same.restated.lasts.kept
    refine ⟨⟨last, ?_, ?_, ?_, ?_⟩, kept⟩
    · rw [tree_record]
      exact endedNext
    · rw [tree_record]
      exact fun f member => routed.airborne_of_lasts kept member
    · intro v
      have visits : (walk.tree.node v).visits = (s.tree.node v).visits :=
        congrArg Prod.fst (spec.statistics_eq v)
      rw [tree_record, same.node_eq, visits_credit, loadNext, load, ← routed.visits_eq, visits]
      omega
    · rw [playouts_record, playouts, List.length_cons, ← routed.playouts_eq]
      omega
  · simp [failed] at walked

theorem Routed.launched {g : EGraph} {shared after : Shared σ α} {flight : Flight}
    {constants : Option (ScoreConstants α)} {start index : Nat} (wf : g.toArena.WellFormed)
    (routed : Routed g shared.progress flying ends) (inside : start < shared.progress.tree.size)
    (launched : shared.launch g tuning constants start index = (.ok flight, after)) :
    (∃ last, Routed g after.progress (flight :: flying) (last :: ends)) ∧
      Tree.Kept shared.progress.tree after.progress.tree := by
  obtain ⟨tracker, amount, replayed, walked, added, playouts, _⟩ := launch_cases launched
  rcases selectAndExpand_cases wf constants routed.ended.charted inside replayed with
    spec | ⟨_, fault, failed⟩
  · generalize selectAndExpand g constants shared.progress.tree tracker start = walk
      at walked added spec
    obtain ⟨last, insideLast, pathLast, ended, load⟩ := routed.ended.walk spec walked
    obtain ⟨reserved, updated, same⟩ := updated_path ended.charted.toLinked insideLast pathLast
      (f := SearchNode.addLoss amount) fun n => ⟨_, _, _, rfl⟩
    obtain rfl : reserved = after.progress.tree := congrArg Prod.snd (updated.symm.trans added)
    obtain ⟨endedNext, loadNext⟩ := ended.restated same.restated
    have kept := spec.lasts.kept.trans same.restated.lasts.kept
    refine ⟨⟨last, endedNext, ?_, ?_, ?_⟩, kept⟩
    · rintro f (_ | ⟨_, member⟩)
      · exact ⟨last, Nat.lt_of_lt_of_le insideLast same.restated.lasts.size_le,
          (Tree.pathFromRoot_congr same.restated.lasts.kept insideLast).trans pathLast⟩
      · exact routed.airborne_of_lasts kept member
    · intro v
      have visits : (after.progress.tree.node v).visits = (shared.progress.tree.node v).visits := by
        refine Eq.trans ?_ (congrArg Prod.fst (spec.statistics_eq v))
        rw [same.node_eq]
        split <;> rfl
      rw [visits, crossings_cons, ite_mem_eq, loadNext, load, ← routed.visits_eq, Nat.add_assoc]
    · rw [playouts, List.length_cons, List.length_cons, ← routed.playouts_eq, Nat.add_assoc]
  · simp [failed] at walked

theorem abandon_visits (tuning : Tuning α) (flight : Flight) (shared : Shared σ α) :
    Tree.Restated shared.progress.tree (shared.abandon tuning flight).progress.tree ∧
      (∀ v, ((shared.abandon tuning flight).progress.tree.node v).visits =
        (shared.progress.tree.node v).visits) ∧
      (shared.abandon tuning flight).progress.playouts = shared.progress.playouts := by
  unfold Shared.abandon
  split
  · exact ⟨⟨rfl, fun j => ⟨_, _, _, rfl⟩⟩, fun _ => rfl, rfl⟩
  · rename_i amount _
    exact ⟨Tree.restated_updatePath (f := SearchNode.removeLoss amount)
        (fun n => ⟨_, _, _, rfl⟩) flight.path _,
      Tree.field_updatePath SearchNode.visits (f := SearchNode.removeLoss amount) (fun _ => rfl)
        flight.path _, rfl⟩

theorem Routed.finished {g : EGraph} {shared : Shared σ α} {flight : Flight} {place : Nat}
    (routed : Routed g shared.progress flying ends) (found : flying[place]? = some flight)
    (leaf : Leaf α) :
    Routed g (shared.finish tuning flight leaf).progress (flying.eraseIdx place) ends := by
  obtain ⟨reverted, sameVisits, samePlayouts⟩ := abandon_visits tuning flight shared
  obtain ⟨last, inside, path⟩ := routed.airborne flight (List.mem_of_getElem? found)
  obtain ⟨ended, load⟩ := routed.ended.restated reverted
  obtain ⟨credited, updated, same⟩ := updated_path ended.charted.toLinked
    (Nat.lt_of_lt_of_le inside reverted.lasts.size_le)
    ((Tree.pathFromRoot_congr reverted.lasts.kept inside).trans path)
    (f := SearchNode.credit leaf.value) fun n => ⟨_, _, _, rfl⟩
  obtain ⟨endedNext, loadNext⟩ := ended.restated same.restated
  have tree : (shared.finish tuning flight leaf).progress.tree = credited := by
    simp only [Shared.finish, tree_record, Shared.withTree, Tree.creditPath, updated]
  have playouts : (shared.finish tuning flight leaf).progress.playouts =
      shared.progress.playouts + 1 := by
    simp only [Shared.finish, playouts_record, Shared.withTree, samePlayouts]
  have fewer := (perm_cons_eraseIdx found).length_eq
  have kept := reverted.lasts.kept.trans same.restated.lasts.kept
  refine ⟨?_, ?_, ?_, ?_⟩
  · rw [tree]
    exact endedNext
  · rw [tree]
    exact fun f member => routed.airborne_of_lasts kept (List.mem_of_mem_eraseIdx member)
  · intro v
    have crossed := crossings_eraseIdx v found
    rw [ite_mem_eq] at crossed
    rw [tree, same.node_eq, visits_credit, sameVisits, loadNext, load, ← routed.visits_eq]
    omega
  · rw [playouts, ← routed.playouts_eq]
    simp only [List.length_cons] at fewer
    omega

/-- However the playouts interleave, the visits are those of routes that have ended properly. -/
theorem Traffic.routed (wf : p.graph.toArena.WellFormed) (traffic : Traffic p tuning s flying) :
    ∃ ends, Routed p.graph s flying ends := by
  induction traffic with
  | fresh oracle => exact ⟨[], routed_initial p.graph oracle⟩
  | aside _ tree playouts ih =>
      obtain ⟨ends, routed⟩ := ih
      refine ⟨ends, ?_, ?_, ?_, ?_⟩
      · rw [tree]
        exact routed.ended
      · rw [tree]
        exact routed.airborne
      · rw [tree]
        exact routed.visits_eq
      · rw [playouts]
        exact routed.playouts_eq
  | played _ inside played ih =>
      obtain ⟨ends, routed⟩ := ih
      obtain ⟨⟨last, next⟩, _⟩ := routed.played wf inside played
      exact ⟨last :: ends, next⟩
  | launched _ inside launched ih =>
      obtain ⟨ends, routed⟩ := ih
      obtain ⟨⟨last, next⟩, _⟩ := routed.launched wf inside launched
      exact ⟨last :: ends, next⟩
  | finished _ found ih =>
      obtain ⟨ends, routed⟩ := ih
      exact ⟨ends, routed.finished found _⟩

end Routed

end EGraphSearch
