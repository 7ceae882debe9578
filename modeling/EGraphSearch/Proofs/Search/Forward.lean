import EGraphSearch.Proofs.Search.Committing
import EGraphSearch.Proofs.Search.History

/-!
# Rounds run forward

Every playout of a round passes through the node that was committed to before it, and later
commitments lie at or below that node.  So whatever lies neither above nor below a committed node is
never visited again.  Every round spends playouts of the budget, and the search ends when they are
spent or when a complete term is committed to.
-/

set_option autoImplicit false

namespace EGraphSearch

variable {σ ρ α : Type} [Scalar α]

/-! ## Playouts through a node -/

/-- One playout later: its route passes through the node, and the nodes on the route have been
visited once more. -/
def Passage (c : Nat) (s next : Progress σ α) : Prop :=
  ∃ last < next.tree.size, next.tree.passes last c = true ∧
    ∀ v, (next.tree.node v).visits = (s.tree.node v).visits + (next.tree.passes last v).toNat

/-- Between the first progress and the second the search has gone on at or below a node: whatever is
neither above nor below that node has not been visited. -/
structure Spared (c : Nat) (s t : Progress σ α) : Prop where
  kept : Tree.Kept s.tree t.tree
  linked : t.tree.Linked
  visits_eq : ∀ v, t.tree.passes c v = false → t.tree.passes v c = false →
    (t.tree.node v).visits = (s.tree.node v).visits

section Spared

variable {c d : Nat} {s t u : Progress σ α}

theorem Spared.refl (linked : s.tree.Linked) : Spared c s s := ⟨.refl _, linked, fun _ _ _ => rfl⟩

theorem Passage.spared (passage : Passage c s t) (kept : Tree.Kept s.tree t.tree)
    (linked : t.tree.Linked) : Spared c s t := by
  refine ⟨kept, linked, fun v notAbove notBelow => ?_⟩
  obtain ⟨last, inside, through, visits⟩ := passage
  rw [visits]
  cases crosses : t.tree.passes last v with
  | false => rfl
  | true =>
      rcases linked.passes_total last through crosses with above | below
      · simp [notAbove] at above
      · simp [notBelow] at below

theorem Spared.congr (spared : Spared c s t) (same : u.tree = t.tree) : Spared c s u := by
  obtain ⟨kept, linked, visits⟩ := spared
  refine ⟨?_, ?_, ?_⟩ <;> rwa [same]

theorem Spared.trans (first : Spared c s t) (second : Spared d t u) (inside : c < t.tree.size)
    (below : u.tree.passes d c = true) : Spared c s u := by
  refine ⟨first.kept.trans second.kept, second.linked, fun v notAbove notBelow => ?_⟩
  have later : (u.tree.node v).visits = (t.tree.node v).visits := by
    refine second.visits_eq v ?_ ?_
    · cases above : u.tree.passes d v with
      | false => rfl
      | true =>
          rcases second.linked.passes_total d above below with down | up
          · simp [notBelow] at down
          · simp [notAbove] at up
    · cases beneath : u.tree.passes v d with
      | false => rfl
      | true => simp [second.linked.passes_trans v beneath below] at notBelow
  rw [later]
  by_cases old : v < t.tree.size
  · refine first.visits_eq v ?_ ?_
    · rw [← Tree.passes_congr second.kept inside, notAbove]
    · rw [← Tree.passes_congr second.kept old, notBelow]
  · rw [Tree.node_of_le (Nat.not_lt.mp old),
      Tree.node_of_le (Nat.le_trans first.kept.size_le (Nat.not_lt.mp old))]

end Spared

/-! ## Playouts of a round -/

section Playouts

variable {plan : Plan σ ρ α}

/-- What holds between rounds. -/
structure Poised (plan : Plan σ ρ α) (s : Progress σ α) : Prop extends Committed plan s where
  routed : ∃ ends, Routed plan.graph s [] ends

variable {s : Progress σ α} {start : Nat} {limit : Option Number}

theorem passage_of_playout {p : Problem σ ρ α} {tuning : Tuning α} {next : Progress σ α}
    {source : ρ} {leaf : Leaf α} {ends : List Nat} (wf : p.graph.toArena.WellFormed)
    (routed : Routed p.graph s [] ends) (inside : start < s.tree.size)
    (played : playout p tuning start source s = (.ok leaf, next)) :
    Passage start s (next.record tuning leaf) ∧ Tree.Kept s.tree (next.record tuning leaf).tree ∧
      ∃ last, Routed p.graph (next.record tuning leaf) [] (last :: ends) := by
  obtain ⟨⟨last, after⟩, kept⟩ := routed.played wf inside played
  have recorded : (next.record tuning leaf).tree = next.tree := tree_record
  rw [← recorded] at kept
  have visits : ∀ v, ((next.record tuning leaf).tree.node v).visits =
      (s.tree.node v).visits + ((next.record tuning leaf).tree.passes last v).toNat := by
    intro v
    have before := routed.visits_eq v
    have later := after.visits_eq v
    rw [Tree.load_cons, Tree.load_congr kept routed.ended.inside] at later
    simp only [crossings, List.countP_nil, Nat.add_zero] at before later
    rw [later, before]
  refine ⟨⟨last, after.ended.inside last List.mem_cons_self, ?_, visits⟩, kept, last, after⟩
  have faithful := routed.ended.charted.toFaithful
  obtain ⟨path, below, playedTree⟩ := (playout_spec wf priced_trivial faithful inside played).played
  obtain ⟨path', spec⟩ := faithful.toLinked.pathSpec start inside
  obtain rfl : path' = path := Except.ok.inj (spec.path_eq.symm.trans playedTree.path_eq)
  have once := playedTree.visits_eq start
  rw [if_pos (List.mem_append_left _ spec.last), ← recorded, visits] at once
  cases passes : (next.record tuning leaf).tree.passes last start with
  | true => rfl
  | false =>
      rw [passes] at once
      simp at once

theorem passages_batchStatesFrom (wf : plan.graph.toArena.WellFormed) (bound : Nat) :
    ∀ {ran : Nat} {budget : Budget} {s : Progress σ α} {ends : List Nat},
      Routed plan.graph s [] ends → start < s.tree.size →
      (s :: batchStatesFrom plan start limit bound ran budget s).IsChain (Passage start) := by
  induction bound with
  | zero => exact fun _ _ => .singleton _
  | succ bound ih =>
      intro ran budget s ends routed inside
      rw [batchStatesFrom]
      split
      · exact .singleton _
      · split
        · exact .singleton _
        · split
          · exact .singleton _
          · rename_i leaf next played
            obtain ⟨passage, kept, last, after⟩ := passage_of_playout wf routed inside played
            exact .cons_cons passage (ih after (Nat.lt_of_lt_of_le inside kept.size_le))

theorem Batch.spared {tuning : Tuning α} {stream : Nat → ρ} {index count : Nat}
    {u : Progress σ α} (wf : plan.graph.toArena.WellFormed)
    (routed : ∃ ends, Routed plan.graph s [] ends) (inside : start < s.tree.size)
    (batch : Batch plan.toProblem tuning stream start index count s u) :
    (∃ ends, Routed plan.graph u [] ends) ∧ Spared start s u := by
  obtain ⟨ends, routed⟩ := routed
  have fresh : Spared start s s := .refl routed.ended.charted.toLinked
  have kept : ((∃ ends, Routed plan.graph u [] ends) ∧ Spared start s u) ∧
      start < u.tree.size := by
    refine batch.keeps (Q := fun v => ((∃ ends, Routed plan.graph v [] ends) ∧
      Spared start s v) ∧ start < v.tree.size) ?_ ⟨⟨⟨ends, routed⟩, fresh⟩, inside⟩
    rintro i v next leaf ⟨⟨⟨ends, routed⟩, spared⟩, inside⟩ played
    obtain ⟨passage, kept, last, after⟩ := passage_of_playout wf routed inside played
    have linked := after.ended.charted.toLinked
    have insideNext := Nat.lt_of_lt_of_le inside kept.size_le
    exact ⟨⟨⟨_, after⟩, spared.trans (passage.spared kept linked) inside
      (linked.passes_self insideNext)⟩, insideNext⟩
  exact kept.1

end Playouts

/-! ## One round -/

structure Round (plan : Plan σ ρ α) (perRound : Number) (n : Nat) (s t : Progress σ α) : Prop where
  le : n ≤ (plan.roundFrom perRound s).length
  passes : (s :: (plan.roundFrom perRound s).take n).IsChain (Passage s.committed)
  playouts_eq : t.playouts = s.playouts + n
  settled : t = (((plan.roundFrom perRound s).take n).getLastD s).settle.1
  committed : t.committed = s.committed ∨
    ∃ move, (move, t.committed) ∈ (t.tree.node s.committed).children

/-- A round that no clock has cut: its playouts are as many as a round has, or the last of the
budget. -/
structure WholeRound (plan : Plan σ ρ α) (perRound : Number) (most : Nat) (s t : Progress σ α) :
    Prop extends Round plan perRound (plan.roundFrom perRound s).length s t where
  nonempty : plan.roundFrom perRound s ≠ []
  full : perRound.ceiling? = some (plan.roundFrom perRound s).length ∨ t.playouts = most

section Round

variable {plan : Plan σ ρ α} {perRound : Number} {most looks n : Nat} {s u : Progress σ α}

theorem root_alive {g : EGraph} {tree : Tree α} (accepted : g.Accepted)
    (faithful : Faithful g tree) : (tree.node 0).status ≠ .deadEnd := by
  rw [Ne, status_eq_deadEnd]
  rintro ⟨stuck, notTerminal⟩
  obtain ⟨moves, last, _, run, terminal⟩ := searchCompletion_start accepted
  obtain ⟨none_, same⟩ :=
    faithful.noted 0 faithful.nonempty _ 0 (replay_root faithful.toLinked) stuck
  rw [run.of_stuck (List.length_eq_zero_iff.mp none_.symm), ← same, notTerminal] at terminal
  cases terminal

theorem Committed.alive (accepted : plan.graph.Accepted) (committed : Committed plan s) :
    (s.tree.node s.committed).status ≠ .deadEnd := by
  have follows := committed.follows
  generalize s.committed = c at follows
  cases follows with
  | root => exact root_alive accepted committed.sane.faithful
  | child _ picked =>
      have inside := Tree.inside_of_mostVisited picked
      exact (Tree.mem_admissible.mp (Tree.mostVisited_spec inside picked).1).2 rfl

theorem Routed.settle {g : EGraph} {ends : List Nat} (routed : Routed g u [] ends) :
    Routed g u.settle.1 [] ends := by
  unfold Progress.settle
  split
  · exact routed
  · exact ⟨routed.ended, routed.airborne, routed.visits_eq, routed.playouts_eq⟩

theorem Poised.settle (poised : Poised plan u) : Poised plan u.settle.1 ∧
    (u.settle.1.committed = u.committed ∨
      ∃ move, (move, u.settle.1.committed) ∈ (u.tree.node u.committed).children) := by
  obtain ⟨ends, routed⟩ := poised.routed
  rcases settle_cases poised.sane.committed_lt with same | ⟨move, child, picked, same⟩
  · rw [same]
    exact ⟨poised, .inl rfl⟩
  · have routed := routed.settle
    rw [same] at routed ⊢
    exact ⟨⟨⟨poised.sane.commit picked, .child poised.follows picked⟩, ends, routed⟩,
      .inr ⟨move, Tree.member_of_mostVisited poised.sane.committed_lt picked⟩⟩

theorem full_of_ran {start claimed count : Nat} {ended : BatchEnd σ α}
    (ran : Ran plan most start (some perRound) claimed s count ended) (pos : 0 < count)
    (le : claimed ≤ most) : perRound.ceiling? = some count ∨ claimed + count = most := by
  have whole := ran.le le
  rcases ran.stopped with stopped | spent
  · left
    refine Number.ceiling_eq pos (fun j less => ?_) ?_
    · have running := (ran.running j less).1
      simpa [Stopped] using running
    · simpa [Stopped] using stopped
  · right
    omega

/-- Under a steady plan a round has a playout, and it has as many as a round may have or all that
are left. -/
structure RoundSize (plan : Plan σ ρ α) (perRound : Number) (most : Nat) (s : Progress σ α) :
    Prop where
  pos : 0 < (plan.roundFrom perRound s).length
  le : s.playouts + (plan.roundFrom perRound s).length ≤ most
  full : perRound.ceiling? = some (plan.roundFrom perRound s).length ∨
    s.playouts + (plan.roundFrom perRound s).length = most

theorem Plan.Steady.round_size (steady : plan.Steady most)
    (rounds : plan.tuning.perRound = some perRound) (poised : Poised plan s)
    (left : s.playouts < most) : RoundSize plan perRound most s := by
  have sane := poised.sane
  obtain ⟨count, ended⟩ := steady.runBatch_ok (some perRound) s.playouts sane sane.committed_lt
  obtain ⟨u, pos, spec, ran, batch⟩ :=
    steady.toPaced.round steady.accepted.wellFormed priced_trivial rounds sane left ended
  have played := playouts_runBatch (by rw [← runBatch_alone steady.alone, batch])
  rw [← runBatch_alone steady.alone, batch] at played
  obtain rfl : count = (plan.roundFrom perRound s).length :=
    Nat.add_left_cancel (spec.playouts_eq.symm.trans played)
  exact ⟨pos, ran.le (Nat.le_of_lt left), full_of_ran ran pos (Nat.le_of_lt left)⟩

theorem Poised.settle_below (poised : Poised plan u) :
    u.settle.1.tree.passes u.settle.1.committed u.committed = true := by
  have linked := poised.sane.faithful.toLinked
  have inside := poised.sane.committed_lt
  rw [tree_settle]
  rcases poised.settle.2 with same | ⟨move, member⟩
  · rw [same]
    exact linked.passes_self inside
  · rw [linked.passes_child inside member, linked.passes_self inside, Bool.true_or]

theorem RoundWithin.poised (round : RoundWithin plan perRound looks n s u)
    (wf : plan.graph.toArena.WellFormed) (poised : Poised plan s) :
    Poised plan u ∧ Spared s.committed s u := by
  obtain ⟨routed, spared⟩ := round.played.spared wf poised.routed poised.sane.committed_lt
  exact ⟨⟨poised.toCommitted.batch wf rfl round.played, routed⟩, spared⟩

theorem RoundWithin.round (round : RoundWithin plan perRound looks n s u)
    (wf : plan.graph.toArena.WellFormed) (poised : Poised plan s) :
    Round plan perRound n s u.settle.1 := by
  obtain ⟨ends, routed⟩ := poised.routed
  have chain : (s :: plan.roundFrom perRound s).IsChain (Passage s.committed) :=
    passages_batchStatesFrom wf _ routed poised.sane.committed_lt
  refine ⟨round.le, chain.take (n + 1), ?_, ?_, ?_⟩
  · rw [playouts_settle, round.spec.playouts_eq]
  · rw [← round.last]
  · rw [tree_settle, ← round.spec.committed_eq]
    exact (round.poised wf poised).1.settle.2

end Round

/-! ## All rounds -/

def roundEnds (plan : Plan σ ρ α) (perRound : Number) (looks : Nat) (budget : Budget)
    (s : Progress σ α) : List (Progress σ α) :=
  match looks with
  | 0 => []
  | looks + 1 =>
    if budget.exhausted then []
    else
      let batch := runBatchFrom plan s.committed (some perRound) looks 0 budget s
      match batch.ran with
      | .error _ => []
      | .ok ran =>
        let settled := batch.progress.settle
        settled.1 ::
          if settled.2 then [] else roundEnds plan perRound (looks - ran) batch.budget settled.1
termination_by looks

/-- The states of a search in rounds, before the first of them and after each. -/
def Plan.roundHistory (plan : Plan σ ρ α) (perRound : Number) (looks : Nat) (oracle : σ) :
    List (Progress σ α) :=
  plan.opened oracle ::
    roundEnds plan.untimed perRound looks plan.untimed.budget (plan.opened oracle)

/-- So many playouts are those of some whole rounds. -/
def WholeRounds (perRound : Number) (playouts : Nat) : Prop :=
  ∃ size, perRound.ceiling? = some size ∧ size ∣ playouts

/-- What the rounds of a search come to. -/
structure Forward (plan : Plan σ ρ α) (perRound : Number) (most : Nat)
    (states : List (Progress σ α)) (ended : SearchEnd σ α) : Prop where
  result : ended.result = .ok ()
  last : states.getLast? = some ended.progress
  rounds : states.IsChain fun s t => ∃ n, Round plan perRound n s t
  spared : states.Pairwise fun early late => Spared early.committed early late
  below : ∀ s ∈ states,
    ended.progress.tree.passes ended.progress.committed s.committed = true
  poised : ∀ s ∈ states, Poised plan s
  playouts_le : ended.progress.playouts ≤ most

/-- What they come to if no clock has cut them. -/
structure Finished (plan : Plan σ ρ α) (perRound : Number) (most : Nat)
    (states : List (Progress σ α)) (ended : SearchEnd σ α) : Prop where
  whole : states.IsChain (WholeRound plan perRound most)
  spent : ended.progress.playouts = most ∨
    (ended.progress.tree.node ended.progress.committed).terminal = true ∧
      WholeRounds perRound ended.progress.playouts

section Forward

variable {plan : Plan σ ρ α} {perRound : Number} {most looks n : Nat} {s u : Progress σ α}

theorem roundEnds_zero (budget : Budget) (s : Progress σ α) :
    roundEnds plan perRound 0 budget s = [] := by
  rw [roundEnds.eq_def]

theorem RoundWithin.roundEnds_eq (round : RoundWithin plan perRound looks n s u)
    (unspent : (plan.budget.after s.playouts).exhausted = false) :
    roundEnds plan perRound (looks + 1) (plan.budget.after s.playouts) s =
      u.settle.1 :: if u.settle.2 then []
        else roundEnds plan perRound (looks - n) (plan.budget.after u.playouts) u.settle.1 := by
  rw [roundEnds.eq_def]
  simp only [unspent, Bool.false_eq_true, if_false, round.batch]

theorem roundEnds_stop (paced : plan.Paced most) {claimed : Nat} (spent : most ≤ claimed)
    (looks : Nat) (s : Progress σ α) :
    roundEnds plan perRound looks (plan.budget.after claimed) s = [] := by
  rw [roundEnds.eq_def]
  cases looks with
  | zero => rfl
  | succ looks => simp [paced.exhausted_eq, spent]

theorem WholeRound.whole {t : Progress σ α} (round : WholeRound plan perRound most s t)
    (whole : s.playouts = 0 ∨ WholeRounds perRound s.playouts) :
    t.playouts = most ∨ WholeRounds perRound t.playouts := by
  rcases round.full with ceiling | spent
  · right
    refine ⟨_, ceiling, ?_⟩
    rw [round.playouts_eq]
    rcases whole with zero | ⟨size, ceiling', divides⟩
    · rw [zero, Nat.zero_add]
    · cases ceiling'.symm.trans ceiling
      exact Nat.dvd_add divides (Nat.dvd_refl _)
  · exact .inl spent

theorem forward_single {budget : Budget} (poised : Poised plan s) (le : s.playouts ≤ most) :
    Forward plan perRound most [s] ⟨.ok (), budget, s⟩ where
  result := rfl
  last := rfl
  rounds := .singleton s
  spared := List.pairwise_singleton _ s
  below := by
    rintro t (_ | ⟨_, ⟨⟩⟩)
    exact poised.sane.faithful.toLinked.passes_self poised.sane.committed_lt
  poised := by
    rintro t (_ | ⟨_, ⟨⟩⟩)
    exact poised
  playouts_le := le

theorem Forward.cons {t : Progress σ α} {rest : List (Progress σ α)} {ended : SearchEnd σ α}
    (forward : Forward plan perRound most (t :: rest) ended) (poised : Poised plan s)
    (round : Round plan perRound n s t) (spared : Spared s.committed s t)
    (below : t.tree.passes t.committed s.committed = true) :
    Forward plan perRound most (s :: t :: rest) ended := by
  have insideT := (forward.poised t List.mem_cons_self).sane.committed_lt
  have inside := Nat.lt_of_lt_of_le poised.sane.committed_lt spared.kept.size_le
  have later : ∀ v ∈ t :: rest, Spared t.committed t v := by
    rintro v (_ | ⟨_, member⟩)
    · exact .refl spared.linked
    · exact (List.pairwise_cons.mp forward.spared).1 v member
  have stillBelow : ∀ v ∈ t :: rest, v.tree.passes t.committed s.committed = true :=
    fun v member => by rwa [Tree.passes_congr (later v member).kept insideT]
  have final : ended.progress ∈ t :: rest := List.mem_of_getLast? forward.last
  refine ⟨forward.result, ?_, .cons_cons ⟨n, round⟩ forward.rounds, ?_, ?_, ?_,
    forward.playouts_le⟩
  · rw [List.getLast?_cons_cons]
    exact forward.last
  · refine List.pairwise_cons.mpr ⟨fun v member => ?_, forward.spared⟩
    exact spared.trans (later v member) inside (stillBelow v member)
  · rintro v (_ | ⟨_, member⟩)
    · exact (later _ final).linked.passes_trans _ (forward.below t List.mem_cons_self)
        (stillBelow _ final)
    · exact forward.below v member
  · rintro v (_ | ⟨_, member⟩)
    · exact poised
    · exact forward.poised v member

/-- By induction on the looks that are left: a search under a clock runs forward, and if it has two
looks for every playout that is left, it finishes. -/
theorem searchRoundsWithin_forward (steady : plan.Steady most)
    (rounds : plan.tuning.perRound = some perRound) (looks : Nat) :
    ∀ {s : Progress σ α}, Poised plan s → s.playouts ≤ most →
      Forward plan perRound most
        (s :: roundEnds plan perRound looks (plan.budget.after s.playouts) s)
        (searchRoundsWithin plan perRound looks (plan.budget.after s.playouts) s) ∧
      (2 * (most - s.playouts) ≤ looks → (s.playouts = 0 ∨ WholeRounds perRound s.playouts) →
        Finished plan perRound most
          (s :: roundEnds plan perRound looks (plan.budget.after s.playouts) s)
          (searchRoundsWithin plan perRound looks (plan.budget.after s.playouts) s)) := by
  have wf := steady.accepted.wellFormed
  have paced := steady.toPaced
  induction looks using Nat.strong_induction_on with
  | h looks ih =>
      intro s poised le
      rcases Nat.lt_or_ge s.playouts most with left | spent
      swap
      · rw [searchRoundsWithin_stop paced spent, roundEnds_stop paced spent]
        exact ⟨forward_single poised le, fun _ _ =>
          ⟨.singleton s, .inl (Nat.le_antisymm le spent)⟩⟩
      cases looks with
      | zero =>
          rw [searchRoundsWithin_zero, roundEnds_zero]
          exact ⟨forward_single poised le, fun enough => by omega⟩
      | succ looks =>
          obtain ⟨n, ended⟩ := steady.batch_within_ok (some perRound) looks
            (plan.budget.after s.playouts) poised.sane
          obtain ⟨u, within⟩ := paced.round_within wf poised.sane ended
          obtain ⟨poisedPlayed, spared⟩ := within.poised wf poised
          have round := within.round wf poised
          have next := poisedPlayed.settle.1
          have spared : Spared s.committed s u.settle.1 := spared.congr tree_settle
          have below := poisedPlayed.settle_below
          rw [within.spec.committed_eq] at below
          have size := steady.round_size rounds poised left
          have counted := round.playouts_eq
          have leNext : u.settle.1.playouts ≤ most := by
            rw [counted]
            exact Nat.le_trans (Nat.add_le_add_left round.le _) size.le
          have uncut : 2 * (most - s.playouts) ≤ looks + 1 →
              n = (plan.roundFrom perRound s).length := by
            intro enough
            have pos := size.pos
            have le := size.le
            have within_le := within.le
            rcases within.whole with ⟨-, length⟩ | rfl
            · exact length
            · omega
          have whole : 2 * (most - s.playouts) ≤ looks + 1 →
              WholeRound plan perRound most s u.settle.1 := by
            intro enough
            obtain rfl := uncut enough
            exact ⟨round, List.ne_nil_of_length_pos size.pos, counted ▸ size.full⟩
          rw [within.searchRoundsWithin_eq (paced.unspent left),
            within.roundEnds_eq (paced.unspent left), ← playouts_settle]
          cases complete : u.settle.2 with
          | true =>
              have terminal := (settle_spec poisedPlayed.sane).2.2.2 complete
              refine ⟨(forward_single next leNext).cons poised round spared below,
                fun enough before => ⟨.cons_cons (whole enough) (.singleton _), ?_⟩⟩
              exact ((whole enough).whole before).imp_right fun rounds => ⟨terminal, rounds⟩
          | false =>
              obtain ⟨forward, finishes⟩ := ih (looks - n) (by omega) next leNext
              refine ⟨forward.cons poised round spared below, fun enough before => ?_⟩
              rcases (whole enough).whole before with spent | rounds
              · rw [if_neg Bool.false_ne_true, if_neg Bool.false_ne_true,
                  searchRoundsWithin_stop paced (Nat.le_of_eq spent.symm),
                  roundEnds_stop paced (Nat.le_of_eq spent.symm)]
                exact ⟨.cons_cons (whole enough) (.singleton _), .inl spent⟩
              · have pos := size.pos
                rw [← uncut enough] at pos
                have finished := finishes (by omega) (.inr rounds)
                exact ⟨.cons_cons (whole enough) finished.whole, finished.spent⟩

end Forward

end EGraphSearch
