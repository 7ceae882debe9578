import EGraphSearch.Proofs.Completion.Exhaustive

/-!
# Completion from the start

From the start, backtracking never has to go back.  Every class that it resolves gets its first
shallowest node, so that levels fall along the ancestor path; the children of the next shallowest
node lie below all of this path, which makes the node legal, and the order of the moves tries it
first.  The term that is found is as high as the level of the root.
-/

set_option autoImplicit false

namespace EGraphSearch

open Relation (TransGen ReflTransGen)

/-! ## The head of a sorted list -/

section Sorting

variable {α : Type} {p : α → Bool} {a : α}

/-- Sorting is stable: the first of the least elements comes to the front. -/
theorem head?_mergeSort (le : α → α → Bool) (trans : ∀ a b c, le a b → le b c → le a c)
    (total : ∀ a b, le a b || le b a) {l : List α} (first : l.find? p = some a)
    (least : ∀ b ∈ l, le a b = true) (others : ∀ b ∈ l, p b = false → le b a = false) :
    (l.mergeSort le).head? = some a := by
  induction l with
  | nil => simp at first
  | cons b rest ih =>
      obtain ⟨before, after, sorted, sortedRest, apart⟩ := List.mergeSort_cons trans total b rest
      rw [sorted]
      cases here : p b with
      | true =>
          obtain rfl : b = a := by simpa [List.find?_cons, here] using first
          cases before with
          | nil => rfl
          | cons c before =>
              have listed : c ∈ rest.mergeSort le := by
                rw [sortedRest]
                simp
              have listed := List.mem_mergeSort.mp listed
              have strict := apart c (by simp)
              simp [least c (by simp [listed])] at strict
      | false =>
          have first : rest.find? p = some a := by simpa [List.find?_cons, here] using first
          have front := ih first (fun c member => least c (by simp [member]))
            (fun c member => others c (by simp [member]))
          rw [sortedRest] at front
          cases before with
          | cons c before => simpa using front
          | nil =>
              have ordered := List.pairwise_mergeSort trans total (b :: rest)
              rw [sorted] at ordered
              have member : a ∈ after := List.mem_of_mem_head? (by simpa using front)
              have le_ := (List.pairwise_cons.mp ordered).1 a member
              simp [others b (by simp) here] at le_

theorem find?_filter_of_kept {q : α → Bool} {l : List α} (found : l.find? p = some a)
    (kept : q a = true) : (l.filter q).find? p = some a := by
  obtain ⟨holds, before, after, rfl, fails⟩ := List.find?_eq_some_iff_append.mp found
  rw [List.filter_append, List.find?_append, List.filter_cons_of_pos kept,
    List.find?_cons_of_pos holds]
  have none_ : (before.filter q).find? p = none := by
    rw [List.find?_eq_none]
    intro b member
    simpa using fails b (List.mem_of_mem_filter member)
  simp [none_]

end Sorting

/-! ## First shallowest nodes -/

def EGraph.firstShallow? (g : EGraph) (c : Nat) : Option Nat :=
  (g.membersOf c).find? fun n => g.nodeLevel n == g.classLevel c

variable {g : EGraph} {t u : Tracker} {c d n p : Nat}

theorem EGraph.Shallow.exists_first (wf : g.toArena.WellFormed) {m : Nat}
    (shallow : g.Shallow c m) : ∃ n, g.firstShallow? c = some n ∧ g.Shallow c n := by
  obtain ⟨lt, owner, h, nodeLevel, classLevel⟩ := shallow
  have inside : c < g.numClasses := owner ▸ wf.owner_lt m lt
  have member := (wf.member_iff c inside m lt).mpr owner
  have some_ : (g.firstShallow? c).isSome := by
    rw [EGraph.firstShallow?, List.find?_isSome]
    exact ⟨m, member, by simp [nodeLevel, classLevel]⟩
  obtain ⟨n, found⟩ := Option.isSome_iff_exists.mp some_
  have listed := List.mem_of_find?_eq_some found
  have level := List.find?_some found
  have ltFound := wf.member_lt c inside n listed
  refine ⟨n, found, ltFound, (wf.member_iff c inside n ltFound).mp listed, h, ?_, classLevel⟩
  simpa [classLevel] using level

namespace Completion

def shallower (g : EGraph) (m n : Nat) : Bool := !(g.nodeLevel n).below (g.nodeLevel m)

theorem shallower_iff {m n : Nat} : shallower g m n = true ↔ g.nodeLevel m ≤ g.nodeLevel n := by
  simp [shallower, Level.le_def]

theorem head?_orderedMoves (accepted : g.Accepted) (inv : Tracker.Inv g t)
    (pending : t.pending = some p) (first : g.firstShallow? p = some n)
    (legal : t.isLegalFor g p n = true) : (orderedMoves g t).head? = some n := by
  have wf := accepted.wellFormed
  have inside : p < g.numClasses := by
    rw [← inv.assigned_size]
    exact (Tracker.isOpen_iff.mp (inv.waiting p pending).1).1
  have level : g.nodeLevel n = g.classLevel p := by simpa using List.find?_some first
  have atLeast : ∀ m ∈ t.legalMoves g, g.nodeLevel n ≤ g.nodeLevel m := by
    intro m member
    obtain ⟨q, same, lt, legal⟩ := (Tracker.mem_legalMoves_iff wf inv).mp member
    obtain rfl : p = q := Option.some.inj (pending.symm.trans same)
    have owner := (Tracker.isLegalFor_iff.mp legal).2.1
    rw [level, ← owner]
    exact accepted.leveled.classLevel_le lt
  refine head?_mergeSort (p := fun m => g.nodeLevel m == g.classLevel p) (shallower g)
    ?_ ?_ ?_ ?_ ?_
  · intro a b c first second
    rw [shallower_iff] at first second ⊢
    exact le_trans first second
  · intro a b
    rw [Bool.or_eq_true, shallower_iff, shallower_iff]
    exact le_total _ _
  · simp only [Tracker.legalMoves, pending]
    exact find?_filter_of_kept first legal
  · exact fun m member => shallower_iff.mpr (atLeast m member)
  · intro m member other
    rw [← Bool.not_eq_true, shallower_iff, not_le]
    refine lt_of_le_of_ne (atLeast m member) fun same => ?_
    simp [← same, level] at other

end Completion

namespace Tracker

/-- A tracker in which every resolved class has its first shallowest node. -/
structure Steep (g : EGraph) (t : Tracker) : Prop extends Inv g t where
  first : ∀ c n, t.choice c = some n → g.firstShallow? c = some n

theorem Steep.shallow (steep : Steep g t) (chosen : t.choice c = some n) : g.Shallow c n := by
  obtain ⟨lt, owner, finite⟩ := steep.member c n chosen
  obtain ⟨h, level⟩ := (Level.isFinite_iff _).mp finite
  have same := List.find?_some (steep.first c n chosen)
  refine ⟨lt, owner, h, level, ?_⟩
  rw [← level]
  exact (by simpa using same : g.nodeLevel n = g.classLevel c).symm

theorem Steep.falls (accepted : g.Accepted) (steep : Steep g t)
    (uses : Picks.Uses g t.choice c d) : g.classLevel d < g.classLevel c := by
  obtain ⟨n, chosen, child⟩ := uses
  exact (accepted.leveled.shallow_child (steep.shallow chosen) child).1

theorem Steep.falls_along (accepted : g.Accepted) (steep : Steep g t)
    (walk : TransGen (Picks.Uses g t.choice) c d) : g.classLevel d < g.classLevel c := by
  induction walk with
  | single uses => exact steep.falls accepted uses
  | tail _ uses ih => exact lt_trans (steep.falls accepted uses) ih

theorem Steep.pending_first (accepted : g.Accepted) (steep : Steep g t)
    (pending : t.pending = some p) : ∃ n, g.firstShallow? p = some n ∧ g.Shallow p n := by
  have wf := accepted.wellFormed
  obtain ⟨_, waits⟩ := steep.waiting p pending
  have shallow : ∃ m, g.Shallow p m := by
    cases stack : t.stack with
    | nil =>
        rw [stack] at waits
        obtain ⟨h, level⟩ := accepted.root_finite
        obtain ⟨m, lt, owner, same⟩ := accepted.leveled.exists_shallowest wf.root_lt level
        exact waits ▸ ⟨m, lt, owner, h, same, level⟩
    | cons frame below =>
        rw [stack] at waits
        have chosen := steep.chosen frame (by simp [stack])
        have child := List.mem_of_getElem? waits.1
        exact (accepted.leveled.shallow_child (steep.shallow chosen) child).2
  obtain ⟨m, shallow⟩ := shallow
  exact shallow.exists_first wf

/-- A shallowest node of the pending class leads below all ancestors. -/
theorem Steep.isLegalFor (accepted : g.Accepted) (steep : Steep g t)
    (pending : t.pending = some p) (shallow : g.Shallow p n) : t.isLegalFor g p n = true := by
  obtain ⟨isOpen, waits⟩ := steep.waiting p pending
  refine isLegalFor_iff.mpr ⟨isOpen, shallow.2.1, ?_, ?_⟩
  · obtain ⟨_, _, h, level, _⟩ := shallow
    rw [level]
    rfl
  · intro d child
    have lower := (accepted.leveled.shallow_child shallow child).1
    refine ⟨fun same => absurd lower (same ▸ lt_irrefl _), ?_⟩
    rw [← Bool.not_eq_true, steep.inProgress_iff]
    intro ancestor
    have higher := steep.falls_along accepted (waits.reaches steep.chosen d ancestor)
    exact absurd lower (not_lt_of_gt higher)

theorem Steep.next (accepted : g.Accepted) (steep : Steep g t)
    (notTerminal : ¬ t.isTerminal = true) :
    ∃ n others u, Completion.orderedMoves g t = n :: others ∧ n ∈ t.legalMoves g ∧
      t.apply g n = .ok u ∧ Steep g u := by
  have wf := accepted.wellFormed
  obtain ⟨p, pending⟩ : ∃ p, t.pending = some p := by
    cases pending : t.pending with
    | none => simp [isTerminal, pending] at notTerminal
    | some p => exact ⟨p, rfl⟩
  obtain ⟨n, first, shallow⟩ := steep.pending_first accepted pending
  have legal := steep.isLegalFor accepted pending shallow
  have head := Completion.head?_orderedMoves accepted steep.toInv pending first legal
  obtain ⟨others, ordered⟩ : ∃ others, Completion.orderedMoves g t = n :: others :=
    ⟨_, (List.head?_eq_some_iff.mp head).choose_spec⟩
  obtain ⟨u, applied, inv, _, choice⟩ := apply_spec wf steep.toInv pending shallow.1 legal
  refine ⟨n, others, u, ordered, mem_legalMoves_of_apply wf steep.toInv applied, applied, inv, ?_⟩
  intro c m chosen
  rw [choice] at chosen
  split at chosen
  · rename_i same
    cases chosen
    rw [same, first]
  · exact steep.first c m chosen

theorem steep_start (wf : g.toArena.WellFormed) : Steep g (start g) where
  toInv := inv_start wf
  first c n chosen := by simp [choice_start] at chosen

end Tracker

/-! ## No way back -/

def Search.down (limit : Option Nat) (moves : Nat) (terminal : Tracker) : Search :=
  if limit.any fun most => decide (most < moves) then .gaveUp else .found terminal

theorem Search.down_cases (limit : Option Nat) (moves : Nat) (u : Tracker) :
    down limit moves u = .gaveUp ∨ down limit moves u = .found u := by
  unfold down
  split <;> simp

namespace Tracker

theorem Steep.not_deadEnd (accepted : g.Accepted) (steep : Steep g t) : t.isDeadEnd g = false := by
  by_cases terminal : t.isTerminal = true
  · simp [isDeadEnd, terminal]
  · obtain ⟨n, _, _, _, legal, _⟩ := steep.next accepted terminal
    have offered : t.legalMoves g ≠ [] := List.ne_nil_of_mem legal
    simp [isDeadEnd, offered]

/-- The search goes straight down; it gives up if it would have to make more moves than the limit
allows. -/
theorem Steep.explore (accepted : g.Accepted) (steep : Steep g t) :
    ∃ moves u, Leads g t moves u ∧ u.isTerminal = true ∧ Steep g u ∧
      ∀ (limit : Option Nat) (explored : Nat), (∀ most, limit = some most → explored ≤ most) →
        Completion.explore g limit t explored = Search.down limit (explored + moves.length) u := by
  -- each move resolves an open class, so the induction is on the number of open classes
  induction openHere : t.openCount using Nat.strong_induction_on generalizing t with
  | _ k ih =>
      by_cases terminal : t.isTerminal = true
      · refine ⟨[], t, .stay t, terminal, steep, ?_⟩
        intro limit explored room
        rw [Completion.explore, if_pos terminal, Search.down, if_neg]
        cases limit with
        | none => simp
        | some most => simpa using room most rfl
      · obtain ⟨n, others, next, ordered, legal, applied, steepNext⟩ :=
          steep.next accepted terminal
        have fewer := apply_openCount applied
        obtain ⟨moves, u, run, done, steepEnd, straight⟩ :=
          ih next.openCount (openHere ▸ fewer) steepNext rfl
        refine ⟨n :: moves, u, .move legal applied run, done, steepEnd, ?_⟩
        intro limit explored room
        rw [Completion.explore, if_neg terminal]
        split
        · rename_i reached
          rw [Search.down, if_pos]
          cases limit with
          | none => simp at reached
          | some most =>
              simp only [Option.any_some, decide_eq_true_eq, List.length_cons] at reached ⊢
              omega
        · rename_i free
          have roomNext : ∀ most, limit = some most → explored + 1 ≤ most := by
            rintro most rfl
            simpa using free
          have same : explored + (n :: moves).length = explored + 1 + moves.length := by
            simp only [List.length_cons]
            omega
          rw [ordered, Completion.exploreMoves_cons applied, straight limit _ roomNext, same]
          rcases Search.down_cases limit (explored + 1 + moves.length) u with ended | ended <;>
            simp [ended]

end Tracker

namespace Backtrack

variable {limit : Option Int} {s next : Backtrack} {memory : Memory}

/-- On top waits a tracker that is as many moves down as trackers were explored, all of them to
first shallowest nodes. -/
def Ahead (g : EGraph) (s : Backtrack) : Prop :=
  ∃ place rest t moves, s.waiting = place :: rest ∧ s.memory[place]? = some t ∧
    Tracker.Leads g (Tracker.start g) moves t ∧ moves.length = s.explored ∧ Tracker.Steep g t

theorem ahead_start (wf : g.toArena.WellFormed) (memory : Memory) :
    Ahead g (start memory (Tracker.start g)) :=
  ⟨_, [], Tracker.start g, [], rfl, List.getElem?_concat_length, .stay _, rfl,
    Tracker.steep_start wf⟩

theorem Ahead.step (accepted : g.Accepted) (ahead : Ahead g s)
    (stepped : s.step g limit = .inl next) : Ahead g next := by
  have wf := accepted.wellFormed
  obtain ⟨memory, waiting, explored⟩ := s
  obtain ⟨place, rest, t, moves, rfl, held, run, depth, steep⟩ := ahead
  by_cases terminal : t.isTerminal = true
  · simp [step_of_terminal held terminal] at stepped
  by_cases reached : (limit.any fun most => decide (most < (explored : Int) + 1)) = true
  · simp [step_of_limit held terminal reached] at stepped
  obtain ⟨n, others, u, ordered, legal, applied, steepNext⟩ := steep.next accepted terminal
  obtain ⟨behind, all⟩ := exists_behind wf steep.toInv fun n =>
    (Completion.mem_orderedMoves (g := g) (t := t) (n := n)).mp
  obtain ⟨after, places, branched, holds⟩ := branch_spec memory rest all
  rw [step_of_moves held terminal reached branched] at stepped
  obtain rfl := Sum.inl.inj stepped
  rw [ordered] at all
  obtain ⟨top, below, _, rfl, heldTop, _, _⟩ := Holds.top all holds applied
  have further := run.append (.move legal applied (.stay u))
  exact ⟨top, below ++ rest, u, moves ++ [n], rfl, heldTop, further, by simpa using depth,
    steepNext⟩

theorem Reaches.ahead (accepted : g.Accepted) (reaches : Reaches g limit s next)
    (ahead : Ahead g s) : Ahead g next := by
  induction reaches with
  | refl => exact ahead
  | tail _ stepped ih => exact ih.step accepted stepped

end Backtrack

/-! ## The search from the start -/

/-- The search from the start goes straight down to a term of least height. -/
structure Direct (g : EGraph) : Prop where
  /-- In each round the tracker on top is one move further down, and never a dead end. -/
  never_back : ∀ (limit : Option Int) (memory : Memory) (s : Backtrack),
    Backtrack.Reaches g limit (Backtrack.start memory (Tracker.start g)) s →
      ∃ place rest t moves, s.waiting = place :: rest ∧ s.memory[place]? = some t ∧
        Tracker.Leads g (Tracker.start g) moves t ∧ moves.length = s.explored ∧
        t.isDeadEnd g = false
  ends : ∀ (limit : Option Int) (memory : Memory), ∃ after ending,
    Backtrack.Ends g limit (Backtrack.start memory (Tracker.start g)) after ending ∧
      Backtrack.Returned memory after ending
        (searchCompletion g (limit.map Int.toNat) (Tracker.start g))
  /-- The term that is found has first shallowest nodes only and is as high as the level of the
  root, and it is found under every limit that is as large as the term. -/
  finds : ∃ u term h, complete? g none (Tracker.start g) = some u ∧ u.toTerm g = .ok term ∧
    (∀ c n, u.choice c = some n → g.firstShallow? c = some n) ∧
    g.classLevel g.root = .finite h ∧ Picks.HasHeight g (term.picks g) g.root h ∧
    ∀ most : Int, complete? g (some most.toNat) (Tracker.start g) =
      if (term.assignment.length : Int) ≤ most then some u else none

/-- On every accepted e-graph, completion from the start needs no way back. -/
theorem completion_from_start_is_direct (accepted : g.Accepted) : Direct g := by
  have wf := accepted.wellFormed
  refine ⟨?_, ?_, ?_⟩
  · intro limit memory s reaches
    obtain ⟨place, rest, t, moves, waits, held, run, depth, steep⟩ :=
      reaches.ahead accepted (Backtrack.ahead_start wf memory)
    exact ⟨place, rest, t, moves, waits, held, run, depth, steep.not_deadEnd accepted⟩
  · intro limit memory
    obtain ⟨after, ending, ends, _, returned⟩ :=
      Backtrack.ends_returned wf (Tracker.inv_start wf) limit memory
    exact ⟨after, ending, ends, returned⟩
  · obtain ⟨h, level⟩ := accepted.root_finite
    obtain ⟨moves, u, run, terminal, steep, straight⟩ :=
      (Tracker.steep_start wf).explore accepted
    have pending := Tracker.pending_of_terminal terminal
    have size : (u.assignment g).length = moves.length := by
      rw [steep.length_assignment, run.length_order wf (Tracker.inv_start wf)]
      simp [Tracker.start]
    have searched : ∀ limit, complete? g limit (Tracker.start g) =
        if limit.any fun most => decide (most < moves.length) then none else some u := by
      intro limit
      rw [complete?, searchCompletion, straight limit 0 (fun _ _ => Nat.zero_le _), Nat.zero_add,
        Search.down]
      by_cases reached : (limit.any fun most => decide (most < moves.length)) = true <;>
        simp [reached]
    refine ⟨u, ⟨u.assignment g⟩, h, searched none, Tracker.toTerm_of_terminal terminal,
      steep.first, level, ?_, ?_⟩
    · rw [steep.picks_assignment wf]
      exact accepted.leveled.hasHeight_of_falling (Picks.isTerm_iff.mp (steep.isTerm pending))
        (fun _ _ => steep.falls accepted) level
    · intro most
      have rooted := (steep.mem_order g.root).mpr (steep.done pending).2
      have positive := List.length_pos_of_mem rooted
      rw [← steep.length_assignment, size] at positive
      rw [searched, size, Option.any_some]
      by_cases enough : (moves.length : Int) ≤ most
      · rw [if_pos enough, if_neg (by simp only [decide_eq_true_eq]; omega)]
      · rw [if_neg enough, if_pos (by simp only [decide_eq_true_eq]; omega)]

theorem completion_from_start_is_direct_loop :
    EGraph.loopGraph.Accepted ∧ Direct EGraph.loopGraph :=
  ⟨EGraph.loopGraph_accepted, completion_from_start_is_direct EGraph.loopGraph_accepted⟩

end EGraphSearch
