import EGraphSearch.Proofs.Term.Dependencies
import EGraphSearch.Proofs.Tracker.Exclusion
import EGraphSearch.Proofs.Tracker.Twins

/-!
# The frontier is the worklist

The frontier is computed from the frames on the stack: it lists the open children that no frame has
passed yet.  Nothing is lost by this, since what a frame has passed is finished, and so is all that
a popped frame referred to.  In every tracker that legal moves lead to, the frontier is therefore
the list of the open children of chosen nodes, and a move puts the open children of its node in the
place of the pending class.
-/

set_option autoImplicit false

namespace EGraphSearch

/-! ## Lists without repetition -/

theorem eraseDups_concat (xs : List Nat) (x : Nat) :
    (xs ++ [x]).eraseDups = if x ∈ xs then xs.eraseDups else xs.eraseDups ++ [x] := by
  rw [List.eraseDups_append]
  by_cases listed : x ∈ xs <;> simp [List.removeAll, listed, List.eraseDups_cons]

theorem eraseDups_cons_self (x : Nat) (xs : List Nat) :
    (x :: x :: xs).eraseDups = (x :: xs).eraseDups := by
  simp [List.eraseDups_cons]

theorem eraseDups_filter (keep : Nat → Bool) (xs : List Nat) :
    (xs.filter keep).eraseDups = xs.eraseDups.filter keep := by
  -- one step removes the later copies of the head, so the induction is on the length
  suffices bounded : ∀ k, ∀ xs : List Nat, xs.length < k →
      (xs.filter keep).eraseDups = xs.eraseDups.filter keep from
    bounded _ xs (Nat.lt_succ_self _)
  intro k
  induction k with
  | zero => exact fun _ small => absurd small (Nat.not_lt_zero _)
  | succ k ih =>
      intro xs small
      cases xs with
      | nil => rfl
      | cons x rest =>
          have shorter := List.length_filter_le (fun y => !y == x) rest
          have later := ih (rest.filter fun y => !y == x) (by simp at small; omega)
          rw [List.eraseDups_cons]
          cases kept : keep x with
          | true =>
              rw [List.filter_cons_of_pos kept, List.filter_cons_of_pos kept, List.eraseDups_cons,
                ← later, List.filter_filter, List.filter_filter]
              simp only [Bool.and_comm]
          | false =>
              have dropped : ¬ keep x = true := by simp [kept]
              rw [List.filter_cons_of_neg dropped, List.filter_cons_of_neg dropped, ← later,
                List.filter_filter]
              congr 1
              refine List.filter_congr fun y _ => ?_
              by_cases same : y = x <;> simp [same, kept]

theorem eraseDups_append_filter (xs ys : List Nat) :
    (xs ++ ys).eraseDups =
      xs.eraseDups ++ ys.eraseDups.filter fun y => !xs.eraseDups.contains y := by
  rw [List.eraseDups_append, List.removeAll, eraseDups_filter]
  congr 1
  refine List.filter_congr fun y _ => ?_
  simp [List.elem_eq_contains, List.contains_eq_mem]

namespace Tracker

variable {g : EGraph} {t u : Tracker} {p n : Nat}

/-! ## What the frames wait for -/

/-- The children that the frames have not passed yet, those of the innermost frame first. -/
def ahead (g : EGraph) (stack : List Frame) : List Nat :=
  stack.flatMap fun frame => (g.childrenOf frame.node).drop frame.position

theorem foldl_appendOpen (children : List Nat) : ∀ found : List Nat,
    children.foldl t.appendOpen found.eraseDups =
      (found ++ children.filter t.isOpen).eraseDups := by
  induction children with
  | nil => simp
  | cons c rest ih =>
      intro found
      rw [List.foldl_cons]
      have one : t.appendOpen found.eraseDups c =
          (found ++ [c].filter t.isOpen).eraseDups := by
        unfold appendOpen
        cases isOpen : t.isOpen c with
        | false => simp [isOpen]
        | true =>
            rw [List.filter_cons_of_pos isOpen, List.filter_nil, eraseDups_concat]
            by_cases listed : c ∈ found <;> simp [listed]
      rw [one, ih, List.append_assoc, ← List.filter_append, List.singleton_append]

theorem foldl_frames (g : EGraph) (t : Tracker) :
    t.stack.foldl (fun found frame =>
        ((g.childrenOf frame.node).drop frame.position).foldl t.appendOpen found) [] =
      ((ahead g t.stack).filter t.isOpen).eraseDups := by
  rw [← List.foldl_flatMap]
  exact foldl_appendOpen _ []

theorem Inv.ahead_of_pending (inv : Inv g t) (pending : t.pending = some p)
    (entered : t.stack ≠ []) :
    ∃ more, (ahead g t.stack).filter t.isOpen = p :: more := by
  obtain ⟨isOpen, waits⟩ := inv.waiting p pending
  cases stack : t.stack with
  | nil => exact absurd stack entered
  | cons frame below =>
      rw [stack] at waits
      obtain ⟨inside, atPosition⟩ := List.getElem?_eq_some_iff.mp waits.1
      rw [ahead, List.flatMap_cons, List.drop_eq_getElem_cons inside, atPosition, List.cons_append,
        List.filter_cons_of_pos isOpen]
      exact ⟨_, rfl⟩

theorem Inv.frontier_eq (inv : Inv g t) : t.frontier g =
    (t.pending.toList ++ (ahead g t.stack).filter t.isOpen).eraseDups := by
  unfold frontier
  simp only [foldl_frames]
  cases pending : t.pending with
  | none => simp
  | some p =>
      by_cases entered : t.stack = []
      · simp [entered, ahead, List.eraseDups_cons]
      · obtain ⟨more, opens⟩ := inv.ahead_of_pending pending entered
        have listed : p ∈ (p :: more).eraseDups := by simp
        simp only [opens, List.contains_iff_mem.mpr listed, if_true, Option.toList_some,
          List.singleton_append, eraseDups_cons_self]

/-! ## What the frontier lists -/

theorem Inv.fresh (inv : Inv g t) (unresolved : t.order = []) :
    t.stack = [] ∧ t.pending = some g.root := by
  have noChoice : ∀ c, t.choice c = none := by
    intro c
    have absent := inv.mem_order c
    simpa [unresolved] using absent
  have noFrames : t.stack = [] := by
    refine List.eq_nil_iff_forall_not_mem.mpr fun frame member => ?_
    have chosen := inv.chosen frame member
    simp [noChoice] at chosen
  refine ⟨noFrames, ?_⟩
  cases pending : t.pending with
  | none =>
      have rooted := (inv.done pending).2
      simp [noChoice] at rooted
  | some p =>
      have waits := (inv.waiting p pending).2
      rw [noFrames] at waits
      exact congrArg some waits

theorem Inv.stack_ne_nil (inv : Inv g t) (pending : t.pending = some p) (resolved : t.order ≠ []) :
    t.stack ≠ [] := by
  intro noFrames
  obtain ⟨isOpen, waits⟩ := inv.waiting p pending
  rw [noFrames] at waits
  have waits : p = g.root := waits
  obtain ⟨c, first⟩ := List.exists_mem_of_ne_nil _ resolved
  have chosen := (inv.mem_order c).mp first
  -- every resolved class is below the root, and an open root uses nothing
  have rootOpen := (isOpen_iff.mp isOpen).2
  rcases (inv.connected c chosen).cases_head with same | ⟨d, ⟨m, picked, _⟩, _⟩
  · simp [← same, ← waits, rootOpen] at chosen
  · simp [← waits, rootOpen] at picked

/-- An open child of a chosen node is ahead of a frame: all other children are finished. -/
theorem Inv.mem_ahead (inv : Inv g t) {a c : Nat} (isOpen : t.isOpen c = true)
    (uses : Picks.Uses g t.choice a c) : c ∈ ahead g t.stack := by
  obtain ⟨n, chosen, child⟩ := uses
  have unfinished : ¬ t.Finished c := by
    intro finished
    simp [Finished, (isOpen_iff.mp isOpen).2] at finished
  have working : t.inProgress a = true := by
    by_contra idle
    exact unfinished (inv.closed a c ⟨by simp [chosen], by simpa using idle⟩ ⟨n, chosen, child⟩)
  obtain ⟨frame, member, rfl⟩ := List.mem_map.mp ((inv.inProgress_iff a).mp working)
  cases (inv.chosen frame member).symm.trans chosen
  rw [← List.take_append_drop frame.position (g.childrenOf frame.node)] at child
  rcases List.mem_append.mp child with before | after
  · exact absurd (inv.passed frame member c before) unfinished
  · exact List.mem_flatMap.mpr ⟨frame, member, after⟩

theorem Inv.uses_of_mem_ahead (inv : Inv g t) {c : Nat} (listed : c ∈ ahead g t.stack) :
    ∃ a, Picks.Uses g t.choice a c := by
  obtain ⟨frame, member, after⟩ := List.mem_flatMap.mp listed
  exact ⟨frame.cls, frame.node, inv.chosen frame member, List.mem_of_mem_drop after⟩

theorem Inv.mem_frontier_iff (inv : Inv g t) (resolved : t.order ≠ []) (c : Nat) :
    c ∈ t.frontier g ↔ t.isOpen c = true ∧ ∃ a, Picks.Uses g t.choice a c := by
  rw [inv.frontier_eq, List.mem_eraseDups, List.mem_append, List.mem_filter, Option.mem_toList]
  constructor
  · rintro (pending | ⟨listed, isOpen⟩)
    · obtain ⟨more, opens⟩ := inv.ahead_of_pending pending (inv.stack_ne_nil pending resolved)
      have first : c ∈ (ahead g t.stack).filter t.isOpen := by simp [opens]
      exact ⟨(inv.waiting c pending).1, inv.uses_of_mem_ahead (List.mem_filter.mp first).1⟩
    · exact ⟨isOpen, inv.uses_of_mem_ahead listed⟩
  · rintro ⟨isOpen, a, uses⟩
    exact .inr ⟨inv.mem_ahead isOpen uses, isOpen⟩

theorem Inv.frontier_of_fresh (inv : Inv g t) (unresolved : t.order = []) :
    t.frontier g = [g.root] := by
  obtain ⟨noFrames, pending⟩ := inv.fresh unresolved
  simp [inv.frontier_eq, noFrames, pending, ahead, List.eraseDups_cons]

theorem Inv.frontier_of_pending (inv : Inv g t) (pending : t.pending = some p) : t.frontier g =
    p :: ((ahead g t.stack).filter fun c => c != p && t.isOpen c).eraseDups := by
  rw [inv.frontier_eq, pending, Option.toList_some, List.singleton_append, List.eraseDups_cons,
    List.filter_filter]
  rfl

theorem Inv.head?_frontier (inv : Inv g t) : (t.frontier g).head? = t.pending := by
  cases pending : t.pending with
  | none => simp [inv.frontier_eq, pending, (inv.done pending).1, ahead]
  | some p => rw [inv.frontier_of_pending pending, List.head?_cons]

theorem Inv.frontier_lt (inv : Inv g t) {c : Nat} (listed : c ∈ t.frontier g) :
    c < g.numClasses := by
  rw [inv.frontier_eq, List.mem_eraseDups, List.mem_append, List.mem_filter,
    Option.mem_toList] at listed
  rw [← inv.assigned_size]
  rcases listed with pending | ⟨_, isOpen⟩
  · exact (isOpen_iff.mp (inv.waiting c pending).1).1
  · exact (isOpen_iff.mp isOpen).1

/-! ## One move -/

/-- What the search passes before an open class is not open. -/
theorem firstOpen_filter (children : List Nat) : ∀ {position : Nat} {found : Option (Nat × Nat)},
    t.firstOpen g children position = .ok found →
    (found = none → children.filter t.isOpen = []) ∧
      ∀ child next, found = some (child, next) → ∃ k, next = position + k ∧
        (children.drop k).filter t.isOpen = children.filter t.isOpen := by
  induction children with
  | nil =>
      intro position found looked
      cases looked
      simp
  | cons c rest ih =>
      intro position found looked
      simp only [firstOpen] at looked
      split at looked
      · cases looked
        refine ⟨by simp, fun child next same => ?_⟩
        cases same
        exact ⟨0, rfl, rfl⟩
      · rename_i notOpen
        split at looked
        · simp at looked
        · obtain ⟨none_, some_⟩ := ih looked
          rw [List.filter_cons_of_neg notOpen]
          refine ⟨none_, fun child next same => ?_⟩
          obtain ⟨k, rfl, later⟩ := some_ child next same
          exact ⟨k + 1, by omega, by simpa using later⟩

/-- The search for the next class drops nothing that is open. -/
theorem ahead_of_advance (stack : List Frame) : ∀ {t : Tracker}, t.advance g stack = .ok u →
    (ahead g u.stack).filter t.isOpen = (ahead g stack).filter t.isOpen := by
  induction stack with
  | nil =>
      intro t advanced
      cases advanced
      rfl
  | cons frame below ih =>
      intro t advanced
      simp only [advance] at advanced
      split at advanced
      · simp at advanced
      · rename_i child next looked
        cases advanced
        obtain ⟨k, rfl, later⟩ := (firstOpen_filter _ looked).2 child next rfl
        rw [List.drop_drop] at later
        simp only [ahead, List.flatMap_cons, List.filter_append, later]
      · rename_i looked
        have rest : (ahead g u.stack).filter t.isOpen = (ahead g below).filter t.isOpen :=
          ih (t := { t with onPath := t.onPath.setIfInBounds frame.cls false }) advanced
        rw [rest, ahead, ahead, List.flatMap_cons, List.filter_append,
          (firstOpen_filter _ looked).1 rfl, List.nil_append]

theorem ahead_entered (t : Tracker) (p n : Nat) :
    ahead g ((t.assign p n).enter g p n).stack = g.childrenOf n ++ ahead g t.stack := by
  unfold enter
  split
  · rename_i leaf
    rw [List.isEmpty_iff.mp leaf]
    rfl
  · rfl

/-- The open children of a node, each listed once. -/
def openChildren (g : EGraph) (t : Tracker) (n : Nat) : List Nat :=
  ((g.childrenOf n).filter t.isOpen).eraseDups

theorem isOpen_of_advance {stack : List Frame} (advanced : t.advance g stack = .ok u) :
    u.isOpen = t.isOpen := by
  funext c
  rw [isOpen, isOpen, advance_assigned advanced]

/-- The open children of the chosen node take the place of the pending class. -/
theorem Inv.frontier_of_apply (wf : g.toArena.WellFormed) (inv : Inv g t)
    (applied : t.apply g n = .ok u) : u.frontier g = t.openChildren g n ++
      (t.frontier g).tail.filter fun c => !(t.openChildren g n).contains c := by
  obtain ⟨p, pending, lt, legal, invNext, order, _⟩ := inv.of_apply wf applied
  obtain ⟨isOpen, _, _, children⟩ := isLegalFor_iff.mp legal
  have advanced := advance_of_apply lt pending legal applied
  have opens : u.isOpen = fun c => c != p && t.isOpen c := by
    rw [isOpen_of_advance advanced]
    funext c
    exact isOpen_entered isOpen c
  have resolved : u.order ≠ [] := by simp [order]
  have next : u.frontier g = ((ahead g u.stack).filter u.isOpen).eraseDups := by
    rw [invNext.frontier_eq]
    cases pendingNext : u.pending with
    | none => simp
    | some q =>
        obtain ⟨more, first⟩ := invNext.ahead_of_pending pendingNext
          (invNext.stack_ne_nil pendingNext resolved)
        rw [first, Option.toList_some, List.singleton_append, eraseDups_cons_self]
  have aheadNext : (ahead g u.stack).filter u.isOpen =
      (g.childrenOf n).filter t.isOpen ++ (ahead g t.stack).filter u.isOpen := by
    rw [isOpen_of_advance advanced, ahead_of_advance _ advanced, ← isOpen_of_advance advanced,
      ahead_entered, List.filter_append]
    refine congrArg (· ++ _) (List.filter_congr fun d child => ?_)
    simp [opens, (children d child).1]
  rw [next, aheadNext, eraseDups_append_filter, inv.frontier_of_pending pending, List.tail_cons,
    opens]
  rfl

/-! ## The worklist -/

/-- The frontier is the list of what is referred to and not resolved. -/
structure Worklist (g : EGraph) (t : Tracker) : Prop where
  nodup : (t.frontier g).Nodup
  /-- The classes listed have different names. -/
  names_distinct : ((t.frontier g).map g.classLabel).Pairwise fun x y => (x == y) = false
  fresh : t.order = [] → t.frontier g = [g.root]
  mem_iff : t.order ≠ [] → ∀ c, c ∈ t.frontier g ↔
    t.isOpen c = true ∧ ∃ a n, t.choice a = some n ∧ c ∈ g.childrenOf n
  empty_iff : t.frontier g = [] ↔ t.isTerminal = true
  head_eq : (t.frontier g).head? = t.pending
  first_name : ((t.frontier g).map g.classLabel).head? = t.pendingLabel g
  /-- A move replaces the pending class by the open children of its node. -/
  next : ∀ n ∈ t.legalMoves g, ∃ u, t.apply g n = .ok u ∧ u.frontier g = t.openChildren g n ++
    (t.frontier g).tail.filter fun c => !(t.openChildren g n).contains c

theorem Inv.worklist (wf : g.toArena.WellFormed) (inv : Inv g t) : Worklist g t := by
  have nodup : (t.frontier g).Nodup := inv.frontier_eq ▸ nodup_eraseDups _
  refine ⟨nodup, ?_, inv.frontier_of_fresh, inv.mem_frontier_iff, ?_, inv.head?_frontier, ?_, ?_⟩
  · rw [List.pairwise_map]
    refine nodup.imp_of_mem fun {c d} first second apart => ?_
    rw [Label.beq_false_iff_key_ne]
    exact fun same =>
      apart (EGraph.classLabel_inj wf (inv.frontier_lt first) (inv.frontier_lt second) same)
  · rw [← List.head?_eq_none_iff, inv.head?_frontier, isTerminal, Option.isNone_iff_eq_none]
  · rw [List.head?_map, inv.head?_frontier, pendingLabel]
  · intro n legal
    obtain ⟨u, applied, _⟩ := apply_of_mem_legalMoves wf inv legal
    exact ⟨u, applied, inv.frontier_of_apply wf applied⟩

/-- Whatever legal moves were made, the frontier is exactly what is left to resolve. -/
theorem frontier_lists_exactly_the_waiting (accepted : g.Accepted) {moves : List Nat}
    (run : Leads g (start g) moves t) : Worklist g t :=
  (run.inv accepted.wellFormed (inv_start accepted.wellFormed)).worklist accepted.wellFormed

/-- A node with a repeated child, and a class that two nodes refer to. -/
def sharingGraph : EGraph where
  classIds := #[.text "a", .text "b", .text "c"]
  nodeIds := #[.text "f", .text "g", .text "x"]
  ops := #[.text "f", .text "g", .text "x"]
  children := #[[1, 2, 1], [2], []]
  owner := #[0, 1, 2]
  members := #[[0], [1], [2]]
  root := 0
  levels := ⟨#[.finite 2, .finite 1, .finite 0], #[.finite 2, .finite 1, .finite 0]⟩

theorem sharingGraph_accepted : sharingGraph.Accepted := by
  have arranged : EGraph.arrange
      [⟨.text "a", [.text "f"]⟩, ⟨.text "b", [.text "g"]⟩, ⟨.text "c", [.text "x"]⟩]
      [⟨.text "f", .text "f", [.text "b", .text "c", .text "b"]⟩,
        ⟨.text "g", .text "g", [.text "c"]⟩, ⟨.text "x", .text "x", []⟩] (.text "a") =
      .ok sharingGraph.toArena := by
    with_unfolding_all rfl
  exact .of_settled arranged 4 rfl ⟨2, rfl⟩

/-- One move into the graph: `b` and `c` wait, and resolving `b` adds nothing. -/
def insideSharing : Tracker :=
  ⟨#[some 0, none, none], [0], #[true, false, false], [⟨0, 0, 0⟩], some 1⟩

theorem frontier_lists_exactly_the_waiting_sharing :
    sharingGraph.Accepted ∧ Leads sharingGraph (start sharingGraph) [0] insideSharing ∧
      insideSharing.frontier sharingGraph = [1, 2] ∧
      insideSharing.openChildren sharingGraph 1 = [2] ∧ Worklist sharingGraph insideSharing := by
  have run : Leads sharingGraph (start sharingGraph) [0] insideSharing :=
    .move (by decide) rfl (.stay _)
  exact ⟨sharingGraph_accepted, run, by decide, by decide,
    frontier_lists_exactly_the_waiting sharingGraph_accepted run⟩

end Tracker

end EGraphSearch
