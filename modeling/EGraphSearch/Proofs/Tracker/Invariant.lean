import EGraphSearch.Proofs.Term.Picks
import EGraphSearch.Tracker

/-!
# The invariant of the tracker

A class is finished if it has a node and is not in progress; its whole subterm is then resolved.
`Core` says this of a tracker with a given stack, also while finished frames are being popped, and
`Inv` adds what the tracker waits for.  Legal moves keep `Inv`, and they never fail.
-/

set_option autoImplicit false

namespace EGraphSearch

open Relation (TransGen ReflTransGen)

/-! ## One more pick -/

namespace Picks

variable {g : EGraph} {f f' : Picks} {p n : Nat}

/-- A pick for an open class closes no cycle if its children are open or lie in a closed set. -/
theorem acyclic_insert (acyclic : ∀ c, ¬ TransGen (f.Uses g) c c)
    (here : f' p = some n) (elsewhere : ∀ c, c ≠ p → f' c = f c) (done : Nat → Prop)
    (done_closed : ∀ c d, done c → f.Uses g c d → done d) (not_done : ¬ done p)
    (children : ∀ d ∈ g.childrenOf n, d ≠ p ∧ (done d ∨ f d = none)) :
    ∀ c, ¬ TransGen (f'.Uses g) c c := by
  have old_use : ∀ c d, c ≠ p → f'.Uses g c d → f.Uses g c d := by
    rintro c d other ⟨m, picked, child⟩
    exact ⟨m, by rwa [elsewhere c other] at picked, child⟩
  -- below the new node everything is done or open, and `p` is neither
  have below : ∀ a b, (a ≠ p ∧ (done a ∨ f a = none)) → f'.Uses g a b →
      f.Uses g a b ∧ b ≠ p ∧ (done b ∨ f b = none) := by
    rintro a b ⟨other, state⟩ uses
    have uses := old_use a b other uses
    have doneHere : done a := by
      rcases state with doneHere | openHere
      · exact doneHere
      · obtain ⟨m, picked, _⟩ := uses
        simp [openHere] at picked
    have doneNext := done_closed a b doneHere uses
    exact ⟨uses, fun same => not_done (same ▸ doneNext), .inl doneNext⟩
  have stays : ∀ a b, (a ≠ p ∧ (done a ∨ f a = none)) → TransGen (f'.Uses g) a b →
      TransGen (f.Uses g) a b ∧ b ≠ p ∧ (done b ∨ f b = none) := by
    intro a b start walk
    induction walk with
    | single uses =>
        obtain ⟨uses, state⟩ := below _ _ start uses
        exact ⟨.single uses, state⟩
    | tail _ uses ih =>
        obtain ⟨walked, state⟩ := ih
        obtain ⟨uses, state⟩ := below _ _ state uses
        exact ⟨walked.tail uses, state⟩
  have through : ∀ a b, TransGen (f'.Uses g) a b →
      TransGen (f.Uses g) a b ∨ (b ≠ p ∧ (done b ∨ f b = none)) := by
    have first : ∀ a b, f'.Uses g a b → f.Uses g a b ∨ (b ≠ p ∧ (done b ∨ f b = none)) := by
      intro a b uses
      by_cases same : a = p
      · obtain ⟨m, picked, child⟩ := uses
        rw [same, here] at picked
        cases picked
        exact .inr (children b child)
      · exact .inl (old_use a b same uses)
    intro a b walk
    induction walk with
    | single uses => exact (first _ _ uses).imp_left .single
    | tail _ uses ih =>
        rcases ih with walked | state
        · exact (first _ _ uses).imp_left walked.tail
        · exact .inr (below _ _ state uses).2
  intro c cycle
  rcases through c c cycle with old | state
  · exact acyclic c old
  · exact acyclic c (stays c c state cycle).1

end Picks

namespace Tracker

variable {g : EGraph} {t u : Tracker}

/-! ## The invariant -/

/-- The class and its whole subterm are resolved. -/
def Finished (t : Tracker) (c : Nat) : Prop := (t.choice c).isSome ∧ t.inProgress c = false

/-- The frames form a chain from the root to the class that the innermost one waits for. -/
def Waits (g : EGraph) (next : Nat) : List Frame → Prop
  | [] => next = g.root
  | frame :: below =>
    (g.childrenOf frame.node)[frame.position]? = some next ∧ Waits g frame.cls below

/-- What holds of a tracker with this stack, whatever it waits for. -/
structure Core (g : EGraph) (t : Tracker) (stack : List Frame) : Prop where
  assigned_size : t.assigned.size = g.numClasses
  onPath_size : t.onPath.size = g.numClasses
  order_nodup : t.order.Nodup
  mem_order : ∀ c, c ∈ t.order ↔ (t.choice c).isSome
  member : ∀ c n, t.choice c = some n →
    n < g.numNodes ∧ g.ownerOf n = c ∧ (g.nodeLevel n).isFinite = true
  inProgress_iff : ∀ c, t.inProgress c = true ↔ c ∈ stack.map Frame.cls
  distinct : (stack.map Frame.cls).Nodup
  chosen : ∀ frame ∈ stack, t.choice frame.cls = some frame.node
  passed : ∀ frame ∈ stack, ∀ c ∈ (g.childrenOf frame.node).take frame.position, t.Finished c
  closed : ∀ c d, t.Finished c → Picks.Uses g t.choice c d → t.Finished d
  acyclic : ∀ c, ¬ TransGen (Picks.Uses g t.choice) c c
  connected : ∀ c, (t.choice c).isSome → ReflTransGen (Picks.Uses g t.choice) g.root c

/-- What holds between moves. -/
structure Inv (g : EGraph) (t : Tracker) : Prop extends Core g t t.stack where
  waiting : ∀ p, t.pending = some p → t.isOpen p = true ∧ Waits g p t.stack
  done : t.pending = none → t.stack = [] ∧ (t.choice g.root).isSome

theorem isOpen_iff {c : Nat} : t.isOpen c = true ↔ c < t.assigned.size ∧ t.choice c = none := by
  unfold isOpen choice
  by_cases inside : c < t.assigned.size <;> simp [Array.getD, inside]

theorem choice_lt {c n : Nat} (chosen : t.choice c = some n) : c < t.assigned.size := by
  by_contra outside
  simp [choice, Array.getD, outside] at chosen

theorem Inv.isTerm (inv : Inv g t) (terminal : t.pending = none) :
    Picks.IsTerm g t.choice := by
  obtain ⟨noFrames, rooted⟩ := inv.done terminal
  have finished : ∀ c, (t.choice c).isSome → t.Finished c := by
    intro c chosen
    refine ⟨chosen, ?_⟩
    rw [← Bool.not_eq_true, inv.inProgress_iff c, noFrames]
    simp
  refine ⟨rooted, ?_, ?_, inv.acyclic, inv.connected⟩
  · intro c n chosen
    have inside := choice_lt chosen
    rw [inv.assigned_size] at inside
    exact ⟨inside, (inv.member c n chosen).1, (inv.member c n chosen).2.1⟩
  · intro c d uses
    exact (inv.closed c d (finished c uses.picked) uses).1

/-! ## Frames -/

section Frames

variable {stack below : List Frame} {next : Nat}

theorem Waits.reaches (waits : Waits g next stack)
    (chosen : ∀ frame ∈ stack, t.choice frame.cls = some frame.node) :
    ∀ c ∈ stack.map Frame.cls, TransGen (Picks.Uses g t.choice) c next := by
  induction stack generalizing next with
  | nil => simp
  | cons frame below ih =>
      obtain ⟨child, waitsBelow⟩ := waits
      have uses : Picks.Uses g t.choice frame.cls next :=
        ⟨frame.node, chosen frame (by simp), List.mem_of_getElem? child⟩
      intro c member
      rcases List.mem_cons.mp member with rfl | outer
      · exact .single uses
      · exact (ih waitsBelow (fun f hf => chosen f (by simp [hf])) c outer).tail uses

theorem Waits.root (waits : Waits g next stack) :
    next = g.root ∨ g.root ∈ stack.map Frame.cls := by
  induction stack generalizing next with
  | nil => exact .inl waits
  | cons frame below ih =>
      right
      rcases ih waits.2 with same | outer
      · simp [same]
      · exact List.mem_cons_of_mem _ outer

theorem Waits.connected (waits : Waits g next stack)
    (chosen : ∀ frame ∈ stack, t.choice frame.cls = some frame.node) :
    ReflTransGen (Picks.Uses g t.choice) g.root next := by
  rcases waits.root with rfl | outer
  · exact .refl
  · exact (waits.reaches chosen _ outer).to_reflTransGen

theorem Core.child_not_inProgress {frame : Frame} (core : Core g t (frame :: below))
    (waits : Waits g frame.cls below) {d : Nat} (child : d ∈ g.childrenOf frame.node) :
    t.inProgress d = false := by
  rw [← Bool.not_eq_true, core.inProgress_iff]
  intro member
  have uses : Picks.Uses g t.choice frame.cls d :=
    ⟨frame.node, core.chosen frame (by simp), child⟩
  rcases List.mem_cons.mp member with same | outer
  · rw [same] at uses
    exact core.acyclic _ (.single uses)
  · have reaches := waits.reaches (fun f hf => core.chosen f (by simp [hf])) d outer
    exact core.acyclic d (reaches.tail uses)

end Frames

/-! ## Looking for the next class -/

/-- Among classes that are not in progress, `firstOpen` finds the first open one. -/
theorem firstOpen_spec (children : List Nat) (position : Nat)
    (inside : ∀ c ∈ children, c < t.assigned.size)
    (idle : ∀ c ∈ children, t.inProgress c = false) :
    (t.firstOpen g children position = .ok none ∧ ∀ c ∈ children, t.Finished c) ∨
    ∃ child k, t.firstOpen g children position = .ok (some (child, position + k)) ∧
      children[k]? = some child ∧ t.isOpen child = true ∧
      ∀ c ∈ children.take k, t.Finished c := by
  induction children generalizing position with
  | nil => exact .inl ⟨rfl, by simp⟩
  | cons child rest ih =>
      simp only [firstOpen]
      cases isOpen : t.isOpen child with
      | true => exact .inr ⟨child, 0, rfl, rfl, isOpen, by simp⟩
      | false =>
          have idleHere := idle child (by simp)
          have finished : t.Finished child := by
            refine ⟨?_, idleHere⟩
            rw [← Bool.not_eq_true, isOpen_iff] at isOpen
            rw [Option.isSome_iff_ne_none]
            exact fun none_ => isOpen ⟨inside child (by simp), none_⟩
          simp only [Bool.false_eq_true, if_false, idleHere]
          rcases ih (position + 1) (fun c hc => inside c (by simp [hc]))
              (fun c hc => idle c (by simp [hc])) with
            ⟨found, all⟩ | ⟨c, k, found, at_, isOpen', all⟩
          · exact .inl ⟨found, by simpa using ⟨finished, all⟩⟩
          · refine .inr ⟨c, k + 1, ?_, by simpa using at_, isOpen', by simpa using ⟨finished, all⟩⟩
            rw [found, Nat.add_assoc, Nat.add_comm 1 k]

theorem Core.pop {frame : Frame} {below : List Frame} (core : Core g t (frame :: below))
    (finished : ∀ c ∈ g.childrenOf frame.node, t.Finished c) :
    Core g { t with onPath := t.onPath.setIfInBounds frame.cls false } below := by
  have inside : frame.cls < t.onPath.size := by
    rw [core.onPath_size, ← core.assigned_size]
    exact choice_lt (core.chosen frame (by simp))
  have progress : ∀ c, inProgress { t with onPath := t.onPath.setIfInBounds frame.cls false } c =
      if c = frame.cls then false else t.inProgress c := by
    intro c
    simp only [inProgress, Array.getD_eq_getD_getElem?, Array.getElem?_setIfInBounds]
    by_cases same : c = frame.cls
    · simp [same, inside]
    · simp [same, Ne.symm same]
  have keeps : ∀ c, t.Finished c →
      Finished { t with onPath := t.onPath.setIfInBounds frame.cls false } c := by
    rintro c ⟨chosen, idle⟩
    refine ⟨chosen, ?_⟩
    rw [progress, idle, ite_self]
  have fresh := (List.nodup_cons.mp core.distinct).1
  refine ⟨core.assigned_size, ?_, core.order_nodup, core.mem_order, core.member, ?_,
    (List.nodup_cons.mp core.distinct).2, fun f hf => core.chosen f (by simp [hf]),
    fun f hf c hc => keeps c (core.passed f (by simp [hf]) c hc), ?_, core.acyclic, core.connected⟩
  · simpa using core.onPath_size
  · intro c
    rw [progress]
    by_cases same : c = frame.cls
    · simpa [same] using fresh
    · rw [if_neg same, core.inProgress_iff]
      simp [same]
  · rintro c d ⟨chosen, idle⟩ uses
    by_cases same : c = frame.cls
    · obtain ⟨n, picked, child⟩ := uses
      have picked : t.choice c = some n := picked
      rw [same, core.chosen frame (by simp)] at picked
      cases picked
      exact keeps d (finished d child)
    · rw [progress, if_neg same] at idle
      exact keeps d (core.closed c d ⟨chosen, idle⟩ uses)

/-- Popping finished frames ends at a tracker that waits for an open class, or for none. -/
theorem advance_spec (wf : g.toArena.WellFormed) (stack : List Frame) :
    ∀ {t : Tracker}, Core g t stack →
      (∀ frame below, stack = frame :: below → Waits g frame.cls below) →
      (t.choice g.root).isSome →
      ∃ u, t.advance g stack = .ok u ∧ Inv g u ∧ u.assigned = t.assigned ∧ u.order = t.order := by
  induction stack with
  | nil =>
      intro t core _ rooted
      exact ⟨_, rfl, ⟨⟨core.assigned_size, core.onPath_size, core.order_nodup, core.mem_order,
        core.member, core.inProgress_iff, core.distinct, core.chosen, core.passed, core.closed,
        core.acyclic, core.connected⟩, by simp, fun _ => ⟨rfl, rooted⟩⟩, rfl, rfl⟩
  | cons frame below ih =>
      intro t core waits rooted
      have waits := waits frame below rfl
      have nodeInside := (core.member _ _ (core.chosen frame (by simp))).1
      have inside : ∀ c ∈ (g.childrenOf frame.node).drop frame.position, c < t.assigned.size := by
        intro c hc
        rw [core.assigned_size]
        exact wf.child_lt _ nodeInside c (List.mem_of_mem_drop hc)
      have idle : ∀ c ∈ (g.childrenOf frame.node).drop frame.position, t.inProgress c = false :=
        fun c hc => core.child_not_inProgress waits (List.mem_of_mem_drop hc)
      rcases firstOpen_spec (g := g) _ frame.position inside idle with
        ⟨found, all⟩ | ⟨child, k, found, at_, isOpen, all⟩
      · have finished : ∀ c ∈ g.childrenOf frame.node, t.Finished c := by
          intro c hc
          rw [← List.take_append_drop frame.position (g.childrenOf frame.node)] at hc
          rcases List.mem_append.mp hc with before | after
          · exact core.passed frame (by simp) c before
          · exact all c after
        have waitsBelow : ∀ f fs, below = f :: fs → Waits g f.cls fs := by
          rintro f fs rfl
          exact waits.2
        obtain ⟨u, advanced, inv, sameChoices, sameOrder⟩ :=
          ih (core.pop finished) waitsBelow rooted
        exact ⟨u, by simp only [advance, found]; exact advanced, inv, sameChoices, sameOrder⟩
      · rw [List.getElem?_drop] at at_
        refine ⟨{ t with
            stack := { frame with position := frame.position + k } :: below
            pending := some child },
          by simp only [advance, found], ⟨⟨core.assigned_size, core.onPath_size,
          core.order_nodup, core.mem_order, core.member, core.inProgress_iff, core.distinct, ?_, ?_,
          core.closed, core.acyclic, core.connected⟩, ?_, by simp⟩, rfl, rfl⟩
        · intro f hf
          rcases List.mem_cons.mp hf with rfl | outer
          · exact core.chosen frame (by simp)
          · exact core.chosen f (by simp [outer])
        · intro f hf c hc
          rcases List.mem_cons.mp hf with rfl | outer
          · rw [List.take_add] at hc
            rcases List.mem_append.mp hc with before | after
            · exact core.passed frame (by simp) c before
            · exact all c after
          · exact core.passed f (by simp [outer]) c hc
        · intro p same
          cases same
          exact ⟨isOpen, at_, waits⟩

/-! ## Moves -/

theorem isLegalFor_iff {p n : Nat} : t.isLegalFor g p n = true ↔
    t.isOpen p = true ∧ g.ownerOf n = p ∧ (g.nodeLevel n).isFinite = true ∧
      ∀ d ∈ g.childrenOf n, d ≠ p ∧ t.inProgress d = false := by
  simp [isLegalFor, and_assoc]

theorem mem_legalMoves_iff (wf : g.toArena.WellFormed) (inv : Inv g t) {n : Nat} :
    n ∈ t.legalMoves g ↔ ∃ p, t.pending = some p ∧ n < g.numNodes ∧
      t.isLegalFor g p n = true := by
  unfold legalMoves
  cases pending : t.pending with
  | none => simp
  | some p =>
      have inside : p < g.numClasses := by
        rw [← inv.assigned_size]
        exact (isOpen_iff.mp (inv.waiting p pending).1).1
      simp only [List.mem_filter, Option.some.injEq, exists_eq_left']
      constructor
      · rintro ⟨member, legal⟩
        exact ⟨wf.member_lt p inside n member, legal⟩
      · rintro ⟨lt, legal⟩
        exact ⟨(wf.member_iff p inside n lt).mpr (isLegalFor_iff.mp legal).2.1, legal⟩

theorem choice_assign {p : Nat} (n : Nat) (inside : p < t.assigned.size) (c : Nat) :
    (t.assign p n).choice c = if c = p then some n else t.choice c := by
  simp only [choice, assign, Array.getD_eq_getD_getElem?, Array.getElem?_setIfInBounds]
  by_cases same : c = p
  · simp [same, inside]
  · simp [same, Ne.symm same]

theorem choice_enter (p n c : Nat) : (t.enter g p n).choice c = t.choice c := by
  unfold enter
  split <;> rfl

/-! Just after a move, before finished frames are popped, the pending class has its node. -/

section Entered

variable {p n : Nat}

theorem choice_of_assign (isOpen : t.isOpen p = true) (n : Nat) {c m : Nat}
    (chosen : t.choice c = some m) : (t.assign p n).choice c = some m := by
  obtain ⟨inside, openHere⟩ := isOpen_iff.mp isOpen
  rw [choice_assign n inside, if_neg, chosen]
  rintro rfl
  simp [openHere] at chosen

theorem Finished.assign (isOpen : t.isOpen p = true) (n : Nat) {c : Nat} (finished : t.Finished c) :
    (t.assign p n).Finished c := by
  obtain ⟨m, chosen⟩ := Option.isSome_iff_exists.mp finished.1
  exact ⟨by simp [choice_of_assign isOpen n chosen], finished.2⟩

theorem Inv.order_assign (inv : Inv g t) (isOpen : t.isOpen p = true) (n : Nat) :
    (t.assign p n).order.Nodup ∧
      ∀ c, c ∈ (t.assign p n).order ↔ ((t.assign p n).choice c).isSome := by
  obtain ⟨inside, openHere⟩ := isOpen_iff.mp isOpen
  have appended : (t.assign p n).order = t.order ++ [p] := rfl
  rw [appended]
  constructor
  · refine inv.order_nodup.append (List.nodup_singleton p) ?_
    rw [List.disjoint_singleton, inv.mem_order, openHere]
    simp
  · intro c
    rw [choice_assign n inside, List.mem_append, inv.mem_order c]
    by_cases same : c = p <;> simp [same]

theorem Inv.member_assign (inv : Inv g t) (lt : n < g.numNodes)
    (legal : t.isLegalFor g p n = true) : ∀ c m, (t.assign p n).choice c = some m →
      m < g.numNodes ∧ g.ownerOf m = c ∧ (g.nodeLevel m).isFinite = true := by
  obtain ⟨isOpen, owner, level, _⟩ := isLegalFor_iff.mp legal
  intro c m chosen
  rw [choice_assign n (isOpen_iff.mp isOpen).1] at chosen
  split at chosen
  · rename_i same
    cases chosen
    exact ⟨lt, same ▸ owner, level⟩
  · exact inv.member c m chosen

theorem Inv.acyclic_assign (inv : Inv g t) (legal : t.isLegalFor g p n = true) :
    ∀ c, ¬ TransGen (Picks.Uses g (t.assign p n).choice) c c := by
  obtain ⟨isOpen, _, _, children⟩ := isLegalFor_iff.mp legal
  obtain ⟨inside, openHere⟩ := isOpen_iff.mp isOpen
  have choice := choice_assign (t := t) n inside
  refine Picks.acyclic_insert inv.acyclic (by rw [choice, if_pos rfl])
    (fun c other => by rw [choice, if_neg other]) t.Finished inv.closed
    (fun finished => by simp [Finished, openHere] at finished) ?_
  intro d child
  obtain ⟨other, idle⟩ := children d child
  refine ⟨other, ?_⟩
  cases state : t.choice d with
  | none => exact .inr rfl
  | some m => exact .inl ⟨by simp [state], idle⟩

theorem Inv.connected_assign (inv : Inv g t) (pending : t.pending = some p) (n : Nat) :
    ∀ c, ((t.assign p n).choice c).isSome →
      ReflTransGen (Picks.Uses g (t.assign p n).choice) g.root c := by
  obtain ⟨isOpen, waits⟩ := inv.waiting p pending
  have old := fun c m => choice_of_assign isOpen n (c := c) (m := m)
  intro c picked
  by_cases same : c = p
  · rw [same]
    exact waits.connected fun frame listed => old _ _ (inv.chosen frame listed)
  · rw [choice_assign n (isOpen_iff.mp isOpen).1, if_neg same] at picked
    exact ReflTransGen.mono (fun _ _ uses => Picks.Uses.mono old uses) _ _ (inv.connected c picked)

theorem Inv.entered_leaf (inv : Inv g t) (pending : t.pending = some p) (lt : n < g.numNodes)
    (legal : t.isLegalFor g p n = true) (leaf : g.childrenOf n = []) :
    Core g (t.assign p n) t.stack := by
  obtain ⟨isOpen, _⟩ := inv.waiting p pending
  obtain ⟨orderNodup, memOrder⟩ := inv.order_assign isOpen n
  refine ⟨by simpa [assign] using inv.assigned_size, inv.onPath_size, orderNodup, memOrder,
    inv.member_assign lt legal, inv.inProgress_iff, inv.distinct,
    fun frame listed => choice_of_assign isOpen n (inv.chosen frame listed),
    fun f hf c hc => (inv.passed f hf c hc).assign isOpen n, ?_, inv.acyclic_assign legal,
    inv.connected_assign pending n⟩
  rintro c d ⟨picked, idle⟩ ⟨m, pickedNode, child⟩
  rw [choice_assign n (isOpen_iff.mp isOpen).1] at picked pickedNode
  by_cases here : c = p
  · rw [if_pos here] at pickedNode
    cases pickedNode
    simp [leaf] at child
  · rw [if_neg here] at picked pickedNode
    exact (inv.closed c d ⟨picked, idle⟩ ⟨m, pickedNode, child⟩).assign isOpen n

theorem Inv.entered_frame (inv : Inv g t) (pending : t.pending = some p) (lt : n < g.numNodes)
    (legal : t.isLegalFor g p n = true) :
    Core g { t.assign p n with
      onPath := t.onPath.setIfInBounds p true, stack := ⟨p, n, 0⟩ :: t.stack }
      (⟨p, n, 0⟩ :: t.stack) := by
  obtain ⟨isOpen, _⟩ := inv.waiting p pending
  obtain ⟨inside, openHere⟩ := isOpen_iff.mp isOpen
  obtain ⟨orderNodup, memOrder⟩ := inv.order_assign isOpen n
  have insidePath : p < t.onPath.size := by
    rw [inv.onPath_size, ← inv.assigned_size]
    exact inside
  have notStack : p ∉ t.stack.map Frame.cls := by
    intro member
    obtain ⟨frame, listed, rfl⟩ := List.mem_map.mp member
    simp [inv.chosen frame listed] at openHere
  have progress : ∀ c, inProgress { t.assign p n with
      onPath := t.onPath.setIfInBounds p true, stack := ⟨p, n, 0⟩ :: t.stack } c =
        if c = p then true else t.inProgress c := by
    intro c
    simp only [inProgress, Array.getD_eq_getD_getElem?, Array.getElem?_setIfInBounds]
    by_cases same : c = p
    · simp [same, insidePath]
    · simp [same, Ne.symm same]
  have finishedNew : ∀ c, t.Finished c → Finished { t.assign p n with
      onPath := t.onPath.setIfInBounds p true, stack := ⟨p, n, 0⟩ :: t.stack } c := by
    intro c finished
    refine ⟨(finished.assign isOpen n).1, ?_⟩
    rw [progress, if_neg, finished.2]
    rintro rfl
    simp [Finished, openHere] at finished
  refine ⟨by simpa [assign] using inv.assigned_size, by simpa using inv.onPath_size, orderNodup,
    memOrder, inv.member_assign lt legal, ?_, List.nodup_cons.mpr ⟨notStack, inv.distinct⟩, ?_, ?_,
    ?_, inv.acyclic_assign legal, inv.connected_assign pending n⟩
  · intro c
    rw [progress]
    by_cases here : c = p
    · simp [here]
    · rw [if_neg here, inv.inProgress_iff]
      simp [here]
  · intro f hf
    rcases List.mem_cons.mp hf with rfl | outer
    · exact (choice_assign n inside p).trans (if_pos rfl)
    · exact choice_of_assign isOpen n (inv.chosen f outer)
  · intro f hf c hc
    rcases List.mem_cons.mp hf with rfl | outer
    · simp at hc
    · exact finishedNew c (inv.passed f outer c hc)
  · rintro c d ⟨picked, idle⟩ ⟨m, pickedNode, child⟩
    rw [progress] at idle
    by_cases here : c = p
    · simp [here] at idle
    · rw [if_neg here] at idle
      have picked : ((t.assign p n).choice c).isSome := picked
      have pickedNode : (t.assign p n).choice c = some m := pickedNode
      rw [choice_assign n inside, if_neg here] at picked pickedNode
      exact finishedNew d (inv.closed c d ⟨picked, idle⟩ ⟨m, pickedNode, child⟩)

theorem Inv.entered (inv : Inv g t) (pending : t.pending = some p) (lt : n < g.numNodes)
    (legal : t.isLegalFor g p n = true) :
    Core g ((t.assign p n).enter g p n) ((t.assign p n).enter g p n).stack := by
  unfold enter
  split
  · rename_i leaf
    exact inv.entered_leaf pending lt legal (List.isEmpty_iff.mp leaf)
  · exact inv.entered_frame pending lt legal

end Entered

/-- A legal move succeeds, resolves the pending class only, and keeps the invariant. -/
theorem apply_spec (wf : g.toArena.WellFormed) (inv : Inv g t) {p n : Nat}
    (pending : t.pending = some p) (lt : n < g.numNodes) (legal : t.isLegalFor g p n = true) :
    ∃ u, t.apply g n = .ok u ∧ Inv g u ∧ u.order = t.order ++ [p] ∧
      ∀ c, u.choice c = if c = p then some n else t.choice c := by
  obtain ⟨isOpen, _⟩ := isLegalFor_iff.mp legal
  obtain ⟨inside, _⟩ := isOpen_iff.mp isOpen
  obtain ⟨_, waits⟩ := inv.waiting p pending
  have core := inv.entered pending lt legal
  have choice : ∀ c, ((t.assign p n).enter g p n).choice c =
      if c = p then some n else t.choice c := by
    intro c
    rw [choice_enter, choice_assign n inside]
  have waitsNext : ∀ frame below, ((t.assign p n).enter g p n).stack = frame :: below →
      Waits g frame.cls below := by
    intro frame below same
    unfold enter at same
    split at same
    · have same : t.stack = frame :: below := same
      rw [same] at waits
      exact waits.2
    · obtain ⟨rfl, rfl⟩ := List.cons.inj same
      exact waits
  have rooted : (((t.assign p n).enter g p n).choice g.root).isSome := by
    rw [choice]
    rcases waits.root with same | outer
    · simp [same]
    · split
      · rfl
      · obtain ⟨frame, listed, same⟩ := List.mem_map.mp outer
        simp [← same, inv.chosen frame listed]
  obtain ⟨u, advanced, invNext, sameChoices, sameOrder⟩ := advance_spec wf _ core waitsNext rooted
  refine ⟨u, by simp [apply, lt, pending, legal, advanced], invNext, ?_, ?_⟩
  · rw [sameOrder]
    unfold enter
    split <;> rfl
  · intro c
    rw [← choice c]
    simp only [Tracker.choice, sameChoices]

theorem mem_legalMoves_of_apply (wf : g.toArena.WellFormed) (inv : Inv g t) {n : Nat}
    (applied : t.apply g n = .ok u) : n ∈ t.legalMoves g := by
  rw [mem_legalMoves_iff wf inv]
  unfold apply at applied
  split at applied
  · rename_i lt
    split at applied
    · rename_i p pending
      split at applied
      · rename_i legal
        exact ⟨p, pending, lt, legal⟩
      · simp at applied
    · simp at applied
  · simp at applied

theorem Inv.of_apply (wf : g.toArena.WellFormed) (inv : Inv g t) {n : Nat}
    (applied : t.apply g n = .ok u) :
    ∃ p, t.pending = some p ∧ n < g.numNodes ∧ t.isLegalFor g p n = true ∧ Inv g u ∧
      u.order = t.order ++ [p] ∧ ∀ c, u.choice c = if c = p then some n else t.choice c := by
  obtain ⟨p, pending, lt, legal⟩ :=
    (mem_legalMoves_iff wf inv).mp (mem_legalMoves_of_apply wf inv applied)
  obtain ⟨v, appliedAgain, invNext, order, choice⟩ := apply_spec wf inv pending lt legal
  cases Except.ok.inj (applied.symm.trans appliedAgain)
  exact ⟨p, pending, lt, legal, invNext, order, choice⟩

theorem apply_of_mem_legalMoves (wf : g.toArena.WellFormed) (inv : Inv g t) {n : Nat}
    (legal : n ∈ t.legalMoves g) : ∃ u, t.apply g n = .ok u ∧ Inv g u := by
  obtain ⟨p, pending, lt, legal⟩ := (mem_legalMoves_iff wf inv).mp legal
  obtain ⟨u, applied, invNext, _⟩ := apply_spec wf inv pending lt legal
  exact ⟨u, applied, invNext⟩

/-! ## The start -/

theorem choice_start (c : Nat) : (start g).choice c = none := by
  by_cases inside : c < g.numClasses <;> simp [choice, start, Array.getD, inside]

theorem inv_start (wf : g.toArena.WellFormed) : Inv g (start g) := by
  have noUses : ∀ c d, ¬ Picks.Uses g (start g).choice c d := by
    rintro c d ⟨n, picked, _⟩
    simp [choice_start] at picked
  refine ⟨⟨by simp [start], by simp [start], by simp [start], ?_, ?_, ?_, by simp [start],
    by simp [start], by simp [start], ?_, ?_, ?_⟩, ?_, by simp [start]⟩
  · intro c
    rw [choice_start]
    simp [start]
  · intro c n chosen
    simp [choice_start] at chosen
  · intro c
    by_cases inside : c < g.numClasses <;> simp [inProgress, start, Array.getD, inside]
  · intro c d _ uses
    exact absurd uses (noUses c d)
  · intro c cycle
    obtain ⟨d, uses, _⟩ := TransGen.head'_iff.mp cycle
    exact noUses c d uses
  · intro c chosen
    simp [choice_start] at chosen
  · intro p same
    cases same
    refine ⟨isOpen_iff.mpr ⟨?_, choice_start _⟩, rfl⟩
    simpa [start] using wf.root_lt

end Tracker

end EGraphSearch
