import EGraphSearch.Term

/-!
# The tracker of a partial extraction

Extraction starts at the root and resolves classes depth first: the next class to resolve is the
first unresolved child of the node on top of the stack.  A class stays on the ancestor path while
its children are being resolved, so a move whose node refers to an ancestor would close a cycle;
such moves are not legal.  A dead end is a pending class without a legal move.
-/

set_option autoImplicit false

namespace EGraphSearch

/-- A class in progress: the node chosen for it and the position of the child it is waiting for. -/
structure Frame where
  cls : Nat
  node : Nat
  position : Nat
  deriving DecidableEq, Repr

structure Tracker where
  /-- The node chosen for each class. -/
  assigned : Array (Option Nat)
  /-- The resolved classes, in order of resolution. -/
  order : List Nat
  /-- The classes whose subterm is in progress. -/
  onPath : Array Bool
  /-- The frames of these classes, innermost first. -/
  stack : List Frame
  /-- The class to resolve next. -/
  pending : Option Nat
  deriving DecidableEq, Repr

namespace Tracker

def start (g : EGraph) : Tracker :=
  { assigned := Array.replicate g.numClasses none
    order := []
    onPath := Array.replicate g.numClasses false
    stack := []
    pending := some g.root }

def choice (t : Tracker) (c : Nat) : Option Nat := t.assigned.getD c none

def isOpen (t : Tracker) (c : Nat) : Bool := t.assigned[c]? == some none

def inProgress (t : Tracker) (c : Nat) : Bool := t.onPath.getD c false

def isTerminal (t : Tracker) : Bool := t.pending.isNone

def numAssigned (t : Tracker) : Nat := t.order.length

def openCount (t : Tracker) : Nat := t.assigned.toList.countP (· == none)

/-! ## Moves -/

/-- Whether the node may be chosen for the open class `p`: it is a node of that class, it has a
finite level, and none of its children is `p` or an ancestor. -/
def isLegalFor (g : EGraph) (t : Tracker) (p n : Nat) : Bool :=
  t.isOpen p && g.ownerOf n == p && (g.nodeLevel n).isFinite &&
    (g.childrenOf n).all fun child => child != p && !t.inProgress child

/-- Whether choosing the node for the pending class keeps the term acyclic. -/
def isLegal (g : EGraph) (t : Tracker) (n : Nat) : Bool :=
  match t.pending with
  | none => false
  | some p => t.isLegalFor g p n

def legalMoves (g : EGraph) (t : Tracker) : List Nat :=
  match t.pending with
  | none => []
  | some p => (g.membersOf p).filter (t.isLegalFor g p)

def isDeadEnd (g : EGraph) (t : Tracker) : Bool := !t.isTerminal && (t.legalMoves g).isEmpty

/-- Where the first open child stands among children of which `position` have been passed. -/
def firstOpen (g : EGraph) (t : Tracker) : List Nat → Nat → Except Fault (Option (Nat × Nat))
  | [], _ => .ok none
  | child :: rest, position =>
    if t.isOpen child then .ok (some (child, position))
    else if t.inProgress child then .error (.violation (.closesCycle (g.classLabel child)))
    else firstOpen g t rest (position + 1)

/-- Finds the next class to resolve; frames without an open child are finished and popped. -/
def advance (g : EGraph) (t : Tracker) : List Frame → Except Fault Tracker
  | [] => .ok { t with stack := [], pending := none }
  | frame :: below =>
    match t.firstOpen g ((g.childrenOf frame.node).drop frame.position) frame.position with
    | .error fault => .error fault
    | .ok (some (child, position)) =>
      .ok { t with stack := { frame with position := position } :: below, pending := some child }
    | .ok none => advance g { t with onPath := t.onPath.setIfInBounds frame.cls false } below

/-- The tracker with a node chosen for a class, before the next class is looked for. -/
def assign (t : Tracker) (c n : Nat) : Tracker :=
  { t with assigned := t.assigned.setIfInBounds c (some n), order := t.order ++ [c] }

def enter (g : EGraph) (t : Tracker) (c n : Nat) : Tracker :=
  if (g.childrenOf n).isEmpty then t
  else { t with onPath := t.onPath.setIfInBounds c true, stack := ⟨c, n, 0⟩ :: t.stack }

def apply (g : EGraph) (t : Tracker) (n : Nat) : Except Fault Tracker :=
  if n < g.numNodes then
    match t.pending with
    | some p =>
      if t.isLegalFor g p n then
        let entered := (t.assign p n).enter g p n
        entered.advance g entered.stack
      else .error (.violation (.illegalMove (g.nodeLabel n) (some (g.classLabel p))))
    | none => .error (.violation (.illegalMove (g.nodeLabel n) none))
  else .error .noSuchIndex

/-! ## Every move is progress -/

theorem advance_assigned {g : EGraph} {t u : Tracker} {stack : List Frame}
    (advanced : t.advance g stack = .ok u) : u.assigned = t.assigned := by
  induction stack generalizing t with
  | nil => simp only [advance, Except.ok.injEq] at advanced; rw [← advanced]
  | cons frame below ih =>
    simp only [advance] at advanced
    split at advanced
    · simp at advanced
    · simp only [Except.ok.injEq] at advanced; rw [← advanced]
    · have sameBelow := ih advanced
      exact sameBelow

theorem countP_set_some {choices : List (Option Nat)} {c n : Nat}
    (isOpen : choices[c]? = some none) :
    (choices.set c (some n)).countP (· == none) < choices.countP (· == none) := by
  induction choices generalizing c with
  | nil => simp at isOpen
  | cons first rest ih =>
    cases c with
    | zero =>
      simp only [List.getElem?_cons_zero, Option.some.injEq] at isOpen
      subst isOpen
      simp
    | succ c =>
      have smaller := ih (c := c) (by simpa using isOpen)
      simp only [List.set_cons_succ, List.countP_cons]
      omega

theorem apply_openCount {g : EGraph} {t u : Tracker} {n : Nat} (applied : t.apply g n = .ok u) :
    u.openCount < t.openCount := by
  unfold apply at applied
  split at applied
  · split at applied
    · rename_i p _
      split at applied
      · rename_i legal
        have isOpen : t.assigned.toList[p]? = some none := by
          simp only [isLegalFor, Bool.and_eq_true] at legal
          simpa [Tracker.isOpen] using legal.1.1.1
        have assignedEq := advance_assigned applied
        have enterEq : ((t.assign p n).enter g p n).assigned =
            t.assigned.setIfInBounds p (some n) := by
          unfold enter assign; split <;> rfl
        simp only [openCount, assignedEq, enterEq, Array.toList_setIfInBounds]
        exact countP_set_some isOpen
      · simp at applied
    · simp at applied
  · simp at applied

/-! ## Views -/

def pendingLabel (g : EGraph) (t : Tracker) : Option Label := t.pending.map g.classLabel

def appendOpen (t : Tracker) (found : List Nat) (c : Nat) : List Nat :=
  if t.isOpen c && !found.contains c then found ++ [c] else found

/-- Classes referred to but not resolved, the next one first. -/
def frontier (g : EGraph) (t : Tracker) : List Nat :=
  let waiting := t.stack.foldl
    (fun found frame => ((g.childrenOf frame.node).drop frame.position).foldl t.appendOpen found) []
  match t.pending with
  | none => waiting
  | some p => if waiting.contains p then waiting else p :: waiting

def ancestorPath (t : Tracker) : List Nat := t.stack.reverse.map Frame.cls

def choices (t : Tracker) : List (Nat × Nat) :=
  t.order.filterMap fun c => (t.choice c).map fun n => (c, n)

def assignment (g : EGraph) (t : Tracker) : Table Label :=
  t.choices.map fun (c, n) => (g.classLabel c, g.nodeLabel n)

def toTerm (g : EGraph) (t : Tracker) : Except Fault Term :=
  match t.pending with
  | none => .ok ⟨t.assignment g⟩
  | some p => .error (.violation (.notTerminal (g.classLabel p)))

def render (g : EGraph) (t : Tracker) : String :=
  "ExtractionState(assigned=" ++ toString t.numAssigned ++ ", pending=" ++
    ((t.pendingLabel g).getD .none).render ++ ", depth=" ++ toString t.stack.length ++ ")"

end Tracker

end EGraphSearch
