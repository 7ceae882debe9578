import EGraphSearch.EGraph.Arena

/-!
# The level sweep

Levels start out infinite and are lowered in place, node after node in the order of the arena,
until a whole pass changes nothing.  Every change makes an infinite entry finite or a finite
entry smaller, so the sweep ends.
-/

set_option autoImplicit false

namespace EGraphSearch

structure Levels where
  ofClass : Array Level
  ofNode : Array Level

namespace Levels

def unknown (a : Arena) : Levels :=
  { ofClass := Array.replicate a.numClasses .infinite
    ofNode := Array.replicate a.numNodes .infinite }

def classLevel (l : Levels) (c : Nat) : Level := l.ofClass.getD c .infinite

def nodeLevel (l : Levels) (n : Nat) : Level := l.ofNode.getD n .infinite

/-- The level that a node gets from the present levels of its children. -/
def candidate (a : Arena) (l : Levels) (n : Nat) : Level :=
  Level.above ((a.childrenOf n).map l.classLevel)

def setNode (l : Levels) (n : Nat) (level : Level) : Levels :=
  { l with ofNode := l.ofNode.setIfInBounds n level }

/-- Lowers the level of a class; a class never rises. -/
def lowerClass (l : Levels) (c : Nat) (level : Level) : Levels :=
  if level.below (l.classLevel c) then
    { l with ofClass := l.ofClass.setIfInBounds c level }
  else l

/-- One node of a pass: whether its level sinks, and the levels afterwards. -/
def visit (a : Arena) (l : Levels) (n : Nat) : Levels × Bool :=
  let level := candidate a l n
  if level.below (l.nodeLevel n) then
    ((l.setNode n level).lowerClass (a.ownerOf n) level, true)
  else (l, false)

/-- A pass over the given nodes, and whether it changed anything. -/
def visitAll (a : Arena) : Levels → List Nat → Levels × Bool
  | l, [] => (l, false)
  | l, n :: rest =>
    let (visited, changed) := visit a l n
    let (final, changedLater) := visitAll a visited rest
    (final, changed || changedLater)

def pass (a : Arena) (l : Levels) : Levels × Bool := visitAll a l (List.range l.ofNode.size)

/-! ## Every change is progress -/

/-- How many entries are infinite, and the sum of the finite ones. -/
def weigh : List Level → Nat × Nat
  | [] => (0, 0)
  | .finite n :: rest => ((weigh rest).1, n + (weigh rest).2)
  | .infinite :: rest => ((weigh rest).1 + 1, (weigh rest).2)

def weight (l : Levels) : Nat × Nat := weigh l.ofNode.toList

/-- Fewer infinite entries, or as many and a smaller sum. -/
def Lighter (p q : Nat × Nat) : Prop := p.1 < q.1 ∨ p.1 = q.1 ∧ p.2 < q.2

theorem Lighter.trans {p q r : Nat × Nat} (h : Lighter p q) (k : Lighter q r) : Lighter p r := by
  unfold Lighter at *; omega

theorem weigh_set_lighter {levels : List Level} {i : Nat} {level : Level}
    (inside : i < levels.length) (lower : level.below levels[i] = true) :
    Lighter (weigh (levels.set i level)) (weigh levels) := by
  induction levels generalizing i with
  | nil => simp at inside
  | cons first rest ih =>
    cases i with
    | zero =>
      cases level <;> cases first <;> simp_all [Level.below, weigh, Lighter]
    | succ i =>
      have step := ih (i := i) (by simpa using inside) (by simpa using lower)
      cases first <;> simp only [List.set_cons_succ, weigh, Lighter] at * <;> omega

theorem lowerClass_ofNode (l : Levels) (c : Nat) (level : Level) :
    (l.lowerClass c level).ofNode = l.ofNode := by
  unfold lowerClass; split <;> rfl

theorem visit_ofNode_size (a : Arena) (l : Levels) (n : Nat) :
    (visit a l n).1.ofNode.size = l.ofNode.size := by
  unfold visit; dsimp only
  split
  · simp [lowerClass_ofNode, setNode]
  · rfl

theorem visit_lighter {a : Arena} {l : Levels} {n : Nat} (inside : n < l.ofNode.size)
    (changed : (visit a l n).2 = true) : Lighter (visit a l n).1.weight l.weight := by
  unfold visit at *; dsimp only at *
  split at changed
  · rename_i lower
    rw [if_pos lower]
    simp only [weight, lowerClass_ofNode, setNode, Array.toList_setIfInBounds]
    apply weigh_set_lighter (by simpa using inside)
    simpa [nodeLevel, Array.getD, inside] using lower
  · simp at changed

theorem visit_unchanged {a : Arena} {l : Levels} {n : Nat}
    (changed : (visit a l n).2 = false) : (visit a l n).1 = l := by
  unfold visit at *; dsimp only at *
  split at changed
  · simp at changed
  · rename_i lower; rw [if_neg lower]

theorem visitAll_lighter {a : Arena} (nodes : List Nat) :
    ∀ {l : Levels}, (∀ n ∈ nodes, n < l.ofNode.size) →
      ((visitAll a l nodes).2 = false ∧ (visitAll a l nodes).1 = l) ∨
      ((visitAll a l nodes).2 = true ∧ Lighter (visitAll a l nodes).1.weight l.weight) := by
  induction nodes with
  | nil => intro l _; exact .inl ⟨rfl, rfl⟩
  | cons n rest ih =>
    intro l inside
    have here : n < l.ofNode.size := inside n (by simp)
    have later := ih (l := (visit a l n).1) (by
      intro m hm
      rw [visit_ofNode_size]
      exact inside m (by simp [hm]))
    simp only [visitAll]
    cases changed : (visit a l n).2 with
    | false =>
      have same := visit_unchanged changed
      rw [same] at later ⊢
      simpa using later
    | true =>
      have lighter := visit_lighter here changed
      right
      refine ⟨by simp, ?_⟩
      rcases later with ⟨_, same⟩ | ⟨_, lighterStill⟩
      · rw [same]; exact lighter
      · exact lighterStill.trans lighter

theorem pass_lighter {a : Arena} {l : Levels} (changed : (pass a l).2 = true) :
    Lighter (pass a l).1.weight l.weight := by
  rcases visitAll_lighter (a := a) (List.range l.ofNode.size) (l := l) (by simp) with h | h
  · rw [pass, h.1] at changed; simp at changed
  · exact h.2

/-- Passes until nothing changes. -/
def settle (a : Arena) (l : Levels) : Levels :=
  if (pass a l).2 = true then settle a (pass a l).1 else (pass a l).1
termination_by l.weight
decreasing_by
  rename_i changed
  have lighter := pass_lighter changed
  simp only [Prod.lex_def]
  exact lighter

def ofArena (a : Arena) : Levels := settle a (unknown a)

end Levels

end EGraphSearch
