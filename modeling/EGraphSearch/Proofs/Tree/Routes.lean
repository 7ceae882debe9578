import EGraphSearch.Proofs.Tree.Links
import Mathlib.Algebra.BigOperators.Group.List.Basic
import Mathlib.Algebra.Ring.Nat

/-!
# Routes through the search tree

The route to a node passes through the nodes on its path.  A route that passes through a node ends
there or goes on through exactly one of its children, so the routes through a node are those that
end there and those through its children.
-/

set_option autoImplicit false

namespace EGraphSearch.Tree

variable {α : Type} [Scalar α] {t u : Tree α}

/-! ## One route -/

omit [Scalar α] in
def passes (t : Tree α) (last v : Nat) : Bool :=
  match t.pathFromRoot last with
  | .ok path => path.contains v
  | .error _ => false

omit [Scalar α] in
theorem passes_eq {last : Nat} {path : List Nat} (found : t.pathFromRoot last = .ok path)
    (v : Nat) : t.passes last v = path.contains v := by
  simp only [passes, found]

theorem passes_congr (kept : Kept t u) {last : Nat} (inside : last < t.size) (v : Nat) :
    u.passes last v = t.passes last v := by
  simp only [passes, pathFromRoot_congr kept inside]

theorem Linked.passes_root (linked : t.Linked) (v : Nat) : t.passes 0 v = (v == 0) := by
  rw [passes_eq linked.pathFromRoot_root, List.contains_cons, List.contains_nil, Bool.or_false]

theorem Linked.passes_child (linked : t.Linked) {p m c : Nat} (inside : p < t.size)
    (member : (m, c) ∈ (t.node p).children) (v : Nat) :
    t.passes c v = (t.passes p v || v == c) := by
  obtain ⟨before, path, _, _⟩ := linked.exists_path p inside
  have next := linked.pathFromRoot_child inside member
  rw [path] at next
  rw [passes_eq path, passes_eq next, List.contains_append, List.contains_cons, List.contains_nil,
    Bool.or_false]

theorem Linked.le_of_passes (linked : t.Linked) {last v : Nat} (inside : last < t.size)
    (passes : t.passes last v = true) : v ≤ last := by
  obtain ⟨before, path, earlier, _⟩ := linked.exists_path last inside
  rw [passes_eq path, List.contains_iff_mem, List.mem_append, List.mem_singleton] at passes
  rcases passes with member | rfl
  · exact Nat.le_of_lt (earlier v member)
  · exact Nat.le_refl _

omit [Scalar α] in
theorem inside_of_passes {last v : Nat} (passes : t.passes last v = true) : last < t.size := by
  cases found : t.pathFromRoot last with
  | error fault => simp [Tree.passes, found] at passes
  | ok path => exact inside_of_pathFromRoot found

theorem Linked.passes_self (linked : t.Linked) {v : Nat} (inside : v < t.size) :
    t.passes v v = true := by
  obtain ⟨before, path, _, _⟩ := linked.exists_path v inside
  rw [passes_eq path]
  simp

theorem Linked.passes_trans (linked : t.Linked) (last : Nat) : ∀ {v w : Nat},
    t.passes last v = true → t.passes v w = true → t.passes last w = true := by
  induction last using Nat.strongRecOn with
  | _ last ih =>
      intro v w first second
      have inside := inside_of_passes first
      rcases Nat.eq_zero_or_pos last with rfl | pos
      · rw [linked.passes_root, beq_iff_eq] at first
        rwa [← first]
      · obtain ⟨p, m, lt, member⟩ := linked.parent last pos inside
        have insideParent := Nat.lt_trans lt inside
        rw [linked.passes_child insideParent member, Bool.or_eq_true] at first
        rcases first with above | here
        · rw [linked.passes_child insideParent member, ih p lt above second,
            Bool.true_or]
        · rwa [← beq_iff_eq.mp here]

/-- Of two nodes on one route, one is on the route to the other. -/
theorem Linked.passes_total (linked : t.Linked) (last : Nat) : ∀ {v w : Nat},
    t.passes last v = true → t.passes last w = true →
    t.passes v w = true ∨ t.passes w v = true := by
  induction last using Nat.strongRecOn with
  | _ last ih =>
      intro v w first second
      have inside := inside_of_passes first
      by_cases isLast : v = last ∨ w = last
      · rcases isLast with rfl | rfl
        · exact .inl second
        · exact .inr first
      · obtain ⟨notV, notW⟩ := not_or.mp isLast
        rcases Nat.eq_zero_or_pos last with rfl | pos
        · rw [linked.passes_root, beq_iff_eq] at first
          exact absurd first notV
        · obtain ⟨p, m, lt, member⟩ := linked.parent last pos inside
          have insideParent := Nat.lt_trans lt inside
          rw [linked.passes_child insideParent member, Bool.or_eq_true] at first second
          have notHere {x : Nat} (apart : x ≠ last) : ¬ (x == last) = true := by simpa using apart
          exact ih p lt (first.resolve_right (notHere notV))
            (second.resolve_right (notHere notW))

/-! ## Children -/

theorem Linked.count_child (linked : t.Linked) {p m c v : Nat} (inside : p < t.size)
    (member : (m, c) ∈ (t.node p).children) (insideV : v < t.size) :
    ((t.node v).children.map Prod.snd).count c = if v = p then 1 else 0 := by
  obtain ⟨_, _, parent, move⟩ := linked.child p inside m c member
  split
  · rename_i here
    subst here
    have distinct : ((t.node v).children.map Prod.snd).Nodup := by
      refine List.Nodup.map_on ?_ (List.Nodup.of_map _ (linked.distinct v inside))
      intro first hfirst second hsecond same
      obtain ⟨_, _, _, moveFirst⟩ := linked.child v inside first.1 first.2 hfirst
      obtain ⟨_, _, _, moveSecond⟩ := linked.child v inside second.1 second.2 hsecond
      rw [same] at moveFirst
      exact Prod.ext (Option.some.inj (moveFirst.symm.trans moveSecond)) same
    exact List.count_eq_one_of_mem distinct (List.mem_map_of_mem member)
  · rename_i elsewhere
    refine List.count_eq_zero_of_not_mem fun listed => elsewhere ?_
    obtain ⟨entry, listedEntry, rfl⟩ := List.mem_map.mp listed
    obtain ⟨_, _, parentV, _⟩ := linked.child v insideV entry.1 entry.2 listedEntry
    exact Option.some.inj (parentV.symm.trans parent)

theorem sum_map_toNat_beq (children : List (Nat × Nat)) (c : Nat) :
    (children.map fun entry => (entry.2 == c).toNat).sum = (children.map Prod.snd).count c := by
  induction children with
  | nil => rfl
  | cons entry rest ih =>
      rw [List.map_cons, List.sum_cons, ih, List.map_cons, List.count_cons]
      cases entry.2 == c <;> simp [Nat.add_comm]

/-- A route through a node ends there or goes on through one of its children. -/
theorem Linked.passes_split (linked : t.Linked) (last : Nat) : ∀ {v : Nat}, last < t.size →
    v < t.size → (t.passes last v).toNat = (v == last).toNat +
      ((t.node v).children.map fun entry => (t.passes last entry.2).toNat).sum := by
  induction last using Nat.strongRecOn with
  | _ last ih =>
      intro v inside insideV
      rcases Nat.eq_zero_or_pos last with rfl | pos
      · have none_ : ((t.node v).children.map fun entry => (t.passes 0 entry.2).toNat).sum = 0 := by
          refine List.sum_eq_zero fun x member => ?_
          obtain ⟨entry, listed, rfl⟩ := List.mem_map.mp member
          have later := (linked.child v insideV entry.1 entry.2 listed).1
          rw [linked.passes_root, beq_eq_false_iff_ne.mpr (by omega)]
          rfl
        rw [linked.passes_root, none_, Nat.add_zero]
      · obtain ⟨p, m, lt, member⟩ := linked.parent last pos inside
        have insideParent := Nat.lt_trans lt inside
        have extended : ∀ w, (t.passes last w).toNat =
            (t.passes p w).toNat + (w == last).toNat := by
          intro w
          rw [linked.passes_child insideParent member]
          cases passed : t.passes p w with
          | false => cases w == last <;> rfl
          | true =>
              have := linked.le_of_passes insideParent passed
              rw [beq_eq_false_iff_ne.mpr (by omega)]
              rfl
        simp only [extended]
        rw [List.sum_map_add, sum_map_toNat_beq, linked.count_child insideParent member insideV,
          ih p lt insideParent insideV]
        rcases Nat.decEq v p with apart | rfl
        · rw [if_neg apart, beq_eq_false_iff_ne.mpr apart]
          simp only [Bool.toNat_false]
          omega
        · rw [if_pos rfl, beq_self_eq_true]
          simp only [Bool.toNat_true]
          omega

/-! ## Many routes -/

omit [Scalar α] in
/-- How many of the routes with the given ends pass through `v`. -/
def load (t : Tree α) (ends : List Nat) (v : Nat) : Nat := ends.countP fun last => t.passes last v

omit [Scalar α] in
theorem load_cons (last : Nat) (ends : List Nat) (v : Nat) :
    t.load (last :: ends) v = t.load ends v + (t.passes last v).toNat := by
  rw [load, List.countP_cons, load]
  cases t.passes last v <;> rfl

theorem load_congr (kept : Kept t u) {ends : List Nat} (inside : ∀ last ∈ ends, last < t.size)
    (v : Nat) : u.load ends v = t.load ends v :=
  List.countP_congr fun last member => by rw [passes_congr kept (inside last member)]

/-- The routes through a node are those that end there and those through its children. -/
theorem Linked.load_split (linked : t.Linked) {v : Nat} (insideV : v < t.size) (ends : List Nat) :
    (∀ last ∈ ends, last < t.size) → t.load ends v = ends.count v +
      ((t.node v).children.map fun entry => t.load ends entry.2).sum := by
  induction ends with
  | nil =>
      intro _
      refine Eq.symm ((Nat.zero_add _).trans (List.sum_eq_zero fun x member => ?_))
      obtain ⟨_, _, rfl⟩ := List.mem_map.mp member
      rfl
  | cons last ends ih =>
      intro inside
      have split := linked.passes_split last (inside last (by simp)) insideV
      simp only [load_cons]
      rw [List.sum_map_add, ih fun e member => inside e (List.mem_cons_of_mem _ member), split,
        List.count_cons, Bool.beq_comm]
      cases last == v <;> simp <;> omega

end EGraphSearch.Tree
