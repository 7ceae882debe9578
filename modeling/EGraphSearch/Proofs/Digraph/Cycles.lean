import EGraphSearch.Proofs.Digraph.Acyclicity
import Mathlib.Data.List.Nodup

/-!
# A cycle is found if there is one

The search walks along every edge that leads on from its start, and keeps the trail that leads to
the present end of the walk.  An edge that ends on the trail closes a cycle.  If there is no such
edge, a vertex is only left behind once all its successors have been: no path from it goes on
forever.  So the search comes to an end without a cycle only if there is none.
-/

set_option autoImplicit false

namespace EGraphSearch.Digraph

open Relation (TransGen)

/-! ## Paths -/

/-- A list of edges, each of which starts where the one before it ends. -/
inductive Path {α : Type} (r : α → α → Prop) : α → List (α × α) → α → Prop
  | nil (v : α) : Path r v [] v
  | cons {v w u : α} {edges : List (α × α)} (edge : r v w) (rest : Path r w edges u) :
      Path r v ((v, w) :: edges) u

def IsCycle {α : Type} (r : α → α → Prop) (edges : List (α × α)) : Prop :=
  edges ≠ [] ∧ ∃ v, Path r v edges v

/-- The vertices of a path from one vertex, if the edges are listed from the last to the first. -/
def vertices {α : Type} (v : α) : List (α × α) → List α
  | [] => [v]
  | last :: older => last.2 :: vertices v older

section Path

variable {α β : Type} {r : α → α → Prop} {v w u : α} {edges : List (α × α)}

theorem path_concat_iff {x : α} :
    Path r v (edges ++ [(w, u)]) x ↔ Path r v edges w ∧ r w u ∧ x = u := by
  induction edges generalizing v with
  | nil =>
      constructor
      · rintro (_ | ⟨edge, _ | _⟩)
        exact ⟨.nil _, edge, rfl⟩
      · rintro ⟨_ | _, edge, rfl⟩
        exact .cons edge (.nil x)
  | cons first rest ih =>
      constructor
      · rintro (_ | ⟨edge, later⟩)
        obtain ⟨path, last⟩ := ih.mp later
        exact ⟨.cons edge path, last⟩
      · rintro ⟨_ | ⟨edge, path⟩, last⟩
        exact .cons edge (ih.mpr ⟨path, last⟩)

theorem Path.of_suffix {older : List (α × α)} (path : Path r v edges.reverse u)
    (suffix : older <:+ edges) : ∃ w, Path r v older.reverse w := by
  obtain ⟨newer, rfl⟩ := suffix
  induction newer generalizing u with
  | nil => exact ⟨u, path⟩
  | cons last rest ih =>
      rw [List.cons_append, List.reverse_cons] at path
      exact ih (path_concat_iff.mp path).1

theorem Path.end_eq (path : Path r v edges.reverse u) : (vertices v edges).head? = some u := by
  cases edges with
  | nil =>
      cases path
      rfl
  | cons last older =>
      rw [List.reverse_cons] at path
      obtain ⟨_, _, rfl⟩ := path_concat_iff.mp path
      rfl

theorem Path.mem_tails (path : Path r v edges.reverse u) (passes : w ∈ vertices v edges) :
    w ∈ edges.map Prod.fst ∨ w = u := by
  induction edges generalizing u with
  | nil =>
      cases path
      exact .inr (List.mem_singleton.mp passes)
  | cons last older ih =>
      rw [List.reverse_cons] at path
      obtain ⟨earlier, _, rfl⟩ := path_concat_iff.mp path
      rcases List.mem_cons.mp passes with rfl | passes
      · exact .inr rfl
      · left
        rcases ih earlier passes with later | rfl
        · exact List.mem_cons_of_mem _ later
        · exact List.mem_cons_self

theorem Path.map {s : β → β → Prop} (f : α → β) (keeps : ∀ a b, r a b → s (f a) (f b))
    (path : Path r v edges u) :
    Path s (f v) (edges.map fun edge => (f edge.1, f edge.2)) (f u) := by
  induction path with
  | nil v => exact .nil (f v)
  | cons edge _ ih => exact .cons (keeps _ _ edge) ih

theorem IsCycle.map {s : β → β → Prop} (f : α → β) (keeps : ∀ a b, r a b → s (f a) (f b))
    (cycle : IsCycle r edges) : IsCycle s (edges.map fun edge => (f edge.1, f edge.2)) := by
  obtain ⟨some_edge, v, path⟩ := cycle
  exact ⟨by simpa using some_edge, f v, path.map f keeps⟩

theorem Path.transGen (path : Path r v edges u) (some_edge : edges ≠ []) : TransGen r v u := by
  induction path with
  | nil v => exact absurd rfl some_edge
  | @cons v w u edges edge rest ih =>
      cases edges with
      | nil =>
          cases rest
          exact .single edge
      | cons next later => exact .head edge (ih (by simp))

theorem IsCycle.transGen (cycle : IsCycle r edges) : ∃ v, TransGen r v v := by
  obtain ⟨some_edge, v, path⟩ := cycle
  exact ⟨v, path.transGen some_edge⟩

theorem Path.isCycle_dropWhile [DecidableEq α] (path : Path r v edges u)
    (passes : u ∈ edges.map Prod.fst) :
    IsCycle r (edges.dropWhile fun edge => edge.1 != u) := by
  induction path with
  | nil v => simp at passes
  | @cons v w u edges edge rest ih =>
      by_cases here : v = u
      · subst here
        rw [List.dropWhile_cons_of_neg (by simp)]
        exact ⟨by simp, v, .cons edge rest⟩
      · rw [List.dropWhile_cons_of_pos (by simpa using here)]
        have later : u ∈ edges.map Prod.fst := by
          simpa [Ne.symm here] using passes
        exact ih later

end Path

variable {d : Digraph} {explored : List Nat} {start : Nat}

/-! ## Settled vertices -/

def Settled (d : Digraph) (v : Nat) : Prop := Acc (fun w v => d.Edge v w) v

theorem settled_of_next {v : Nat} (all : ∀ w ∈ d.next v, d.Settled w) : d.Settled v :=
  Acc.intro v all

theorem Settled.next {v w : Nat} (settled : d.Settled v) (edge : w ∈ d.next v) : d.Settled w :=
  settled.inv edge

theorem Settled.not_transGen {v : Nat} (settled : d.Settled v) : ¬ TransGen d.Edge v v := by
  induction settled with
  | intro v _ ih =>
      intro cycle
      obtain ⟨w, edge, walk⟩ := Relation.TransGen.head'_iff.mp cycle
      exact ih w edge (TransGen.tail' walk edge)

/-- The vertices that no cycle can be found from: they are settled, and so is all beyond them. -/
structure Explored (d : Digraph) (explored : List Nat) : Prop where
  settled : ∀ v ∈ explored, d.Settled v
  closed : ∀ v ∈ explored, ∀ w ∈ d.next v, w ∈ explored

/-! ## The edge walk -/

/-- Every edge out of the stack that has been used leads to a settled vertex, or to the vertex above
its tail. -/
def Waits (d : Digraph) (unused : Array (List Nat)) : Option Nat → List Nat → Prop
  | _, [] => True
  | above, v :: below =>
    (∀ w ∈ d.next v, w ∈ unused.getD v [] ∨ d.Settled w ∨ above = some w) ∧
      Waits d unused (some v) below

/-- What holds of the stack and the unused edges, given the vertices seen so far. -/
structure Walking (d : Digraph) (explored stack : List Nat) (unused : Array (List Nat))
    (visited : List Nat) : Prop where
  edges : ∀ v, unused.getD v [] ⊆ d.next v
  stack_seen : ∀ v ∈ stack, v ∈ visited ∨ v ∈ explored
  fresh : ∀ v, v ∈ visited ∨ v ∈ explored ∨ unused.getD v [] = d.next v
  /-- A visited vertex that is not on the stack is done with. -/
  settled : ∀ v ∈ visited, v ∈ stack ∨ d.Settled v
  used : ∀ v ∈ visited, v ∈ stack ∨ unused.getD v [] = []
  next_seen : ∀ v ∈ visited, ∀ w ∈ d.next v, w ∈ unused.getD v [] ∨ w ∈ visited ∨ w ∈ explored
  waits : Waits d unused none stack

section Walking

variable {stack below visited : List Nat} {unused : Array (List Nat)} {v w : Nat} {rest : List Nat}

theorem Waits.of_settled (settled : d.Settled v) (waits : Waits d unused (some v) stack) :
    Waits d unused none stack := by
  cases stack with
  | nil => trivial
  | cons u below =>
      refine ⟨fun w edge => ?_, waits.2⟩
      rcases waits.1 w edge with left | done | above
      · exact .inl left
      · exact .inr (.inl done)
      · obtain rfl := Option.some.inj above
        exact .inr (.inl settled)

theorem getD_use_ne {u : Nat} (apart : u ≠ v) :
    (unused.setIfInBounds v rest).getD u [] = unused.getD u [] := by
  rw [Array.getD_eq_getD_getElem?, Array.getD_eq_getD_getElem?,
    Array.getElem?_setIfInBounds_ne (Ne.symm apart)]

theorem getD_use_self (left : unused.getD v [] = w :: rest) :
    (unused.setIfInBounds v rest).getD v [] = rest := by
  have inside : v < unused.size := by
    by_contra outside
    simp [Array.getD, outside] at left
  simp [Array.getD, inside]

theorem Waits.use (rest : List Nat) : ∀ {above : Option Nat} {stack : List Nat},
    Waits d unused above stack → (v ∈ stack → d.Settled v) →
      Waits d (unused.setIfInBounds v rest) above stack := by
  intro above stack
  induction stack generalizing above with
  | nil => exact fun _ _ => trivial
  | cons u below ih =>
      intro waits once
      refine ⟨fun x edge => ?_, ih waits.2 fun member => once (List.mem_cons_of_mem u member)⟩
      by_cases same : u = v
      · subst same
        exact .inr (.inl ((once (by simp)).next edge))
      · rw [getD_use_ne same]
        exact waits.1 x edge

theorem Walking.pop (walking : Walking d explored (v :: below) unused visited)
    (left : unused.getD v [] = []) : Walking d explored below unused visited := by
  have done : d.Settled v := by
    refine settled_of_next fun w edge => ?_
    rcases walking.waits.1 w edge with unusedEdge | settled | above
    · simp [left] at unusedEdge
    · exact settled
    · cases above
  refine ⟨walking.edges, fun u member => walking.stack_seen u (List.mem_cons_of_mem v member),
    walking.fresh, ?_, ?_, walking.next_seen, walking.waits.2.of_settled done⟩
  · intro u member
    rcases walking.settled u member with onStack | settled
    · rcases List.mem_cons.mp onStack with rfl | later
      · exact .inr done
      · exact .inl later
    · exact .inr settled
  · intro u member
    rcases walking.used u member with onStack | spent
    · rcases List.mem_cons.mp onStack with rfl | later
      · exact .inr left
      · exact .inl later
    · exact .inr spent

/-- All edges out of a vertex that is neither settled nor on the stack are unused. -/
theorem Walking.untouched (known : Explored d explored)
    (walking : Walking d explored stack unused visited) (unsettled : ¬ d.Settled w)
    (absent : w ∉ stack) : unused.getD w [] = d.next w := by
  rcases walking.fresh w with old | inside | whole
  · exact ((walking.settled w old).elim absent unsettled).elim
  · exact absurd (known.settled w inside) unsettled
  · exact whole

theorem Walking.waits_push (known : Explored d explored)
    (walking : Walking d explored (v :: below) unused visited)
    (left : unused.getD v [] = w :: rest) (once : v ∈ below → d.Settled v)
    (off : w ∈ v :: below → d.Settled w) :
    Waits d (unused.setIfInBounds v rest) none (w :: v :: below) := by
  refine ⟨fun x edge => ?_, fun x edge => ?_, walking.waits.2.use rest once⟩
  · by_cases done : d.Settled w
    · exact .inr (.inl (done.next edge))
    have absent : w ∉ v :: below := fun member => done (off member)
    rw [getD_use_ne (List.ne_of_not_mem_cons absent), walking.untouched known done absent]
    exact .inl edge
  · rw [getD_use_self left]
    rcases walking.waits.1 x edge with unusedEdge | settled | above
    · rcases List.mem_cons.mp (left ▸ unusedEdge) with rfl | later
      · exact .inr (.inr rfl)
      · exact .inl later
    · exact .inr (.inl settled)
    · cases above

theorem Walking.push (known : Explored d explored)
    (walking : Walking d explored (v :: below) unused visited)
    (left : unused.getD v [] = w :: rest) {visited' : List Nat}
    (grows : visited ⊆ visited') (only : ∀ u ∈ visited', u ∈ visited ∨ u = w)
    (head : w ∈ visited' ∨ w ∈ explored) (once : v ∈ below → d.Settled v)
    (off : w ∈ v :: below → d.Settled w) :
    Walking d explored (w :: v :: below) (unused.setIfInBounds v rest) visited' where
  edges u := by
    by_cases same : u = v
    · subst same
      rw [getD_use_self left]
      exact fun x member => walking.edges u (left ▸ List.mem_cons_of_mem w member)
    · rw [getD_use_ne same]
      exact walking.edges u
  stack_seen u member := by
    rcases List.mem_cons.mp member with rfl | member
    · exact head
    · exact (walking.stack_seen u member).imp_left (grows ·)
  fresh u := by
    by_cases same : u = v
    · subst same
      have top := walking.stack_seen u List.mem_cons_self
      exact top.elim (fun member => .inl (grows member)) fun member => .inr (.inl member)
    · rw [getD_use_ne same]
      exact (walking.fresh u).imp_left (grows ·)
  settled u member := by
    rcases only u member with old | rfl
    · exact (walking.settled u old).imp_left (List.mem_cons_of_mem w ·)
    · exact .inl List.mem_cons_self
  used u member := by
    rcases only u member with old | rfl
    · by_cases same : u = v
      · exact .inl (by simp [same])
      · rw [getD_use_ne same]
        exact (walking.used u old).imp_left (List.mem_cons_of_mem w ·)
    · exact .inl List.mem_cons_self
  next_seen u member x edge := by
    have old_seen : u ∈ visited → x ∈ unused.getD u [] ∨ x ∈ visited' ∨ x ∈ explored :=
      fun old => (walking.next_seen u old x edge).imp_right (.imp_left (grows ·))
    have inside_seen : u ∈ explored → x ∈ explored := fun inside => known.closed u inside x edge
    by_cases same : u = v
    · subst same
      rw [getD_use_self left]
      rcases walking.stack_seen u List.mem_cons_self with old | inside
      · rcases old_seen old with unusedEdge | seen
        · rcases List.mem_cons.mp (left ▸ unusedEdge) with rfl | later
          · exact .inr head
          · exact .inl later
        · exact .inr seen
      · exact .inr (.inr (inside_seen inside))
    · rw [getD_use_ne same]
      rcases only u member with old | rfl
      · exact old_seen old
      · rcases walking.fresh u with old | inside | whole
        · exact old_seen old
        · exact .inr (.inr (inside_seen inside))
        · exact .inl (whole ▸ edge)
  waits := walking.waits_push known left once off

end Walking

/-! ## The trail -/

/-- The trail, and the vertices on it, once it has been taken back to the tail of the next edge. -/
def Trail.rewind (trail : Trail) (tail : Nat) : List (Nat × Nat) × List Nat :=
  match trail.lastHead with
  | some last =>
    if tail = last then (trail.edges, trail.active)
    else Trail.backTo tail trail.edges trail.active
  | none => (trail.edges, trail.active)

def Trail.extend (trail : Trail) (tail head : Nat) : Trail where
  edges := (tail, head) :: (trail.rewind tail).1
  active := head :: (trail.rewind tail).2
  visited := head :: trail.visited
  lastHead := some head

/-- The trail is a path from the start that meets no vertex twice. -/
structure Traces (d : Digraph) (start : Nat) (trail : Trail) : Prop where
  path : ∃ tip, Path d.Edge start trail.edges.reverse tip
  active_eq : trail.active = vertices start trail.edges
  nodup : trail.active.Nodup
  lastHead_eq : trail.lastHead = trail.edges.head?.map Prod.snd
  active_seen : trail.active ⊆ trail.visited

section Trail

variable {trail : Trail} {tail head : Nat} {below : List Nat}

theorem follow_cons (explored : List Nat) (walk : List (Nat × Nat)) (trail : Trail)
    (tail head : Nat) : Trail.follow explored ((tail, head) :: walk) trail =
      if explored.contains head then Trail.follow explored walk trail
      else if (trail.rewind tail).2.contains head then
        .error (((tail, head) :: (trail.rewind tail).1).reverse.dropWhile
          fun edge => edge.1 != head)
      else Trail.follow explored walk (trail.extend tail head) := rfl

/-- Edges are taken off until the trail ends in the given vertex, which is on it. -/
theorem backTo_spec (edges : List (Nat × Nat)) : ∀ {ahead : List Nat},
    ahead ++ tail :: below = vertices start edges → ahead ≠ [] → (vertices start edges).Nodup →
    ∃ older, older <:+ edges ∧ vertices start older = tail :: below ∧
      Trail.backTo tail edges (vertices start edges) = (older, tail :: below) := by
  induction edges with
  | nil =>
      intro ahead split some_ahead
      have lengths := congrArg List.length split
      have positive := List.length_pos_iff.mpr some_ahead
      simp [vertices] at lengths
      omega
  | cons last rest ih =>
      intro ahead whole some_ahead distinct
      obtain ⟨first, ahead, rfl⟩ := List.exists_cons_of_ne_nil some_ahead
      obtain ⟨rfl, split⟩ := List.cons.inj whole
      have distinctRest := (List.nodup_cons.mp distinct).2
      simp only [Trail.backTo, vertices, List.erase_cons_head]
      rcases rest with _ | ⟨⟨v, w⟩, older⟩
      · cases ahead with
        | nil =>
            obtain ⟨rfl, rfl⟩ := List.cons.inj split
            exact ⟨[], List.nil_suffix, rfl, rfl⟩
        | cons _ more => simp [vertices] at split
      · by_cases here : w = tail
        · subst here
          cases ahead with
          | nil =>
              refine ⟨(v, w) :: older, List.suffix_cons _ _, split.symm, ?_⟩
              simp only [if_true]
              exact congrArg _ split.symm
          | cons other more =>
              obtain ⟨rfl, later⟩ := List.cons.inj split
              have once := (List.nodup_cons.mp distinctRest).1
              rw [← later] at once
              exact absurd (by simp) once
        · have farther : ahead ≠ [] := by
            rintro rfl
            exact here (List.cons.inj split).1.symm
          obtain ⟨kept, suffix, onTrail, back⟩ := ih split farther distinctRest
          refine ⟨kept, suffix.trans (List.suffix_cons _ _), onTrail, ?_⟩
          simp only [here, if_false]
          exact back

theorem Traces.rewind_eq (traces : Traces d start trail)
    (onTrail : tail :: below <:+ trail.active) : ∃ older, older <:+ trail.edges ∧
      vertices start older = tail :: below ∧ trail.rewind tail = (older, tail :: below) := by
  obtain ⟨ahead, split⟩ := onTrail
  have distinct := traces.nodup
  rw [Trail.rewind, traces.lastHead_eq]
  rw [traces.active_eq] at split distinct ⊢
  by_cases here : ahead = []
  · subst here
    refine ⟨trail.edges, List.suffix_rfl, split.symm, ?_⟩
    rw [← split]
    cases edges : trail.edges with
    | nil => rfl
    | cons last older =>
        rw [edges] at split
        exact if_pos (List.cons.inj split).1
  · obtain ⟨older, suffix, vertices_eq, back⟩ := backTo_spec trail.edges split here distinct
    refine ⟨older, suffix, vertices_eq, ?_⟩
    obtain ⟨first, ahead, rfl⟩ := List.exists_cons_of_ne_nil here
    cases edges : trail.edges with
    | nil => simp [edges, vertices] at split
    | cons last older =>
        rw [edges] at split distinct back
        obtain ⟨rfl, onTrail⟩ := List.cons.inj split
        have apart : tail ≠ last.2 := by
          rintro rfl
          exact (List.nodup_cons.mp distinct).1 (by simp [← onTrail])
        simpa [apart] using back

theorem Traces.rewind (traces : Traces d start trail) (onTrail : tail :: below <:+ trail.active) :
    ∃ older, trail.rewind tail = (older, tail :: below) ∧ vertices start older = tail :: below ∧
      Path d.Edge start older.reverse tail := by
  obtain ⟨older, suffix, vertices_eq, rewound⟩ := traces.rewind_eq onTrail
  obtain ⟨tip, whole⟩ := traces.path
  obtain ⟨last, path⟩ := whole.of_suffix suffix
  have ends := path.end_eq
  rw [vertices_eq] at ends
  obtain rfl := Option.some.inj ends
  exact ⟨older, rewound, vertices_eq, path⟩

theorem Traces.rewind_active (traces : Traces d start trail)
    (onTrail : tail :: below <:+ trail.active) : (trail.rewind tail).2 = tail :: below := by
  obtain ⟨older, rewound, _⟩ := traces.rewind onTrail
  rw [rewound]

theorem Traces.extend (traces : Traces d start trail) (onTrail : tail :: below <:+ trail.active)
    (edge : d.Edge tail head) (new : head ∉ tail :: below) :
    Traces d start (trail.extend tail head) := by
  obtain ⟨older, rewound, vertices_eq, path⟩ := traces.rewind onTrail
  have edges : (trail.extend tail head).edges = (tail, head) :: older := by
    rw [Trail.extend, rewound]
  have active : (trail.extend tail head).active = head :: tail :: below := by
    rw [Trail.extend, rewound]
  refine ⟨⟨head, ?_⟩, ?_, ?_, rfl, ?_⟩
  · rw [edges, List.reverse_cons]
    exact path_concat_iff.mpr ⟨path, edge, rfl⟩
  · rw [edges, active, vertices, vertices_eq]
  · rw [active]
    exact List.nodup_cons.mpr ⟨new, traces.nodup.sublist onTrail.sublist⟩
  · rw [active]
    exact List.cons_subset_cons head fun v member => traces.active_seen (onTrail.subset member)

theorem Traces.isCycle (traces : Traces d start trail) (onTrail : tail :: below <:+ trail.active)
    (edge : d.Edge tail head) (known : head ∈ tail :: below) :
    IsCycle d.Edge (((tail, head) :: (trail.rewind tail).1).reverse.dropWhile
      fun edge => edge.1 != head) := by
  obtain ⟨older, rewound, vertices_eq, path⟩ := traces.rewind onTrail
  have whole : Path d.Edge start ((tail, head) :: older).reverse head := by
    rw [List.reverse_cons]
    exact path_concat_iff.mpr ⟨path, edge, rfl⟩
  rw [rewound]
  refine whole.isCycle_dropWhile ?_
  rw [List.map_reverse, List.mem_reverse]
  rcases path.mem_tails (vertices_eq ▸ known) with earlier | rfl
  · exact List.mem_cons_of_mem tail earlier
  · exact List.mem_cons_self

end Trail

/-! ## The search -/

/-- Trail and stack belong together: what is on the stack and not explored is on the trail. -/
structure Tracks (d : Digraph) (explored : List Nat) (start : Nat) (stack : List Nat)
    (unused : Array (List Nat)) (trail : Trail) : Prop
    extends Walking d explored stack unused trail.visited, Traces d start trail where
  onTrail : stack.filter (fun v => !explored.contains v) <:+ trail.active

section Tracks

variable {stack below rest : List Nat} {unused : Array (List Nat)} {trail : Trail} {v w : Nat}

theorem tracks_start (new : start ∉ explored) :
    Tracks d explored start [start] d.successors ⟨[], [start], [start], none⟩ where
  edges _ := List.Subset.refl _
  stack_seen _ member := .inl member
  fresh _ := .inr (.inr rfl)
  settled _ member := .inl member
  used _ member := .inl member
  next_seen _ _ _ edge := .inl edge
  waits := ⟨fun _ edge => .inl edge, trivial⟩
  path := ⟨start, .nil start⟩
  active_eq := rfl
  nodup := List.nodup_singleton start
  lastHead_eq := rfl
  active_seen := List.Subset.refl _
  onTrail := by simp [new]

theorem Tracks.pop (tracks : Tracks d explored start (v :: below) unused trail)
    (left : unused.getD v [] = []) : Tracks d explored start below unused trail where
  toWalking := tracks.toWalking.pop left
  toTraces := tracks.toTraces
  onTrail := ((List.suffix_cons v below).filter _).trans tracks.onTrail

theorem Tracks.once (known : Explored d explored)
    (tracks : Tracks d explored start (v :: below) unused trail) (again : v ∈ below) :
    d.Settled v := by
  by_cases inside : v ∈ explored
  · exact known.settled v inside
  · have onTrail := tracks.onTrail
    rw [List.filter_cons_of_pos (by simpa using inside)] at onTrail
    have distinct := tracks.nodup.sublist onTrail.sublist
    exact absurd (List.mem_filter.mpr ⟨again, by simpa using inside⟩)
      (List.nodup_cons.mp distinct).1

theorem Tracks.skip (known : Explored d explored)
    (tracks : Tracks d explored start (v :: below) unused trail)
    (left : unused.getD v [] = w :: rest) (inside : w ∈ explored) :
    Tracks d explored start (w :: v :: below) (unused.setIfInBounds v rest) trail where
  toWalking := tracks.toWalking.push known left (List.Subset.refl _) (fun _ => .inl)
    (.inr inside) (tracks.once known) fun _ => known.settled w inside
  toTraces := tracks.toTraces
  onTrail := by
    rw [List.filter_cons_of_neg (by simpa using inside)]
    exact tracks.onTrail

theorem Tracks.top (known : Explored d explored)
    (tracks : Tracks d explored start (v :: below) unused trail)
    (left : unused.getD v [] = w :: rest) (outside : w ∉ explored) : d.Edge v w ∧ v ∉ explored ∧
      v :: below.filter (fun v => !explored.contains v) <:+ trail.active := by
  have edge : w ∈ d.next v := tracks.edges v (by simp [left])
  have new : v ∉ explored := fun inside => outside (known.closed v inside w edge)
  have onTrail := tracks.onTrail
  rw [List.filter_cons_of_pos (by simpa using new)] at onTrail
  exact ⟨edge, new, onTrail⟩

theorem Tracks.extend (known : Explored d explored)
    (tracks : Tracks d explored start (v :: below) unused trail)
    (left : unused.getD v [] = w :: rest) (outside : w ∉ explored)
    (apart : w ∉ (trail.rewind v).2) :
    Tracks d explored start (w :: v :: below) (unused.setIfInBounds v rest)
      (trail.extend v w) := by
  obtain ⟨edge, new, onTrail⟩ := tracks.top known left outside
  have rewound := tracks.toTraces.rewind_active onTrail
  rw [rewound] at apart
  have off : w ∉ v :: below := by
    intro member
    rcases List.mem_cons.mp member with rfl | later
    · exact apart List.mem_cons_self
    · exact apart (List.mem_cons_of_mem v (List.mem_filter.mpr ⟨later, by simpa using outside⟩))
  have walking := tracks.toWalking.push known left (List.subset_cons_self w trail.visited)
    (fun u member => (List.mem_cons.mp member).symm) (.inl List.mem_cons_self)
    (tracks.once known) fun member => absurd member off
  refine ⟨walking, tracks.toTraces.extend onTrail edge apart, ?_⟩
  rw [List.filter_cons_of_pos (by simpa using outside),
    List.filter_cons_of_pos (by simpa using new), Trail.extend, rewound]

/-- The next edge closes a cycle, or the search goes on with what still belongs together. -/
theorem Tracks.step (known : Explored d explored)
    (tracks : Tracks d explored start (v :: below) unused trail)
    (left : unused.getD v [] = w :: rest) :
    (∃ cycle, IsCycle d.Edge cycle ∧
      ∀ walk, Trail.follow explored ((v, w) :: walk) trail = .error cycle) ∨
    ∃ next, Tracks d explored start (w :: v :: below) (unused.setIfInBounds v rest) next ∧
      trail.visited ⊆ next.visited ∧
      ∀ walk, Trail.follow explored ((v, w) :: walk) trail = Trail.follow explored walk next := by
  by_cases inside : w ∈ explored
  · refine .inr ⟨trail, tracks.skip known left inside, List.Subset.refl _, fun walk => ?_⟩
    rw [follow_cons, if_pos (by simpa using inside)]
  · obtain ⟨edge, _, onTrail⟩ := tracks.top known left inside
    have rewound := tracks.toTraces.rewind_active onTrail
    by_cases closes : w ∈ (trail.rewind v).2
    · refine .inl ⟨_, tracks.toTraces.isCycle onTrail edge (rewound ▸ closes), fun walk => ?_⟩
      rw [follow_cons, if_neg (by simpa using inside), if_pos (by simpa using closes)]
    · refine .inr ⟨trail.extend v w, tracks.extend known left inside closes,
        List.subset_cons_self w trail.visited, fun walk => ?_⟩
      rw [follow_cons, if_neg (by simpa using inside), if_neg (by simpa using closes)]

end Tracks

/-! ## The end of the search -/

section Follow

variable {stack : List Nat} {unused : Array (List Nat)} {trail : Trail} {v w : Nat}

def unusedCount (unused : Array (List Nat)) : Nat := total (unused.toList.map List.length)

theorem total_set (xs : List Nat) : ∀ {i x : Nat} (y : Nat), xs[i]? = some x →
    total (xs.set i y) + x = total xs + y := by
  induction xs with
  | nil => simp
  | cons first rest ih =>
      intro i x y here
      cases i with
      | zero =>
          obtain rfl : first = x := by simpa using here
          simp only [List.set_cons_zero, total_cons]
          omega
      | succ i =>
          have later := ih y (by simpa using here)
          simp only [List.set_cons_succ, total_cons]
          omega

theorem unusedCount_use {rest : List Nat} (left : unused.getD v [] = w :: rest) :
    unusedCount (unused.setIfInBounds v rest) + 1 = unusedCount unused := by
  have here : unused.toList[v]? = some (w :: rest) := by
    rw [Array.getD_eq_getD_getElem?] at left
    rw [Array.getElem?_toList]
    cases found : unused[v]? with
    | none => simp [found] at left
    | some edges => simpa [found] using left
  have counted := total_set (unused.toList.map List.length) rest.length
    (i := v) (x := rest.length + 1) (by simp [here])
  rw [unusedCount, unusedCount, Array.toList_setIfInBounds, List.map_set]
  omega

theorem Tracks.explored_of_done (known : Explored d explored)
    (tracks : Tracks d explored start [] unused trail) :
    Explored d (trail.visited ++ explored) where
  settled v member := by
    rcases List.mem_append.mp member with visited | inside
    · exact (tracks.settled v visited).resolve_left (by simp)
    · exact known.settled v inside
  closed v member w edge := by
    rcases List.mem_append.mp member with visited | inside
    · rw [List.mem_append]
      refine (tracks.next_seen v visited w edge).resolve_left ?_
      rw [(tracks.used v visited).resolve_left (by simp)]
      simp
    · exact List.mem_append_right _ (known.closed v inside w edge)

/-- A walk that is long enough closes a cycle, or leaves only explored vertices behind. -/
theorem follow_spec (known : Explored d explored) (fuel : Nat) :
    ∀ {stack : List Nat} {unused : Array (List Nat)} {trail : Trail},
      Tracks d explored start stack unused trail →
      2 * unusedCount unused + stack.length ≤ fuel →
      (∃ cycle, Trail.follow explored (edgeWalk fuel stack unused) trail = .error cycle ∧
        IsCycle d.Edge cycle) ∨
      ∃ last, Trail.follow explored (edgeWalk fuel stack unused) trail = .ok last ∧
        Explored d (last.visited ++ explored) ∧ trail.visited ⊆ last.visited := by
  induction fuel with
  | zero =>
      intro stack unused trail tracks enough
      obtain rfl : stack = [] := List.length_eq_zero_iff.mp (by omega)
      exact .inr ⟨trail, rfl, tracks.explored_of_done known, List.Subset.refl _⟩
  | succ fuel ih =>
      intro stack unused trail tracks enough
      cases stack with
      | nil => exact .inr ⟨trail, rfl, tracks.explored_of_done known, List.Subset.refl _⟩
      | cons v below =>
          rw [List.length_cons] at enough
          simp only [edgeWalk]
          cases left : unused.getD v [] with
          | nil => exact ih (tracks.pop left) (by omega)
          | cons w rest =>
              have fewer := unusedCount_use left
              rcases tracks.step known left with
                ⟨cycle, isCycle, ends⟩ | ⟨next, later, more, goesOn⟩
              · exact .inl ⟨cycle, ends _, isCycle⟩
              · simp only [goesOn]
                refine (ih later (by simp; omega)).imp_right ?_
                rintro ⟨last, followed, knownLast, grows⟩
                exact ⟨last, followed, knownLast, List.Subset.trans more grows⟩

theorem findCycleFrom_spec (starts : List Nat) : ∀ {explored : List Nat}, Explored d explored →
    (∃ cycle, d.findCycleFrom starts explored = some cycle ∧ IsCycle d.Edge cycle) ∨
      d.findCycleFrom starts explored = none ∧ ∀ v ∈ starts, d.Settled v := by
  induction starts with
  | nil => exact fun _ => .inr ⟨rfl, by simp⟩
  | cons start rest ih =>
      intro explored known
      rw [findCycleFrom]
      split
      · rename_i inside
        have settled := known.settled start (by simpa using inside)
        exact (ih known).imp_right fun ⟨none_, later⟩ =>
          ⟨none_, List.forall_mem_cons.mpr ⟨settled, later⟩⟩
      · rename_i new
        rcases follow_spec known (2 * d.edgeCount + 1) (tracks_start (by simpa using new))
          (Nat.le_refl _) with ⟨cycle, followed, isCycle⟩ | ⟨last, followed, knownLast, grows⟩
        · rw [edgesFrom, followed]
          exact .inl ⟨cycle, rfl, isCycle⟩
        · rw [edgesFrom, followed]
          have settled := knownLast.settled start
            (List.mem_append_left _ (grows List.mem_cons_self))
          exact (ih knownLast).imp_right fun ⟨none_, later⟩ =>
            ⟨none_, List.forall_mem_cons.mpr ⟨settled, later⟩⟩

end Follow

/-- A cycle is found, or there is none. -/
theorem findCycle?_spec (d : Digraph) :
    (∃ cycle, d.findCycle? = some cycle ∧ IsCycle d.Edge cycle) ∨
      d.findCycle? = none ∧ ∀ v, ¬ TransGen d.Edge v v := by
  have nothing : Explored d [] := ⟨by simp, by simp⟩
  refine (findCycleFrom_spec (List.range d.size) nothing).imp_right fun ⟨none_, settled⟩ => ?_
  refine ⟨none_, fun v cycle => ?_⟩
  obtain ⟨w, edge, _⟩ := Relation.TransGen.head'_iff.mp cycle
  exact (settled v (List.mem_range.mpr edge.tail_lt)).not_transGen cycle

theorem exists_findCycle? (proper : d.Proper) (cyclic : d.isAcyclic = false) :
    ∃ cycle, d.findCycle? = some cycle ∧ IsCycle d.Edge cycle := by
  refine d.findCycle?_spec.resolve_right fun ⟨_, acyclic⟩ => ?_
  simp [(isAcyclic_iff proper).mpr acyclic] at cyclic

end EGraphSearch.Digraph
