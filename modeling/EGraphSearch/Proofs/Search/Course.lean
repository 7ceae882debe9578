import EGraphSearch.Proofs.Search.Clock

/-!
# Courses of one worker

A course is anything that one worker can do with a plan: playouts from nodes of the tree, one after
the other, and commitments.  A search is a course, whether it comes to its own end or the clock
stops it.
-/

set_option autoImplicit false

namespace EGraphSearch

variable {σ ρ α : Type} [Scalar α]

/-- What one worker can come to: it plays from nodes of the tree, one playout after the other, and
commits to nodes, as often as it likes. -/
inductive Course (plan : Plan σ ρ α) (oracle : σ) : Progress σ α → Prop
  | opened : Course plan oracle (plan.opened oracle)
  | played {s next : Progress σ α} {start : Nat} {source : ρ} {leaf : Leaf α}
      (course : Course plan oracle s) (inside : start < s.tree.size)
      (played : playout plan.toProblem plan.tuning start source s = (.ok leaf, next)) :
      Course plan oracle (next.record plan.tuning leaf)
  | committed {s : Progress σ α} {child : Nat} (course : Course plan oracle s)
      (inside : child < s.tree.size) : Course plan oracle (s.commit child)

theorem Course.sane {plan : Plan σ ρ α} {oracle : σ} {s : Progress σ α}
    (wf : plan.graph.toArena.WellFormed) (course : Course plan oracle s) :
    Sane plan.toProblem (fun _ => True) s := by
  induction course with
  | opened => exact (sane_initial oracle).report _
  | played _ inside played ih => exact ih.play wf priced_trivial inside played
  | committed _ inside ih => exact ⟨ih.faithful, inside, ih.best⟩

section Searches

variable {plan : Plan σ ρ α} {oracle : σ}

theorem Course.batch (wf : plan.graph.toArena.WellFormed) {s u : Progress σ α} {index count : Nat}
    (course : Course plan oracle s)
    (batch : Batch plan.toProblem plan.tuning plan.stream s.committed index count s u) :
    Course plan oracle u := by
  have inside := (course.sane wf).committed_lt
  have kept : Course plan oracle u ∧ s.committed < u.tree.size := by
    refine batch.keeps (Q := fun v => Course plan oracle v ∧ s.committed < v.tree.size) ?_
      ⟨course, inside⟩
    rintro i v next leaf ⟨course, inside⟩ played
    have spec := playout_spec wf priced_trivial (course.sane wf).faithful inside played
    obtain ⟨_, _, playedTree⟩ := spec.played
    refine ⟨.played course inside played, ?_⟩
    rw [tree_record]
    exact Nat.lt_of_lt_of_le inside playedTree.kept.size_le
  exact kept.1

theorem Course.commit (wf : plan.graph.toArena.WellFormed) {s : Progress σ α} {move child : Nat}
    (course : Course plan oracle s)
    (picked : s.tree.mostVisited s.committed true = .ok (some (move, child))) :
    Course plan oracle (s.commit child) := by
  have sane := course.sane wf
  exact .committed course (child_lt sane.faithful sane.committed_lt picked)

theorem course_searched (wf : plan.graph.toArena.WellFormed)
    (alone : Number.below 1 plan.tuning.workers = false)
    (ended : (plan.searched oracle).result = .ok ()) :
    Course plan oracle (plan.searched oracle).progress :=
  search_keeps alone (fun course batch => course.batch wf batch)
    (fun course picked => course.commit wf picked) .opened ended

theorem course_searchedWithin (wf : plan.graph.toArena.WellFormed) {looks : Nat}
    (ended : (plan.searchedWithin looks oracle).result = .ok ()) :
    Course plan oracle (plan.searchedWithin looks oracle).progress :=
  searchedWithin_keeps (fun course batch => course.batch wf batch)
    (fun course picked => course.commit wf picked) .opened ended

end Searches

end EGraphSearch
