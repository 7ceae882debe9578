import EGraphSearch.Proofs.Digraph.Order
import EGraphSearch.Proofs.Term.Validity

/-!
# Computing a term from below

A quantity of the classes of a term is computed along the reversed topological order, so that every
vertex comes after the vertices that it uses.  If the term is valid, every vertex has uses, nothing
is missing, and the results solve the recursive equation of the quantity: the result of a class is
computed from its node and the results of the node's children, with repetitions and in order.
-/

set_option autoImplicit false

namespace EGraphSearch

open Relation (TransGen ReflTransGen)

namespace Picks

variable {g : EGraph} {f : Picks} {α : Type}

/-- The quantity of a class is computed from its node and the quantities of the children. -/
def Solves (g : EGraph) (f : Picks) (value : Nat → List α → α) (result : Nat → α) : Prop :=
  ∀ c n, f c = some n → result c = value n ((g.childrenOf n).map result)

/-- Nothing is ever used without end. -/
theorem IsTerm.wellFounded (term : IsTerm g f) : WellFounded fun a b => f.Uses g b a := by
  have climb : ∀ c : Fin g.numClasses, Acc (fun a b => f.Uses g b a) c.1 := by
    intro c
    induction c using (wellFounded_uses term.acyclic).induction with
    | _ c ih =>
        refine Acc.intro _ fun d uses => ?_
        obtain ⟨n, picked⟩ := Option.isSome_iff_exists.mp (term.closed _ _ uses)
        exact ih ⟨d, (term.member d n picked).1⟩ (.single uses)
  refine ⟨fun c => ?_⟩
  cases picked : f c with
  | some n => exact climb ⟨c, (term.member c n picked).1⟩
  | none =>
      refine Acc.intro _ fun d uses => ?_
      obtain ⟨n, picked', _⟩ := uses
      cases picked.symm.trans picked'

theorem IsTerm.solution_unique (term : IsTerm g f) {value : Nat → List α → α}
    {first second : Nat → α} (solves : f.Solves g value first) (solves' : f.Solves g value second)
    {c : Nat} (picked : (f c).isSome) : first c = second c := by
  induction c using term.wellFounded.induction with
  | _ c ih =>
      obtain ⟨n, here⟩ := Option.isSome_iff_exists.mp picked
      rw [solves c n here, solves' c n here]
      congr 1
      refine List.map_congr_left fun d child => ?_
      have uses : f.Uses g c d := ⟨n, here, child⟩
      exact ih d uses (term.closed c d uses)

end Picks

namespace Term

variable {g : EGraph} {t : Term} {d e : Dependencies} {α : Type}

namespace Dependencies

/-! ## Where the vertices come from -/

def Within (d e : Dependencies) (labels : List Label) : Prop :=
  ∀ v < e.classes.size, (v < d.classes.size ∧ e.label v = d.label v) ∨ e.label v ∈ labels

theorem Within.trans {f : Dependencies} {first second : List Label} (within : Within d e first)
    (later : Within e f second) : Within d f (first ++ second) := by
  intro v inside
  rcases later v inside with ⟨old, same⟩ | fresh
  · rw [same]
    exact (within v old).imp_right (List.mem_append_left _)
  · exact .inr (List.mem_append_right _ fresh)

theorem mention_within {label : Label} {v : Nat} (mentioned : d.mention label = .ok (v, e)) :
    Within d e [label] := by
  unfold mention at mentioned
  split at mentioned
  · cases mentioned
  · split at mentioned
    · cases mentioned
      exact fun u inside => .inl ⟨inside, rfl⟩
    · cases mentioned
      intro u inside
      rcases Nat.lt_succ_iff_lt_or_eq.mp (by simpa using inside) with old | rfl
      · exact .inl ⟨old, (label_withVertex (d := d) label u).trans (if_neg (Nat.ne_of_lt old))⟩
      · exact .inr (List.mem_singleton.mpr
          ((label_withVertex (d := d) label _).trans (if_pos rfl)))

theorem mentionAll_within (labels : List Label) : ∀ {d e : Dependencies} {vs : List Nat},
    mentionAll labels d = .ok (vs, e) → Within d e labels := by
  induction labels with
  | nil =>
      intro d e vs mentioned
      cases mentioned
      exact fun v inside => .inl ⟨inside, rfl⟩
  | cons label rest ih =>
      intro d e vs mentioned
      simp only [mentionAll, bind, Except.bind] at mentioned
      split at mentioned
      · cases mentioned
      · rename_i first
        split at mentioned
        · cases mentioned
        · rename_i later
          cases mentioned
          exact (mention_within first).trans (ih later)

theorem addEntry_within {cls node : Label} (added : addEntry g d (cls, node) = .ok e) :
    ∃ n, g.nodeIndex node = .ok n ∧ Within d e (cls :: (g.childrenOf n).map g.classLabel) := by
  simp only [addEntry, bind, Except.bind] at added
  split at added
  · cases added
  · rename_i n found
    split at added
    · cases added
    · rename_i first
      split at added
      · cases added
      · rename_i later
        cases added
        have within := (mention_within first).trans (mentionAll_within _ later)
        exact ⟨n, found, within⟩

/-- The label is that of an entry, or of a child of an entry's node. -/
def Mentioned (g : EGraph) (entries : List (Label × Label)) (label : Label) : Prop :=
  ∃ entry ∈ entries, label = entry.1 ∨
    ∃ n, g.nodeIndex entry.2 = .ok n ∧ ∃ c ∈ g.childrenOf n, label = g.classLabel c

theorem foldlM_addEntry_mentioned (todo : List (Label × Label)) : ∀ {d e : Dependencies},
    todo.foldlM (addEntry g) d = .ok e → ∀ v < e.classes.size,
      (v < d.classes.size ∧ e.label v = d.label v) ∨ Mentioned g todo (e.label v) := by
  induction todo with
  | nil =>
      intro d e folded
      cases folded
      exact fun v inside => .inl ⟨inside, rfl⟩
  | cons entry rest ih =>
      intro d e folded v inside
      rw [List.foldlM_cons] at folded
      simp only [bind, Except.bind] at folded
      split at folded
      · cases folded
      · rename_i between added
        rcases ih folded v inside with ⟨old, same⟩ | ⟨other, member, mentioned⟩
        · obtain ⟨n, found, within⟩ := addEntry_within added
          rw [same]
          refine (within v old).imp_right fun listed => ⟨entry, List.mem_cons_self, ?_⟩
          rcases List.mem_cons.mp listed with here | child
          · exact .inl here
          · obtain ⟨c, child, named⟩ := List.mem_map.mp child
            exact .inr ⟨n, found, c, child, named.symm⟩
        · exact .inr ⟨other, List.mem_cons_of_mem _ member, mentioned⟩

theorem usesOf_isSome (fits : ∀ entry ∈ t.assignment, t.Fits g entry)
    (built : t.dependencies g = .ok d) (records : Records g d t.assignment) {v : Nat}
    (inside : v < d.classes.size) : (d.usesOf v).isSome := by
  have assigned : t.assignment.contains (d.label v) = true := by
    rcases foldlM_addEntry_mentioned t.assignment built v inside with
      ⟨impossible, _⟩ | ⟨entry, member, same | ⟨n, found, c, child, same⟩⟩
    · exact absurd impossible (Nat.not_lt_zero v)
    · exact Table.contains_iff.mpr ⟨entry, member, by rw [same]⟩
    · obtain ⟨m, index, _, children⟩ := fits entry member
      cases Except.ok.inj (index.symm.trans found)
      rw [same]
      exact children c child
  obtain ⟨entry, member, same⟩ := Table.contains_iff.mp assigned
  obtain ⟨w, lt, sameThere, used⟩ := records.recorded entry member
  obtain rfl := records.distinct.eq_of_beq lt inside
    ((Label.beq_iff_key_eq _ _).mpr (sameThere.trans same))
  exact used

/-! ## Along the order -/

section Fold

variable {missing : α} {combine : Label → List α → Except Fault α}

def foldStep (d : Dependencies) (missing : α) (combine : Label → List α → Except Fault α)
    (results : Array α) (v : Nat) : Except Fault (Array α) :=
  match d.usesOf v with
  | none => .error (.missingKey (d.label v))
  | some children => do
    let result ← combine (d.label v) (children.map fun w => results.getD w missing)
    return results.setIfInBounds v result

theorem fold_eq {order : List Nat} (sorted : d.digraph.topologicalOrder? = some order) :
    d.fold missing combine =
      order.reverse.foldlM (d.foldStep missing combine)
        (Array.replicate d.classes.size missing) := by
  simp only [fold, bottomUp, sorted, bind, Except.bind]
  rfl

/-- The results of these vertices are computed from those of the vertices that they use. -/
def Computed (d : Dependencies) (missing : α) (combine : Label → List α → Except Fault α)
    (done : List Nat) (results : Array α) : Prop :=
  ∀ v ∈ done, ∀ vs, d.usesOf v = some vs →
    combine (d.label v) (vs.map fun w => results.getD w missing) = .ok (results.getD v missing)

/-- What one step writes is not read by the results that are there already. -/
theorem foldStep_spec {done : List Nat} {results : Array α} {v : Nat}
    (computed : d.Computed missing combine done results) (inside : v < results.size)
    (fresh : v ∉ done) (used : (d.usesOf v).isSome)
    (notUsed : ∀ u ∈ v :: done, ¬ d.digraph.Edge u v)
    (answers : ∀ children, ∃ result, combine (d.label v) children = .ok result) :
    ∃ after, d.foldStep missing combine results v = .ok after ∧ after.size = results.size ∧
      d.Computed missing combine (done ++ [v]) after := by
  obtain ⟨vs, used⟩ := Option.isSome_iff_exists.mp used
  obtain ⟨result, answer⟩ := answers (vs.map fun w => results.getD w missing)
  have written : ∀ w, (results.setIfInBounds v result).getD w missing =
      if w = v then result else results.getD w missing := by
    intro w
    simp only [Array.getD_eq_getD_getElem?, Array.getElem?_setIfInBounds]
    by_cases same : w = v
    · simp [same, inside]
    · simp [same, Ne.symm same]
  have children : ∀ u ∈ v :: done, ∀ us, d.usesOf u = some us →
      (us.map fun w => (results.setIfInBounds v result).getD w missing) =
        us.map fun w => results.getD w missing := by
    intro u member us usedBy
    refine List.map_congr_left fun w listed => ?_
    rw [written, if_neg]
    rintro rfl
    exact notUsed u member (edge_iff.mpr ⟨us, usedBy, listed⟩)
  refine ⟨results.setIfInBounds v result, ?_, by simp, ?_⟩
  · simp only [foldStep, used, answer, bind, Except.bind, pure, Except.pure]
  · intro u member us usedBy
    rcases List.mem_append.mp member with earlier | now
    · rw [children u (List.mem_cons_of_mem _ earlier) us usedBy, written,
        if_neg (ne_of_mem_of_not_mem earlier fresh)]
      exact computed u earlier us usedBy
    · obtain rfl := List.mem_singleton.mp now
      cases Option.some.inj (used.symm.trans usedBy)
      rw [children u List.mem_cons_self vs used, written, if_pos rfl]
      exact answer

theorem foldlM_foldStep_spec (todo : List Nat) :
    ∀ {done : List Nat} {results : Array α}, d.Computed missing combine done results →
      (done ++ todo).Nodup → (∀ v ∈ todo, v < results.size ∧ (d.usesOf v).isSome) →
      (∀ v, ¬ d.digraph.Edge v v) →
      (done ++ todo).Pairwise (fun u v => ¬ d.digraph.Edge u v) →
      (∀ v ∈ todo, ∀ children, ∃ result, combine (d.label v) children = .ok result) →
      ∃ after, todo.foldlM (d.foldStep missing combine) results = .ok after ∧
        after.size = results.size ∧ d.Computed missing combine (done ++ todo) after := by
  induction todo with
  | nil =>
      intro done results computed _ _ _ _ _
      exact ⟨results, rfl, rfl, by simpa using computed⟩
  | cons v rest ih =>
      intro done results computed nodup inside loopless forward answers
      have split_ : done ++ v :: rest = (done ++ [v]) ++ rest := by simp
      obtain ⟨_, _, apart⟩ := List.nodup_append.mp nodup
      obtain ⟨_, _, before⟩ := List.pairwise_append.mp forward
      obtain ⟨after, stepped, size, computedNext⟩ := foldStep_spec computed
        (inside v List.mem_cons_self).1 (fun member => apart v member v List.mem_cons_self rfl)
        (inside v List.mem_cons_self).2 (by
          intro u member
          rcases List.mem_cons.mp member with rfl | earlier
          · exact loopless u
          · exact before u earlier v List.mem_cons_self)
        (answers v List.mem_cons_self)
      obtain ⟨last, folded, sizeLast, computedLast⟩ := ih computedNext (split_ ▸ nodup)
        (fun w member => size ▸ inside w (List.mem_cons_of_mem _ member)) loopless
        (split_ ▸ forward) fun w member => answers w (List.mem_cons_of_mem _ member)
      refine ⟨last, ?_, sizeLast.trans size, split_ ▸ computedLast⟩
      rw [List.foldlM_cons, stepped]
      exact folded

variable (missing combine)

/-- On an acyclic graph all of whose vertices have uses, a fold computes every vertex. -/
theorem fold_spec (proper : d.digraph.Proper) (sizes : d.uses.size = d.classes.size)
    (acyclic : d.digraph.isAcyclic = true)
    (used : ∀ v < d.classes.size, (d.usesOf v).isSome)
    (answers : ∀ v < d.classes.size, ∀ children, ∃ result,
      combine (d.label v) children = .ok result) :
    ∃ results, d.fold missing combine = .ok results ∧ results.size = d.classes.size ∧
      ∀ v < d.classes.size, ∀ vs, d.usesOf v = some vs →
        combine (d.label v) (vs.map fun w => results.getD w missing) =
          .ok (results.getD v missing) := by
  obtain ⟨order, sorted, ordered⟩ := Digraph.exists_topologicalOrder proper acyclic
  have vertex : ∀ v, v ∈ order.reverse ↔ v < d.classes.size := by
    intro v
    rw [List.mem_reverse, ordered.mem_iff]
    simp [Digraph.size, digraph, sizes]
  have nothing : d.Computed missing combine [] (Array.replicate d.classes.size missing) := by
    simp [Computed]
  obtain ⟨results, folded, size, computed⟩ := foldlM_foldStep_spec order.reverse nothing
    (by simpa using ordered.nodup)
    (fun v member => ⟨by simpa using (vertex v).mp member, used v ((vertex v).mp member)⟩)
    (fun v loop => (Digraph.isAcyclic_iff proper).mp acyclic v (.single loop))
    (by simpa [List.pairwise_reverse] using ordered.forward)
    (fun v member => answers v ((vertex v).mp member))
  refine ⟨results, (fold_eq sorted).trans folded, by simpa using size, ?_⟩
  exact fun v inside => computed v (by simpa using (vertex v).mpr inside)

variable {missing combine}

def resultOf (g : EGraph) (d : Dependencies) (missing : α) (results : Array α) (c : Nat) : α :=
  ((Label.position? d.classes (g.classLabel c)).bind (results[·]?)).getD missing

theorem resultOf_eq (shaped : Shaped g d) {results : Array α} {v c : Nat}
    (isClass : d.IsClass g v c) : d.resultOf g missing results c = results.getD v missing := by
  rw [resultOf, shaped.distinct.position?_eq isClass.1
    ((Label.beq_iff_key_eq _ _).mpr isClass.2.2), Option.bind_some, Array.getD_eq_getD_getElem?]

theorem map_resultOf (shaped : Shaped g d) {results : Array α} {vs cs : List Nat}
    (all : List.Forall₂ (d.IsClass g) vs cs) :
    vs.map (results.getD · missing) = cs.map (d.resultOf g missing results) := by
  induction all with
  | nil => rfl
  | cons isClass _ ih => rw [List.map_cons, List.map_cons, ih, resultOf_eq shaped isClass]

variable (missing combine)

/-- On a valid term a fold solves the equations of what it computes. -/
theorem fold_solves (value : Nat → List α → α) (wf : g.toArena.WellFormed)
    (keyed : t.assignment.Keyed) (built : t.dependencies g = .ok d)
    (records : Records g d t.assignment) (fits : ∀ entry ∈ t.assignment, t.Fits g entry)
    (acyclic : ∀ c, ¬ TransGen ((t.picks g).Uses g) c c)
    (answers : ∀ c n label children, t.picks g c = some n → label.key = (g.classLabel c).key →
      combine label children = .ok (value n children)) :
    ∃ results, d.fold missing combine = .ok results ∧
      (t.picks g).Solves g value (d.resultOf g missing results) ∧
      ∀ c n cls, t.picks g c = some n → cls.key = (g.classLabel c).key →
        d.lookup results cls = .ok (d.resultOf g missing results c) := by
  have picked_of : ∀ v < d.classes.size, ∃ c n, d.IsClass g v c ∧ t.picks g c = some n := by
    intro v inside
    obtain ⟨c, isClass⟩ := records.isClass v inside
    obtain ⟨vs, used⟩ := Option.isSome_iff_exists.mp (usesOf_isSome fits built records inside)
    obtain ⟨n, picked, _⟩ := records.picked_of_usesOf keyed isClass used
    exact ⟨c, n, isClass, picked⟩
  obtain ⟨results, folded, size, computed⟩ := fold_spec missing combine
    records.proper records.size_eq ((records.acyclic_iff wf keyed).mpr acyclic)
    (fun v inside => usesOf_isSome fits built records inside) (by
      intro v inside children
      obtain ⟨c, n, isClass, picked⟩ := picked_of v inside
      exact ⟨_, answers c n _ children picked isClass.2.2⟩)
  refine ⟨results, folded, ?_, ?_⟩
  · intro c n picked
    obtain ⟨v, vs, isClass, used, all⟩ := records.vertex_of_picked keyed picked
    have here := computed v isClass.1 vs used
    rw [answers c n _ _ picked isClass.2.2] at here
    rw [resultOf_eq records.toShaped isClass, ← Except.ok.inj here,
      map_resultOf records.toShaped all]
  · intro c n cls picked same
    obtain ⟨v, _, isClass, _⟩ := records.vertex_of_picked keyed picked
    have position : Label.position? d.classes cls = some v :=
      records.distinct.position?_eq isClass.1
        ((Label.beq_iff_key_eq _ _).mpr (isClass.2.2.trans same.symm))
    have inside : v < results.size := size ▸ isClass.1
    simp [lookup, position, resultOf_eq records.toShaped isClass, inside]

end Fold

end Dependencies

end Term

end EGraphSearch
