import EGraphSearch.Proofs.Term.Fold
import Mathlib

/-!
# Terms unfolded

A class that is referenced more than once appears once in a term and once for each reference in the
tree.  The expression of a class is its unfolding, the tree size counts the operators in it, and a
term is as large as its tree exactly if nothing but the root goes without a reference and nothing is
referenced twice.
-/

set_option autoImplicit false

namespace EGraphSearch

open Relation (TransGen ReflTransGen)

theorem total_eq_sum (xs : List Nat) : total xs = xs.sum := by
  induction xs with
  | nil => rfl
  | cons x rest ih => rw [total_cons, List.sum_cons, ih]

namespace Expr

mutual

/-- The number of operators in an expression. -/
def size : Expr → Nat
  | .node _ args => 1 + sizes args

def sizes : List Expr → Nat
  | [] => 0
  | first :: rest => size first + sizes rest

end

theorem sizes_eq (args : List Expr) : sizes args = total (args.map size) := by
  induction args with
  | nil => rfl
  | cons first rest ih => rw [sizes, ih, List.map_cons, total_cons]

theorem size_node (op : Label) (args : List Expr) :
    (node op args).size = 1 + total (args.map size) := by
  rw [size, sizes_eq]

end Expr

/-! ## Counting references -/

namespace Picks

variable {g : EGraph} {f : Picks}

/-- The children of the node picked for a class, with repetitions. -/
def needs (g : EGraph) (f : Picks) (c : Nat) : List Nat := ((f c).map g.childrenOf).getD []

theorem mem_needs {c d : Nat} : d ∈ f.needs g c ↔ f.Uses g c d := by
  unfold needs Uses
  cases f c <;> simp

/-- One for the node itself, and the sizes of its children. -/
def treeValue (_n : Nat) (children : List Nat) : Nat := 1 + total children

theorem Solves.treeSize_eq {sizes : Nat → Nat} (solves : f.Solves g treeValue sizes) {c : Nat}
    (picked : (f c).isSome) : sizes c = 1 + ((f.needs g c).map sizes).sum := by
  obtain ⟨n, picked⟩ := Option.isSome_iff_exists.mp picked
  rw [solves c n picked, treeValue, total_eq_sum, needs, picked]
  rfl

theorem Solves.sum_treeSize {sizes : Nat → Nat} (solves : f.Solves g treeValue sizes)
    {classes : List Nat} (picked : ∀ c ∈ classes, (f c).isSome) : (classes.map sizes).sum =
      classes.length + ((classes.flatMap (f.needs g)).map sizes).sum := by
  induction classes with
  | nil => rfl
  | cons c rest ih =>
      obtain ⟨here, later⟩ := List.forall_mem_cons.mp picked
      rw [List.map_cons, List.sum_cons, ih later, solves.treeSize_eq here, List.flatMap_cons,
        List.map_append, List.sum_append, List.length_cons]
      omega

theorem IsTerm.picked_of_listed (term : IsTerm g f) {classes : List Nat} {c : Nat}
    (listed : c ∈ g.root :: classes.flatMap (f.needs g)) : (f c).isSome := by
  rcases List.mem_cons.mp listed with rfl | referenced
  · exact term.root_picked
  · obtain ⟨b, _, uses⟩ := List.mem_flatMap.mp referenced
    exact term.closed b c (mem_needs.mp uses)

theorem IsTerm.root_unreferenced (term : IsTerm g f) (classes : List Nat) :
    g.root ∉ classes.flatMap (f.needs g) := by
  intro referenced
  obtain ⟨b, _, uses⟩ := List.mem_flatMap.mp referenced
  have uses := mem_needs.mp uses
  exact term.acyclic _ (.tail' (term.connected b uses.picked) uses)

/-- The classes of a term, and what they reference, counted at the root. -/
structure Census (g : EGraph) (f : Picks) (classes extra : List Nat) : Prop where
  nodup : classes.Nodup
  mem_iff : ∀ c, c ∈ classes ↔ (f c).isSome
  perm : List.Perm (g.root :: classes.flatMap (f.needs g)) (classes ++ extra)

/-- Every class is the root or referenced, so the references cover the classes. -/
theorem IsTerm.exists_census (term : IsTerm g f) {classes : List Nat} (nodup : classes.Nodup)
    (mem_iff : ∀ c, c ∈ classes ↔ (f c).isSome) : ∃ extra, Census g f classes extra := by
  have covered : classes ⊆ g.root :: classes.flatMap (f.needs g) := by
    intro c member
    rcases ReflTransGen.cases_tail (term.connected c ((mem_iff c).mp member)) with
      rfl | ⟨b, _, uses⟩
    · exact List.mem_cons_self
    · exact List.mem_cons_of_mem _
        (List.mem_flatMap.mpr ⟨b, (mem_iff b).mpr uses.picked, mem_needs.mpr uses⟩)
  obtain ⟨front, same, sub⟩ := List.subperm_of_subset nodup covered
  obtain ⟨extra, perm⟩ := sub.exists_perm_append
  exact ⟨extra, nodup, mem_iff, perm.trans (same.append_right extra)⟩

namespace Census

variable {classes extra : List Nat}

/-- Each class counts once, and each reference beyond the first counts for a whole subtree. -/
theorem size_root (census : Census g f classes extra) {sizes : Nat → Nat}
    (solves : f.Solves g treeValue sizes) :
    sizes g.root = classes.length + (extra.map sizes).sum := by
  have each := solves.sum_treeSize fun c member => (census.mem_iff c).mp member
  have both := (census.perm.map sizes).sum_eq
  rw [List.map_cons, List.sum_cons, List.map_append, List.sum_append, each] at both
  omega

theorem size_root_eq_iff (census : Census g f classes extra) (term : IsTerm g f)
    {sizes : Nat → Nat} (solves : f.Solves g treeValue sizes) :
    sizes g.root = classes.length ↔ extra = [] := by
  rw [census.size_root solves, Nat.add_eq_left]
  constructor
  · intro none_
    rw [List.eq_nil_iff_forall_not_mem]
    intro c member
    have listed := census.perm.mem_iff.mpr (List.mem_append_right classes member)
    have positive := solves.treeSize_eq (term.picked_of_listed listed)
    have := List.le_sum_of_mem (List.mem_map_of_mem (f := sizes) member)
    omega
  · rintro rfl
    rfl

theorem extra_eq_nil_iff (census : Census g f classes extra) (term : IsTerm g f) :
    extra = [] ↔ ∀ c ∈ classes, c ≠ g.root → (classes.flatMap (f.needs g)).count c = 1 := by
  have count : ∀ c ∈ classes, (g.root :: classes.flatMap (f.needs g)).count c =
      1 + extra.count c := by
    intro c member
    rw [census.perm.count_eq, List.count_append, List.count_eq_one_of_mem census.nodup member]
  constructor
  · rintro rfl c member apart
    have := count c member
    rwa [List.count_cons_of_ne (Ne.symm apart)] at this
  · intro once
    rw [List.eq_nil_iff_forall_not_mem]
    intro c member
    have listed := census.perm.mem_iff.mpr (List.mem_append_right classes member)
    have assigned := (census.mem_iff c).mpr (term.picked_of_listed listed)
    have counted := count c assigned
    have positive := List.count_pos_iff.mpr member
    by_cases root : c = g.root
    · subst root
      rw [List.count_cons_self, List.count_eq_zero.mpr (term.root_unreferenced classes)] at counted
      omega
    · rw [List.count_cons_of_ne (Ne.symm root), once c assigned root] at counted
      omega

end Census

end Picks

/-! ## Unfoldings by name -/

namespace Term

variable {g : EGraph} {t : Term} {d : Dependencies}

/-- The expression applies the operator of the node chosen for the class to unfoldings of the
node's children, in order and with repetitions. -/
inductive Unfolds (g : EGraph) (t : Term) : Label → Expr → Prop
  | node {cls node op : Label} {children : List Label} {args : List Expr}
      (chosen : t.nodeOf cls = .ok node) (operator : g.opLabel node = .ok op)
      (arguments : g.childLabels node = .ok children)
      (unfolded : List.Forall₂ (Unfolds g t) children args) : Unfolds g t cls (.node op args)

/-- The children of all chosen nodes, with repetitions. -/
def mentions (g : EGraph) (t : Term) : List Label :=
  t.assignment.values.flatMap fun node => (g.childLabels node).toOption.getD []

/-- How often the term refers to a class. -/
def references (g : EGraph) (t : Term) (cls : Label) : Nat := (t.mentions g).countP (· == cls)

theorem opLabel_of_index {node : Label} {n : Nat} (index : g.nodeIndex node = .ok n) :
    g.opLabel node = .ok (g.opOf n) := by
  rw [EGraph.opLabel, index]
  rfl

theorem childLabels_of_index {node : Label} {n : Nat} (index : g.nodeIndex node = .ok n) :
    g.childLabels node = .ok ((g.childrenOf n).map g.classLabel) := by
  rw [EGraph.childLabels, index]
  rfl

theorem nodeOf_of_picks (keyed : t.assignment.Keyed) {c n : Nat} (picked : t.picks g c = some n)
    {cls : Label} (same : cls.key = (g.classLabel c).key) :
    ∃ node, t.nodeOf cls = .ok node ∧ g.nodeIndex node = .ok n := by
  obtain ⟨_, entry, member, label, index⟩ := (picks_eq_some keyed).mp picked
  have found := keyed.get?_of_mem (show (entry.1, entry.2) ∈ _ from member)
  rw [Table.get?_congr _ (label.trans same.symm)] at found
  exact ⟨entry.2, by rw [nodeOf, found], index⟩

/-! ## What the fold computes is the unfolding -/

/-- The expression of a node, from those of its children. -/
def exprValue (g : EGraph) (n : Nat) (args : List Expr) : Expr := .node (g.opOf n) args

theorem forall₂_map_iff {α β γ : Type} {R : β → γ → Prop} {name : α → β} {value : α → γ}
    (xs : List α) : ∀ {ys : List γ}, (∀ x ∈ xs, ∀ y, R (name x) y ↔ y = value x) →
      (List.Forall₂ R (xs.map name) ys ↔ ys = xs.map value) := by
  induction xs with
  | nil =>
      intro ys _
      simp
  | cons x rest ih =>
      intro ys each
      obtain ⟨here, later⟩ := List.forall_mem_cons.mp each
      cases ys with
      | nil => simp
      | cons y tail =>
          rw [List.map_cons, List.forall₂_cons, here y, ih later, List.map_cons, List.cons.injEq]

theorem unfolds_iff (keyed : t.assignment.Keyed) (term : (t.picks g).IsTerm g)
    {exprs : Nat → Expr} (solves : (t.picks g).Solves g (exprValue g) exprs) {c : Nat}
    (picked : (t.picks g c).isSome) :
    ∀ {cls : Label}, cls.key = (g.classLabel c).key →
      ∀ e, t.Unfolds g cls e ↔ e = exprs c := by
  induction c using term.wellFounded.induction with
  | _ c ih =>
      intro cls same e
      obtain ⟨n, here⟩ := Option.isSome_iff_exists.mp picked
      obtain ⟨node, chosen, index⟩ := nodeOf_of_picks keyed here same
      have children : ∀ args, List.Forall₂ (t.Unfolds g) ((g.childrenOf n).map g.classLabel) args ↔
          args = (g.childrenOf n).map exprs := by
        intro args
        refine forall₂_map_iff _ fun b child => ?_
        have uses : (t.picks g).Uses g c b := ⟨n, here, child⟩
        exact ih b uses (term.closed c b uses) rfl
      rw [solves c n here, exprValue]
      constructor
      · rintro ⟨chosen', operator, arguments, unfolded⟩
        cases Except.ok.inj (chosen.symm.trans chosen')
        cases Except.ok.inj ((opLabel_of_index index).symm.trans operator)
        cases Except.ok.inj ((childLabels_of_index index).symm.trans arguments)
        rw [(children _).mp unfolded]
      · rintro rfl
        exact .node chosen (opLabel_of_index index) (childLabels_of_index index)
          ((children _).mpr rfl)

theorem solves_size {exprs : Nat → Expr} (solves : (t.picks g).Solves g (exprValue g) exprs) :
    (t.picks g).Solves g Picks.treeValue fun c => (exprs c).size := by
  intro c n picked
  change (exprs c).size = _
  rw [solves c n picked, exprValue, Expr.size_node, List.map_map]
  rfl

/-! ## References by name -/

theorem Sound.mentions_eq (wf : g.toArena.WellFormed) (keyed : t.assignment.Keyed)
    (sound : t.Sound g) :
    t.mentions g = ((t.classNumbers g).flatMap ((t.picks g).needs g)).map g.classLabel := by
  rw [mentions, Table.values, classNumbers, List.flatMap_map, List.flatMap_map, List.map_flatMap]
  refine List.flatMap_congr fun entry member => ?_
  obtain ⟨c, n, picked, _, index, number⟩ := sound.exists_classNumber wf keyed member
  rw [number, Picks.needs, picked, childLabels_of_index index]
  rfl

theorem Sound.references_eq (wf : g.toArena.WellFormed) (keyed : t.assignment.Keyed)
    (sound : t.Sound g) (term : (t.picks g).IsTerm g) {cls : Label} {c : Nat}
    (inside : c < g.numClasses) (same : cls.key = (g.classLabel c).key) :
    t.references g cls = ((t.classNumbers g).flatMap ((t.picks g).needs g)).count c := by
  rw [references, sound.mentions_eq wf keyed, List.countP_map, List.count]
  refine List.countP_congr fun b member => ?_
  obtain ⟨n, picked⟩ := Option.isSome_iff_exists.mp
    (term.picked_of_listed (List.mem_cons_of_mem _ member))
  have insideB := (term.member b n picked).1
  rw [Function.comp_apply, Label.beq_iff_key_eq, same, beq_iff_eq]
  exact ⟨EGraph.classLabel_inj wf insideB inside, fun same => by rw [same]⟩

/-! ## Valid terms -/

/-- What unfolding a term yields, at its classes and in size. -/
structure Unfolded (g : EGraph) (t : Term) : Prop where
  unfolds : ∀ cls, t.assignment.contains cls = true →
    ∃ e, t.toExpr g (some cls) = .ok e ∧ ∀ e', t.Unfolds g cls e' ↔ e' = e
  sized : ∃ e, t.toExpr g none = .ok e ∧ t.Unfolds g g.rootLabel e ∧
    t.treeSize g = .ok e.size ∧ t.size ≤ e.size ∧
    (t.size = e.size ↔ ∀ cls ∈ t.assignment.keys, (cls == g.rootLabel) = false →
      t.references g cls = 1)

theorem exists_fold_expr (wf : g.toArena.WellFormed) (keyed : t.assignment.Keyed)
    (built : t.dependencies g = .ok d) (records : Dependencies.Records g d t.assignment)
    (fits : ∀ entry ∈ t.assignment, t.Fits g entry)
    (acyclic : ∀ c, ¬ TransGen ((t.picks g).Uses g) c c) :
    ∃ exprs : Nat → Expr, (t.picks g).Solves g (exprValue g) exprs ∧
      ∀ c n cls, t.picks g c = some n → cls.key = (g.classLabel c).key →
        t.toExpr g (some cls) = .ok (exprs c) := by
  obtain ⟨results, folded, solves, found⟩ := Dependencies.fold_solves (.node .none [])
    (fun label children => do return .node (← g.opLabel (← t.nodeOf label)) children)
    (exprValue g) wf keyed built records fits acyclic (by
      intro c n label children picked same
      obtain ⟨node, chosen, index⟩ := nodeOf_of_picks keyed picked same
      simp only [chosen, opLabel_of_index index, bind, Except.bind, pure, Except.pure, exprValue])
  refine ⟨_, solves, fun c n cls picked same => ?_⟩
  rw [← found c n cls picked same, toExpr, built]
  simp only [bind, Except.bind, Option.getD_some] at folded ⊢
  rw [folded]

theorem treeSize_eq (wf : g.toArena.WellFormed) (keyed : t.assignment.Keyed)
    (built : t.dependencies g = .ok d) (records : Dependencies.Records g d t.assignment)
    (fits : ∀ entry ∈ t.assignment, t.Fits g entry) (term : (t.picks g).IsTerm g)
    {sizes : Nat → Nat} (solves : (t.picks g).Solves g Picks.treeValue sizes) :
    t.treeSize g = .ok (sizes g.root) := by
  obtain ⟨results, folded, solves', found⟩ := Dependencies.fold_solves 0
    (fun _ children => .ok (1 + total children)) Picks.treeValue wf keyed built records fits
    term.acyclic fun _ _ _ _ _ _ => rfl
  obtain ⟨n, picked⟩ := Option.isSome_iff_exists.mp term.root_picked
  rw [term.solution_unique solves solves' term.root_picked, ← found _ n _ picked rfl, treeSize,
    built]
  simp only [bind, Except.bind, folded]
  rfl

/-- Expressions and tree sizes are those of the unfolding. -/
theorem valid_term_unfolds (accepted : g.Accepted) (keyed : t.assignment.Keyed)
    (valid : t.validate g = .ok ()) : Unfolded g t := by
  have wf := accepted.wellFormed
  obtain ⟨⟨sound, term⟩, named, _⟩ := (validate_eq_ok_iff wf keyed).mp valid
  have fits := (fits_iff wf keyed).mpr ⟨sound, term.closed⟩
  obtain ⟨d, built, records⟩ := dependencies_of_fits wf fits named
  obtain ⟨exprs, solves, found⟩ := exists_fold_expr wf keyed built records fits term.acyclic
  obtain ⟨r, rootPicked⟩ := Option.isSome_iff_exists.mp term.root_picked
  obtain ⟨extra, census⟩ := term.exists_census (sound.nodup_classNumbers wf keyed)
    fun c => sound.mem_classNumbers wf keyed
  have sizes := solves_size solves
  have size_root := census.size_root sizes
  rw [length_classNumbers] at size_root
  refine ⟨fun cls assigned => ?_, exprs g.root, found _ r _ rootPicked rfl,
    (unfolds_iff keyed term solves term.root_picked rfl _).mpr rfl,
    treeSize_eq wf keyed built records fits term sizes, by omega, ?_⟩
  · obtain ⟨entry, member, same⟩ := Table.contains_iff.mp assigned
    obtain ⟨c, n, picked, label, _⟩ := sound.picks_of_mem wf keyed member
    have key := same.symm.trans label
    exact ⟨exprs c, found c n cls picked key,
      unfolds_iff keyed term solves (by simp [picked]) key⟩
  · rw [← length_classNumbers (g := g), eq_comm, census.size_root_eq_iff term sizes,
      census.extra_eq_nil_iff term]
    constructor
    · intro once cls listed apart
      obtain ⟨entry, member, rfl⟩ := List.mem_map.mp listed
      obtain ⟨c, n, picked, label, _⟩ := sound.picks_of_mem wf keyed member
      rw [sound.references_eq wf keyed term (term.member c n picked).1 label]
      refine once c ((sound.mem_classNumbers wf keyed).mpr (by simp [picked])) ?_
      rintro rfl
      rw [Label.beq_false_iff_key_ne] at apart
      exact apart label
    · intro once c member apart
      obtain ⟨n, picked⟩ := Option.isSome_iff_exists.mp
        ((sound.mem_classNumbers wf keyed).mp member)
      obtain ⟨inside, entry, listed, label, _⟩ := (picks_eq_some keyed).mp picked
      rw [← sound.references_eq wf keyed term inside label]
      refine once entry.1 (List.mem_map_of_mem listed) ?_
      rw [Label.beq_false_iff_key_ne, label]
      exact fun same => apart (EGraph.classLabel_inj wf inside wf.root_lt same)

/-- A node with the same child twice. -/
def pairGraph : EGraph where
  classIds := #[.text "a", .text "b"]
  nodeIds := #[.text "f", .text "x"]
  ops := #[.text "f", .text "x"]
  children := #[[1, 1], []]
  owner := #[0, 1]
  members := #[[0], [1]]
  root := 0
  levels := ⟨#[.finite 1, .finite 0], #[.finite 1, .finite 0]⟩

theorem pairGraph_accepted : pairGraph.Accepted := by
  have arranged : EGraph.arrange [⟨.text "a", [.text "f"]⟩, ⟨.text "b", [.text "x"]⟩]
      [⟨.text "f", .text "f", [.text "b", .text "b"]⟩, ⟨.text "x", .text "x", []⟩] (.text "a") =
        .ok pairGraph.toArena := by
    with_unfolding_all rfl
  exact .of_settled arranged 3 rfl ⟨1, rfl⟩

def pairTerm : Term := ⟨[(.text "a", .text "f"), (.text "b", .text "x")]⟩

/-- Two classes unfold to three operators, for one of them is referenced twice. -/
theorem valid_term_unfolds_pair :
    pairGraph.Accepted ∧ pairTerm.assignment.Keyed ∧ pairTerm.validate pairGraph = .ok () ∧
      Unfolded pairGraph pairTerm ∧ pairTerm.treeSize pairGraph = .ok 3 ∧ pairTerm.size = 2 ∧
      pairTerm.references pairGraph (.text "b") = 2 := by
  have keyed : pairTerm.assignment.Keyed := by
    refine .cons ?_ (List.pairwise_singleton _ _)
    with_unfolding_all decide
  have valid : pairTerm.validate pairGraph = .ok () := by with_unfolding_all rfl
  exact ⟨pairGraph_accepted, keyed, valid, valid_term_unfolds pairGraph_accepted keyed valid,
    by with_unfolding_all rfl, rfl, by with_unfolding_all rfl⟩

end Term

end EGraphSearch
