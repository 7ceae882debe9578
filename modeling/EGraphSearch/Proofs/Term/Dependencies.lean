import EGraphSearch.Proofs.Digraph.Descendants
import EGraphSearch.Proofs.Term.Picks

/-!
# The dependency graph of a term

The dependency graph has one vertex for each class that a term mentions.  If all entries of the term
are members of their classes, its edges are the uses between picked classes: `IsClass` relates
the two, vertex by vertex.
-/

set_option autoImplicit false

namespace EGraphSearch

open Relation (TransGen ReflTransGen)

theorem nodup_eraseDups (xs : List Nat) : xs.eraseDups.Nodup := by
  cases xs with
  | nil => simp
  | cons x rest =>
      rw [List.eraseDups_cons, List.nodup_cons]
      constructor
      · simp
      · exact nodup_eraseDups _
termination_by xs.length
decreasing_by
  have shorter := List.length_filter_le (fun y => !y == x) rest
  simp only [List.length_cons]
  omega

theorem Label.key_eq_none_iff (label : Label) : label.key = .none ↔ label = .none := by
  cases label with
  | none => simp [Label.key]
  | number n =>
      simp only [Label.key, reduceCtorEq, iff_false]
      cases n <;> simp only [Label.numberKey]
      · simp
      · simp
      · split <;> simp
  | text s => simp [Label.key]
  | tuple items => cases items <;> simp [Label.key, Label.itemsKey]

namespace Term

namespace Dependencies

variable {g : EGraph} {d e : Dependencies}

/-- The vertex is the class of that number. -/
def IsClass (g : EGraph) (d : Dependencies) (v c : Nat) : Prop :=
  v < d.classes.size ∧ c < g.numClasses ∧ (d.label v).key = (g.classLabel c).key

/-- Vertices are only ever added, and added without uses. -/
structure Extends (d e : Dependencies) : Prop where
  size_le : d.classes.size ≤ e.classes.size
  label_eq : ∀ v < d.classes.size, e.label v = d.label v
  usesOf_eq : ∀ v < d.classes.size, e.usesOf v = d.usesOf v
  fresh : ∀ v, d.classes.size ≤ v → e.usesOf v = none

/-- What holds of the vertices, whatever their uses. -/
structure Shaped (g : EGraph) (d : Dependencies) : Prop where
  size_eq : d.uses.size = d.classes.size
  distinct : Label.Distinct d.classes
  isClass : ∀ v < d.classes.size, ∃ c, d.IsClass g v c

theorem usesOf_of_le (shaped : Shaped g d) {v : Nat} (outside : d.classes.size ≤ v) :
    d.usesOf v = none := by
  have : ¬ v < d.uses.size := by
    rw [shaped.size_eq]
    omega
  simp [usesOf, Array.getD, this]

theorem Extends.refl (shaped : Shaped g d) : Extends d d :=
  ⟨le_rfl, fun _ _ => rfl, fun _ _ => rfl, fun _ => usesOf_of_le shaped⟩

theorem Extends.trans {f : Dependencies} (first : Extends d e) (second : Extends e f) :
    Extends d f where
  size_le := first.size_le.trans second.size_le
  label_eq v lt := (second.label_eq v (lt.trans_le first.size_le)).trans (first.label_eq v lt)
  usesOf_eq v lt := (second.usesOf_eq v (lt.trans_le first.size_le)).trans (first.usesOf_eq v lt)
  fresh v le := by
    by_cases lt : v < e.classes.size
    · exact (second.usesOf_eq v lt).trans (first.fresh v le)
    · exact second.fresh v (Nat.le_of_not_lt lt)

theorem IsClass.mono (extends_ : Extends d e) {v c : Nat} (isClass : d.IsClass g v c) :
    e.IsClass g v c :=
  ⟨isClass.1.trans_le extends_.size_le, isClass.2.1, by
    rw [extends_.label_eq v isClass.1]
    exact isClass.2.2⟩

/-- A vertex that is added without uses. -/
def withVertex (d : Dependencies) (label : Label) : Dependencies :=
  { classes := d.classes.push label, uses := d.uses.push none }

theorem mention_known {label : Label} (notNone : label ≠ .none) {v : Nat}
    (found : Label.position? d.classes label = some v) : d.mention label = .ok (v, d) := by
  cases label <;> simp_all [mention]

theorem mention_fresh {label : Label} (notNone : label ≠ .none)
    (found : Label.position? d.classes label = none) :
    d.mention label = .ok (d.classes.size, d.withVertex label) := by
  cases label <;> simp_all [mention, withVertex]

theorem label_withVertex (label : Label) (v : Nat) :
    (d.withVertex label).label v = if v = d.classes.size then label else d.label v := by
  simp only [Dependencies.label, withVertex, Array.getD_eq_getD_getElem?, Array.getElem?_push]
  split <;> simp

theorem usesOf_withVertex (label : Label) (v : Nat) :
    (d.withVertex label).usesOf v = d.usesOf v := by
  simp only [usesOf, withVertex, Array.getD_eq_getD_getElem?, Array.getElem?_push]
  split
  · rename_i eq
    simp [eq]
  · rfl

theorem Shaped.withVertex (shaped : Shaped g d) {label : Label} {c : Nat}
    (fresh : Label.position? d.classes label = none)
    (isClass : (d.withVertex label).IsClass g d.classes.size c) :
    Shaped g (d.withVertex label) ∧ Extends d (d.withVertex label) := by
  have labels : ∀ v < d.classes.size, (d.withVertex label).label v = d.label v := by
    intro v lt
    rw [label_withVertex, if_neg (Nat.ne_of_lt lt)]
  have size : (d.withVertex label).classes.size = d.classes.size + 1 := Array.size_push label
  refine ⟨⟨?_, shaped.distinct.push fresh, ?_⟩, ⟨?_, labels, ?_, ?_⟩⟩
  · simp [Dependencies.withVertex, shaped.size_eq]
  · intro v lt
    rcases Nat.lt_succ_iff_lt_or_eq.mp (size ▸ lt) with lt | rfl
    · obtain ⟨a, known⟩ := shaped.isClass v lt
      exact ⟨a, by omega, known.2.1, by rw [labels v lt]; exact known.2.2⟩
    · exact ⟨c, isClass⟩
  · omega
  · exact fun v _ => usesOf_withVertex label v
  · exact fun v le => (usesOf_withVertex label v).trans (usesOf_of_le shaped le)

theorem mention_spec (shaped : Shaped g d) {label : Label} {c : Nat} (inside : c < g.numClasses)
    (same : label.key = (g.classLabel c).key) (notNone : label ≠ .none) :
    ∃ v e, d.mention label = .ok (v, e) ∧ Shaped g e ∧ Extends d e ∧ e.IsClass g v c := by
  cases found : Label.position? d.classes label with
  | some v =>
      obtain ⟨lt, labelSame⟩ := Label.position?_eq_some found
      rw [Label.beq_iff_key_eq] at labelSame
      exact ⟨v, d, mention_known notNone found, shaped, .refl shaped, lt, inside,
        labelSame.trans same⟩
  | none =>
      have isClass : (d.withVertex label).IsClass g d.classes.size c := by
        refine ⟨by simp [withVertex], inside, ?_⟩
        rw [label_withVertex, if_pos rfl, same]
      obtain ⟨shapedNext, extendsNext⟩ := shaped.withVertex found isClass
      exact ⟨d.classes.size, _, mention_fresh notNone found, shapedNext, extendsNext, isClass⟩

theorem mentionAll_spec (cs : List Nat) :
    ∀ {d : Dependencies}, Shaped g d → (∀ c ∈ cs, c < g.numClasses) →
      (∀ c ∈ cs, g.classLabel c ≠ .none) →
      ∃ vs e, mentionAll (cs.map g.classLabel) d = .ok (vs, e) ∧ Shaped g e ∧ Extends d e ∧
        List.Forall₂ (e.IsClass g) vs cs := by
  induction cs with
  | nil => intro d shaped _ _; exact ⟨[], d, rfl, shaped, .refl shaped, .nil⟩
  | cons c rest ih =>
      intro d shaped inside named
      obtain ⟨v, e, mentioned, shapedNext, extendsNext, isClass⟩ :=
        mention_spec shaped (inside c (by simp)) rfl (named c (by simp))
      obtain ⟨vs, f, later, shapedLast, extendsLast, all⟩ :=
        ih shapedNext (fun b hb => inside b (by simp [hb])) fun b hb => named b (by simp [hb])
      refine ⟨v :: vs, f, ?_, shapedLast, extendsNext.trans extendsLast,
        .cons (isClass.mono extendsLast) all⟩
      simp [mentionAll, mentioned, later, bind, Except.bind, pure, Except.pure]

/-- The graph of the entries so far: each of them has a vertex with uses, and all uses come from an
entry. -/
structure Records (g : EGraph) (d : Dependencies) (entries : List (Label × Label)) : Prop
    extends Shaped g d where
  uses_from : ∀ v vs, d.usesOf v = some vs → ∃ entry ∈ entries, ∃ n,
    g.nodeIndex entry.2 = .ok n ∧ (d.label v).key = entry.1.key ∧ v < d.classes.size ∧
    List.Forall₂ (d.IsClass g) vs (g.childrenOf n)
  recorded : ∀ entry ∈ entries, ∃ v < d.classes.size,
    (d.label v).key = entry.1.key ∧ (d.usesOf v).isSome

/-- An entry that names a member of its class. -/
def Sound (g : EGraph) (entry : Label × Label) : Prop :=
  ∃ n, g.nodeIndex entry.2 = .ok n ∧ (g.classLabel (g.ownerOf n)).key = entry.1.key

/-- Every class that an entry mentions has a name. -/
def Speakable (g : EGraph) (entry : Label × Label) : Prop :=
  entry.1 ≠ .none ∧
    ∀ n, g.nodeIndex entry.2 = .ok n → ∀ c ∈ g.childrenOf n, g.classLabel c ≠ .none

theorem addEntry_spec (wf : g.toArena.WellFormed) {entries : List (Label × Label)}
    (records : Records g d entries) {entry : Label × Label} (sound : Sound g entry)
    (speakable : Speakable g entry) :
    ∃ e, addEntry g d entry = .ok e ∧ Records g e (entries ++ [entry]) := by
  obtain ⟨cls, node⟩ := entry
  obtain ⟨n, found, owner⟩ := sound
  obtain ⟨notNone, named⟩ := speakable
  have inside : n < g.numNodes := EGraph.nodeIndex_lt found
  have ownerInside := wf.owner_lt n inside
  obtain ⟨v, d₁, mentioned, shaped₁, extends₁, isClass⟩ :=
    mention_spec records.toShaped ownerInside owner.symm notNone
  obtain ⟨vs, d₂, children, shaped₂, extends₂, all⟩ :=
    mentionAll_spec (g.childrenOf n) shaped₁ (wf.child_lt n inside) (named n found)
  have extended := extends₁.trans extends₂
  have here : v < d₂.classes.size := isClass.1.trans_le extends₂.size_le
  have hereUses : v < d₂.uses.size := shaped₂.size_eq.symm ▸ here
  have labelHere : (d₂.label v).key = cls.key :=
    (extends₂.label_eq v isClass.1).symm ▸ isClass.2.2.trans owner
  have uses : ∀ u, (d₂.uses.setIfInBounds v (some vs)).getD u none =
      if u = v then some vs else d₂.usesOf u := by
    intro u
    simp only [usesOf, Array.getD_eq_getD_getElem?, Array.getElem?_setIfInBounds]
    by_cases same : u = v
    · simp [same, hereUses]
    · simp [same, Ne.symm same]
  refine ⟨{ d₂ with uses := d₂.uses.setIfInBounds v (some vs) }, ?_, ⟨?_, ?_, ?_⟩, ?_, ?_⟩
  · simp [addEntry, found, mentioned, children, bind, Except.bind, pure, Except.pure]
  · simp [shaped₂.size_eq]
  · exact shaped₂.distinct
  · exact shaped₂.isClass
  · intro u us used
    rw [usesOf, uses u] at used
    split at used
    · rename_i same
      cases Option.some.inj used
      exact ⟨(cls, node), by simp, n, found, same ▸ labelHere, same ▸ here, all⟩
    · have old : u < d.classes.size := by
        by_contra outside
        rw [extended.fresh u (Nat.le_of_not_lt outside)] at used
        simp at used
      rw [extended.usesOf_eq u old] at used
      obtain ⟨entry, member, m, foundEntry, same, _, classes⟩ := records.uses_from u us used
      refine ⟨entry, by simp [member], m, foundEntry, ?_, old.trans_le extended.size_le, ?_⟩
      · exact (extended.label_eq u old).symm ▸ same
      · exact classes.imp fun _ _ isClass => isClass.mono extended
  · intro entry member
    rcases List.mem_append.mp member with earlier | now
    · obtain ⟨u, lt, same, used⟩ := records.recorded entry earlier
      refine ⟨u, lt.trans_le extended.size_le, (extended.label_eq u lt).symm ▸ same, ?_⟩
      rw [usesOf, uses u]
      split
      · rfl
      · rw [extended.usesOf_eq u lt]
        exact used
    · rw [List.mem_singleton.mp now]
      refine ⟨v, here, labelHere, ?_⟩
      rw [usesOf, uses v, if_pos rfl]
      rfl

theorem foldlM_addEntry_spec (wf : g.toArena.WellFormed) (todo : List (Label × Label)) :
    ∀ {d : Dependencies} {entries : List (Label × Label)}, Records g d entries →
      (∀ entry ∈ todo, Sound g entry) → (∀ entry ∈ todo, Speakable g entry) →
      ∃ e, todo.foldlM (addEntry g) d = .ok e ∧ Records g e (entries ++ todo) := by
  induction todo with
  | nil => intro d entries records _ _; exact ⟨d, rfl, by simpa using records⟩
  | cons entry rest ih =>
      intro d entries records sound speakable
      obtain ⟨e, added, recordsNext⟩ :=
        addEntry_spec wf records (sound entry (by simp)) (speakable entry (by simp))
      obtain ⟨last, folded, recordsLast⟩ := ih recordsNext (fun b hb => sound b (by simp [hb]))
        fun b hb => speakable b (by simp [hb])
      refine ⟨last, ?_, by simpa using recordsLast⟩
      rw [List.foldlM_cons, added]
      exact folded

theorem records_empty : Records g {} [] where
  size_eq := rfl
  distinct := Label.distinct_empty
  isClass := by simp
  uses_from := by simp [usesOf]
  recorded := by simp

/-! Sound entries fail for want of a name only. -/

theorem mention_cases (d : Dependencies) (label : Label) :
    d.mention label = .error (.outOfRange .namelessVertex) ∨
      ∃ v e, d.mention label = .ok (v, e) := by
  unfold mention
  split
  · exact .inl rfl
  · split
    · exact .inr ⟨_, _, rfl⟩
    · exact .inr ⟨_, _, rfl⟩

theorem mentionAll_cases (labels : List Label) : ∀ d : Dependencies,
    mentionAll labels d = .error (.outOfRange .namelessVertex) ∨
      ∃ vs e, mentionAll labels d = .ok (vs, e) := by
  induction labels with
  | nil => exact fun d => .inr ⟨[], d, rfl⟩
  | cons label rest ih =>
      intro d
      simp only [mentionAll, bind, Except.bind]
      rcases mention_cases d label with failed | ⟨v, e, mentioned⟩
      · exact .inl (by rw [failed])
      · rw [mentioned]
        rcases ih e with failed | ⟨vs, f, later⟩
        · exact .inl (by simp only [failed])
        · exact .inr ⟨v :: vs, f, by simp only [later]; rfl⟩

theorem addEntry_cases {entry : Label × Label} (sound : Sound g entry) (d : Dependencies) :
    addEntry g d entry = .error (.outOfRange .namelessVertex) ∨
      entry.1 ≠ .none ∧ ∃ e, addEntry g d entry = .ok e := by
  obtain ⟨cls, node⟩ := entry
  obtain ⟨n, found, _⟩ := sound
  simp only [addEntry, found, bind, Except.bind]
  rcases mention_cases d cls with failed | ⟨v, e, mentioned⟩
  · exact .inl (by simp only [failed])
  · have notNone : cls ≠ .none := by
      rintro rfl
      cases mentioned
    rw [mentioned]
    rcases mentionAll_cases ((g.childrenOf n).map g.classLabel) e with failed | ⟨vs, f, later⟩
    · exact .inl (by simp only [failed])
    · exact .inr ⟨notNone, _, by simp only [later]; rfl⟩

theorem foldlM_addEntry_nameless (todo : List (Label × Label)) : ∀ {d : Dependencies},
    (∀ entry ∈ todo, Sound g entry) → (∃ entry ∈ todo, entry.1 = .none) →
      todo.foldlM (addEntry g) d = .error (.outOfRange .namelessVertex) := by
  induction todo with
  | nil => simp
  | cons first rest ih =>
      intro d sound nameless
      rw [List.foldlM_cons]
      rcases addEntry_cases (sound first (by simp)) d with failed | ⟨notNone, e, added⟩
      · rw [failed]
        rfl
      · rw [added]
        refine ih (fun b hb => sound b (by simp [hb])) ?_
        obtain ⟨entry, member, none_⟩ := nameless
        rcases List.mem_cons.mp member with rfl | later
        · exact absurd none_ notNone
        · exact ⟨entry, later, none_⟩

end Dependencies

theorem dependencies_spec {g : EGraph} (wf : g.toArena.WellFormed) {t : Term}
    (sound : ∀ entry ∈ t.assignment, Dependencies.Sound g entry)
    (speakable : ∀ entry ∈ t.assignment, Dependencies.Speakable g entry) :
    ∃ d, t.dependencies g = .ok d ∧ Dependencies.Records g d t.assignment :=
  Dependencies.foldlM_addEntry_spec wf t.assignment Dependencies.records_empty sound speakable

namespace Dependencies

variable {g : EGraph} {d : Dependencies} {t : Term}

theorem IsClass.class_eq (wf : g.toArena.WellFormed) {v a b : Nat} (first : d.IsClass g v a)
    (second : d.IsClass g v b) : a = b :=
  EGraph.classLabel_inj wf first.2.1 second.2.1 (first.2.2.symm.trans second.2.2)

theorem IsClass.vertex_eq (shaped : Shaped g d) {v w a : Nat} (first : d.IsClass g v a)
    (second : d.IsClass g w a) : v = w :=
  shaped.distinct.eq_of_beq first.1 second.1
    ((Label.beq_iff_key_eq _ _).mpr (first.2.2.trans second.2.2.symm))

theorem edge_iff {v w : Nat} : d.digraph.Edge v w ↔ ∃ vs, d.usesOf v = some vs ∧ w ∈ vs := by
  have next : d.digraph.next v = ((d.usesOf v).getD []).eraseDups := by
    unfold digraph Digraph.next usesOf
    by_cases inside : v < d.uses.size <;> simp [inside]
  rw [Digraph.Edge, next, List.mem_eraseDups]
  cases d.usesOf v <;> simp

theorem Records.proper (records : Records g d t.assignment) : d.digraph.Proper where
  next_lt v w edge := by
    obtain ⟨vs, used, member⟩ := edge_iff.mp edge
    obtain ⟨_, _, n, _, _, _, all⟩ := records.uses_from v vs used
    obtain ⟨c, _, isClass⟩ := exists_of_mem_left all member
    simpa [Digraph.size, digraph, records.size_eq] using isClass.1
  next_nodup v := by
    unfold digraph Digraph.next
    by_cases inside : v < d.uses.size
    · simpa [Array.getD, inside] using nodup_eraseDups _
    · simp [inside]

end Dependencies

end Term

end EGraphSearch
