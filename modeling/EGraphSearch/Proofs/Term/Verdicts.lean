import EGraphSearch.Proofs.Digraph.Cycles
import EGraphSearch.Proofs.Term.Validity

/-!
# The verdicts of validation

What validation checks is said here by name: which classes the entries refer to, and which of them
the root leads to.  A table that passes is valid in this sense, and a violation that is reported is
there; the edges reported as a cycle form one.  Two things are not reported as violations: a value
that is no node of the e-graph, and an assigned class whose label stands for nothing.  And one
report is not right: no node is found to be a member of a class whose label differs from itself.
-/

set_option autoImplicit false

namespace EGraphSearch

open Relation (TransGen ReflTransGen)

namespace Term

variable {g : EGraph} {t : Term} {d : Dependencies}

/-! ## Validity by name -/

def Refers (g : EGraph) (t : Term) (k l : Label.Key) : Prop :=
  ∃ entry ∈ t.assignment, entry.1.key = k ∧
    ∃ n, g.nodeIndex entry.2 = .ok n ∧ ∃ c ∈ g.childrenOf n, (g.classLabel c).key = l

/-- The root is assigned, all entries fit, and the assigned classes hang together from the root
without a cycle. -/
structure Valid (g : EGraph) (t : Term) : Prop where
  rooted : t.assignment.contains g.rootLabel = true
  fits : ∀ entry ∈ t.assignment, t.Fits g entry
  acyclic : ∀ k, ¬ TransGen (t.Refers g) k k
  connected : ∀ cls ∈ t.assignment.keys, ReflTransGen (t.Refers g) g.rootLabel.key cls.key

theorem refers_of_uses (keyed : t.assignment.Keyed) {a b : Nat} (uses : (t.picks g).Uses g a b) :
    t.Refers g (g.classLabel a).key (g.classLabel b).key := by
  obtain ⟨n, picked, child⟩ := uses
  obtain ⟨_, entry, member, same, index⟩ := (picks_eq_some keyed).mp picked
  exact ⟨entry, member, same, n, index, b, child, rfl⟩

theorem uses_of_refers (wf : g.toArena.WellFormed) (keyed : t.assignment.Keyed) {a : Nat}
    {l : Label.Key} (inside : a < g.numClasses) (refers : t.Refers g (g.classLabel a).key l) :
    ∃ b < g.numClasses, (g.classLabel b).key = l ∧ (t.picks g).Uses g a b := by
  obtain ⟨entry, member, same, n, index, b, child, target⟩ := refers
  have picked := (picks_eq_some keyed).mpr ⟨inside, entry, member, same, index⟩
  exact ⟨b, wf.child_lt n (EGraph.nodeIndex_lt index) b child, target, n, picked, child⟩

theorem uses_of_walk (wf : g.toArena.WellFormed) (keyed : t.assignment.Keyed) {a : Nat}
    {l : Label.Key} (inside : a < g.numClasses)
    (walk : TransGen (t.Refers g) (g.classLabel a).key l) :
    ∃ b < g.numClasses, (g.classLabel b).key = l ∧ TransGen ((t.picks g).Uses g) a b := by
  induction walk with
  | single refers =>
      obtain ⟨b, insideB, target, uses⟩ := uses_of_refers wf keyed inside refers
      exact ⟨b, insideB, target, .single uses⟩
  | tail _ refers ih =>
      obtain ⟨b, insideB, rfl, walked⟩ := ih
      obtain ⟨c, insideC, target, uses⟩ := uses_of_refers wf keyed insideB refers
      exact ⟨c, insideC, target, walked.tail uses⟩

theorem walk_of_uses (keyed : t.assignment.Keyed) {a b : Nat}
    (walk : TransGen ((t.picks g).Uses g) a b) :
    TransGen (t.Refers g) (g.classLabel a).key (g.classLabel b).key :=
  TransGen.lift (fun c => (g.classLabel c).key) (fun _ _ => refers_of_uses keyed) _ _ walk

theorem acyclic_iff (wf : g.toArena.WellFormed) (keyed : t.assignment.Keyed) (sound : t.Sound g) :
    (∀ k, ¬ TransGen (t.Refers g) k k) ↔ ∀ c, ¬ TransGen ((t.picks g).Uses g) c c := by
  constructor
  · exact fun acyclic c cycle => acyclic _ (walk_of_uses keyed cycle)
  · intro acyclic k cycle
    obtain ⟨l, ⟨entry, member, rfl, _⟩, _⟩ := TransGen.head'_iff.mp cycle
    obtain ⟨c, n, picked, same, _⟩ := sound.picks_of_mem wf keyed member
    have inside := ((picks_eq_some keyed).mp picked).1
    rw [same] at cycle
    obtain ⟨b, insideB, sameB, walked⟩ := uses_of_walk wf keyed inside cycle
    obtain rfl := EGraph.classLabel_inj wf insideB inside sameB
    exact acyclic b walked

theorem reaches_iff (wf : g.toArena.WellFormed) (keyed : t.assignment.Keyed) {c : Nat}
    (inside : c < g.numClasses) :
    ReflTransGen (t.Refers g) g.rootLabel.key (g.classLabel c).key ↔
      ReflTransGen ((t.picks g).Uses g) g.root c := by
  rw [Relation.reflTransGen_iff_eq_or_transGen, Relation.reflTransGen_iff_eq_or_transGen]
  constructor
  · rintro (same | walk)
    · exact .inl (EGraph.classLabel_inj wf inside wf.root_lt same)
    · obtain ⟨b, insideB, sameB, walked⟩ := uses_of_walk wf keyed wf.root_lt walk
      obtain rfl := EGraph.classLabel_inj wf insideB inside sameB
      exact .inr walked
  · rintro (rfl | walk)
    · exact .inl rfl
    · exact .inr (walk_of_uses keyed walk)

/-- By name and by number, the same tables are valid. -/
theorem valid_iff (wf : g.toArena.WellFormed) (keyed : t.assignment.Keyed) :
    t.Valid g ↔ t.Sound g ∧ (t.picks g).IsTerm g := by
  constructor
  · intro valid
    obtain ⟨sound, closed⟩ := (fits_iff wf keyed).mp valid.fits
    refine ⟨sound, (picked_iff_contains sound wf.root_lt).mpr valid.rooted,
      fun _ _ => sound.picks_member wf keyed, closed, (acyclic_iff wf keyed sound).mp valid.acyclic,
      ?_⟩
    intro c picked
    obtain ⟨n, picked⟩ := Option.isSome_iff_exists.mp picked
    obtain ⟨inside, entry, member, same, _⟩ := (picks_eq_some keyed).mp picked
    rw [← reaches_iff wf keyed inside, ← same]
    exact valid.connected entry.1 (List.mem_map_of_mem member)
  · rintro ⟨sound, isTerm⟩
    refine ⟨(picked_iff_contains sound wf.root_lt).mp isTerm.root_picked,
      (fits_iff wf keyed).mpr ⟨sound, isTerm.closed⟩,
      (acyclic_iff wf keyed sound).mpr isTerm.acyclic, ?_⟩
    intro cls listed
    obtain ⟨entry, member, rfl⟩ := List.mem_map.mp listed
    obtain ⟨c, n, picked, same, _⟩ := sound.picks_of_mem wf keyed member
    rw [same, reaches_iff wf keyed ((picks_eq_some keyed).mp picked).1]
    exact isTerm.connected c (by simp [picked])

/-! ## Reports -/

/-- What the report of a violation says of the term. -/
def Breaks (g : EGraph) (t : Term) : Violation → Prop
  | .rootUnassigned => t.assignment.contains g.rootLabel = false
  | .notMember node cls => (cls, node) ∈ t.assignment ∧
      ∃ n, g.nodeIndex node = .ok n ∧ (g.classLabel (g.ownerOf n)).key ≠ cls.key
  | .unassignedChild child =>
      (∃ k, t.Refers g k child.key) ∧ t.assignment.contains child = false
  | .cyclic edges => Digraph.IsCycle (fun k l => t.Refers g k.key l.key) edges
  | .unreachable classes => classes ≠ [] ∧ ∀ cls, cls ∈ classes ↔
      cls ∈ t.assignment.keys ∧ ¬ ReflTransGen (t.Refers g) g.rootLabel.key cls.key
  | _ => False

theorem Breaks.not_valid {cause : Violation} (breaks : t.Breaks g cause) : ¬ t.Valid g := by
  intro valid
  cases cause with
  | rootUnassigned =>
      have unrooted : t.assignment.contains g.rootLabel = false := breaks
      simp [valid.rooted] at unrooted
  | notMember node cls =>
      obtain ⟨member, n, index, apart⟩ := breaks
      obtain ⟨m, found, owner, _⟩ := valid.fits _ member
      cases Except.ok.inj (index.symm.trans found)
      exact apart owner
  | unassignedChild child =>
      obtain ⟨⟨k, entry, member, _, n, index, c, listed, same⟩, absent⟩ := breaks
      obtain ⟨m, found, _, assigned⟩ := valid.fits entry member
      cases Except.ok.inj (index.symm.trans found)
      have present := assigned c listed
      rw [Table.contains_iff, same, ← Table.contains_iff, absent] at present
      cases present
  | cyclic edges =>
      obtain ⟨k, cycle⟩ := breaks.transGen
      exact valid.acyclic k.key (TransGen.lift Label.key (fun _ _ => id) k k cycle)
  | unreachable classes =>
      obtain ⟨some_class, listed⟩ := breaks
      obtain ⟨cls, member⟩ := List.exists_mem_of_ne_nil classes some_class
      obtain ⟨assigned, apart⟩ := (listed cls).mp member
      exact apart (valid.connected cls assigned)
  | illegalMove | closesCycle | notTerminal | rootNotCompleted => exact breaks

/-- The edges of the cycle that is found are those of the table, by name. -/
theorem isCycle_cycle (records : Dependencies.Records g d t.assignment)
    (cyclic : d.digraph.isAcyclic = false) :
    Digraph.IsCycle (fun k l => t.Refers g k.key l.key) d.cycle := by
  obtain ⟨edges, found, isCycle⟩ := Digraph.exists_findCycle? records.proper cyclic
  rw [Dependencies.cycle, found]
  refine isCycle.map d.label fun v w edge => ?_
  obtain ⟨vs, used, member⟩ := Dependencies.edge_iff.mp edge
  obtain ⟨entry, entryMember, n, index, same, _, all⟩ := records.uses_from v vs used
  obtain ⟨c, child, target⟩ := exists_of_mem_left all member
  exact ⟨entry, entryMember, same.symm, n, index, c, child, target.2.2.symm⟩

theorem forM_eq_error {α : Type} {check : α → Except Fault Unit} {fault : Fault} {xs : List α} :
    xs.forM check = .error fault ↔ ∃ before x after, xs = before ++ x :: after ∧
      (∀ y ∈ before, check y = .ok ()) ∧ check x = .error fault := by
  induction xs with
  | nil => simp [List.forM, pure, Except.pure]
  | cons first rest ih =>
      have unfolded : (first :: rest).forM check =
          (check first).bind fun _ => rest.forM check := rfl
      rw [unfolded]
      cases checked : check first with
      | error other =>
          simp only [Except.bind, Except.error.injEq]
          constructor
          · rintro rfl
            exact ⟨[], first, rest, rfl, by simp, checked⟩
          · rintro ⟨before, x, after, split, passed, failed⟩
            cases before with
            | nil =>
                cases split
                exact Except.error.inj (checked.symm.trans failed)
            | cons y earlier =>
                cases split
                simp [passed first (by simp)] at checked
      | ok _ =>
          simp only [Except.bind]
          rw [ih]
          constructor
          · rintro ⟨before, x, after, rfl, passed, failed⟩
            refine ⟨first :: before, x, after, rfl, ?_, failed⟩
            exact List.forall_mem_cons.mpr ⟨checked, passed⟩
          · rintro ⟨before, x, after, split, passed, failed⟩
            cases before with
            | nil =>
                cases split
                simp [checked] at failed
            | cons y earlier =>
                cases split
                exact ⟨earlier, x, after, rfl, (List.forall_mem_cons.mp passed).2, failed⟩

theorem validateEntry_unknown {cls node : Label} (unknown : ∀ n, g.nodeIndex node ≠ .ok n) :
    t.validateEntry g (cls, node) = .error (.unknownNode node) := by
  have missing : g.nodeIndex node = .error (.unknownNode node) := by
    unfold EGraph.nodeIndex at unknown ⊢
    split at unknown
    · rename_i n _
      exact absurd rfl (unknown n)
    · rfl
  simp [validateEntry, EGraph.classOf, missing, Except.map, bind, Except.bind]

/-- A report that is not right: the node is a member of the class, but the label of the class
differs from itself. -/
def Misjudges (g : EGraph) (t : Term) : Violation → Prop
  | .notMember node cls => (cls, node) ∈ t.assignment ∧ cls.key.isNaN = true ∧
      ∃ n, g.nodeIndex node = .ok n ∧ (g.classLabel (g.ownerOf n)).key = cls.key
  | _ => False

/-- An entry that is refused names an unknown node, or the report is right, or the label of its
class differs from itself. -/
theorem validateEntry_error {cls node : Label} {fault : Fault} (member : (cls, node) ∈ t.assignment)
    (failed : t.validateEntry g (cls, node) = .error fault) :
    (∀ n, g.nodeIndex node ≠ .ok n) ∧ fault = .unknownNode node ∨
      ∃ cause, fault = .violation cause ∧ (t.Breaks g cause ∨ t.Misjudges g cause) := by
  by_cases known : ∃ n, g.nodeIndex node = .ok n
  · right
    obtain ⟨n, index⟩ := known
    simp only [validateEntry, EGraph.classOf, EGraph.childLabels, index, Except.map, bind,
      Except.bind] at failed
    cases apart : (g.classLabel (g.ownerOf n)).differs cls with
    | true =>
        simp only [apart, if_true, throw, throwThe, MonadExceptOf.throw,
          Except.error.injEq] at failed
        refine ⟨_, failed.symm, ?_⟩
        by_cases owner : (g.classLabel (g.ownerOf n)).key = cls.key
        · refine .inr ⟨member, ?_, n, index, owner⟩
          by_contra number
          rw [Bool.not_eq_true] at number
          simp [(Label.differs_false_iff _ _).mpr ⟨owner, number⟩] at apart
        · exact .inl ⟨member, n, index, owner⟩
    | false =>
        simp only [apart, Bool.false_eq_true, if_false, pure, Except.pure] at failed
        split at failed
        · rename_i child missing
          obtain ⟨c, listed, rfl⟩ := List.mem_map.mp (List.mem_of_find?_eq_some missing)
          have absent := List.find?_some missing
          cases failed
          exact ⟨_, rfl, .inl ⟨⟨cls.key, (cls, node), member, rfl, n, index, c, listed, rfl⟩,
            by simpa using absent⟩⟩
        · cases failed
  · left
    have unknown : ∀ n, g.nodeIndex node ≠ .ok n := fun n index => known ⟨n, index⟩
    rw [validateEntry_unknown unknown] at failed
    exact ⟨unknown, (Except.error.inj failed).symm⟩

theorem breaks_of_dependencies (wf : g.toArena.WellFormed) (keyed : t.assignment.Keyed)
    {fault : Fault} (rooted : t.assignment.contains g.rootLabel = true)
    (passed : t.assignment.forM (t.validateEntry g) = .ok ()) (built : t.dependencies g = .ok d)
    (records : Dependencies.Records g d t.assignment) (failed : t.validate g = .error fault) :
    ∃ cause, fault = .violation cause ∧ t.Breaks g cause := by
  obtain ⟨fits, _⟩ := entries_eq_ok.mp passed
  obtain ⟨sound, _⟩ := (fits_iff wf keyed).mp fits
  cases acyclic : d.digraph.isAcyclic with
  | false =>
      rw [validate_cyclic rooted passed built acyclic] at failed
      exact ⟨_, (Except.error.inj failed).symm, isCycle_cycle records acyclic⟩
  | true =>
      rw [validate_acyclic rooted passed built acyclic] at failed
      split at failed
      · cases failed
      · rename_i some_
        refine ⟨_, (Except.error.inj failed).symm, some_, fun cls => ?_⟩
        have rootPicked := (picked_iff_contains sound wf.root_lt).mpr rooted
        rw [mem_unreached_iff wf keyed sound records rootPicked]
        refine and_congr_right fun listed => ?_
        obtain ⟨entry, member, rfl⟩ := List.mem_map.mp listed
        obtain ⟨c, n, picked, same, _⟩ := sound.picks_of_mem wf keyed member
        have inside := ((picks_eq_some keyed).mp picked).1
        rw [same, reaches_iff wf keyed inside]
        constructor
        · exact fun apart => apart c inside rfl
        · intro apart b insideB sameB
          rwa [← EGraph.classLabel_inj wf inside insideB sameB]

theorem validate_error_cases (wf : g.toArena.WellFormed) (keyed : t.assignment.Keyed)
    {fault : Fault} (failed : t.validate g = .error fault) :
    (t.assignment.contains g.rootLabel = false ∧ fault = .violation .rootUnassigned) ∨
    t.assignment.contains g.rootLabel = true ∧
      (t.assignment.forM (t.validateEntry g) = .error fault ∨
      ((∀ entry ∈ t.assignment, t.Fits g entry) ∧ t.Comparable) ∧
        (t.assignment.contains .none = true ∧ fault = .outOfRange .namelessVertex ∨
          t.assignment.contains .none = false ∧
            ∃ cause, fault = .violation cause ∧ t.Breaks g cause)) := by
  cases rooted : t.assignment.contains g.rootLabel with
  | false =>
      rw [validate_unrooted rooted] at failed
      exact .inl ⟨rfl, (Except.error.inj failed).symm⟩
  | true =>
      refine .inr ⟨rfl, ?_⟩
      cases passed : t.assignment.forM (t.validateEntry g) with
      | error other =>
          rw [validate_entries rooted passed] at failed
          exact .inl failed
      | ok _ =>
          obtain ⟨fits, comparable⟩ := entries_eq_ok.mp passed
          refine .inr ⟨⟨fits, comparable⟩, ?_⟩
          cases named : t.assignment.contains .none with
          | true =>
              rw [validate_dependencies rooted passed (dependencies_nameless fits named)] at failed
              exact .inl ⟨rfl, (Except.error.inj failed).symm⟩
          | false =>
              obtain ⟨d, built, records⟩ := dependencies_of_fits wf fits named
              exact .inr ⟨rfl, breaks_of_dependencies wf keyed rooted passed built records failed⟩

/-! ## Verdicts -/

/-- When validation accepts a table, and what its reports mean. -/
structure Verdicts (g : EGraph) (t : Term) : Prop where
  ok_iff : t.validate g = .ok () ↔
    t.Valid g ∧ t.assignment.contains .none = false ∧ t.Comparable
  /-- The first value that is no node is reported as such if all entries before it pass. -/
  unknown_iff : ∀ node, t.validate g = .error (.unknownNode node) ↔
    t.assignment.contains g.rootLabel = true ∧
      ∃ before cls after, t.assignment = before ++ (cls, node) :: after ∧
        (∀ entry ∈ before, t.Fits g entry ∧ entry.1.key.isNaN = false) ∧
        ∀ n, g.nodeIndex node ≠ .ok n
  nameless_iff : t.validate g = .error (.outOfRange .namelessVertex) ↔
    t.assignment.contains g.rootLabel = true ∧
      ((∀ entry ∈ t.assignment, t.Fits g entry) ∧ t.Comparable) ∧
      t.assignment.contains .none = true
  /-- Everything else that is reported is a violation that is there, so the table is not valid, or a
  class whose label differs from itself. -/
  otherwise : ∀ fault, t.validate g = .error fault → (∃ node, fault = .unknownNode node) ∨
    fault = .outOfRange .namelessVertex ∨
    ∃ cause, fault = .violation cause ∧
      (t.Breaks g cause ∧ ¬ t.Valid g ∨ t.Misjudges g cause ∧ ¬ t.Comparable)
  /-- If all values are nodes and all assigned classes have names that are equal to themselves,
  validation is exact. -/
  exact_of_known : (∀ entry ∈ t.assignment, ∃ n, g.nodeIndex entry.2 = .ok n) →
    t.assignment.contains .none = false → t.Comparable → (t.validate g = .ok () ↔ t.Valid g) ∧
      (¬ t.Valid g → ∃ cause, t.validate g = .error (.violation cause) ∧ t.Breaks g cause)

theorem Misjudges.not_comparable {cause : Violation} (misjudges : t.Misjudges g cause) :
    ¬ t.Comparable := by
  intro comparable
  cases cause with
  | notMember node cls =>
      obtain ⟨member, undefined, _⟩ := misjudges
      simp [comparable _ member] at undefined
  | _ => exact misjudges

theorem validate_ok_iff_valid (wf : g.toArena.WellFormed) (keyed : t.assignment.Keyed) :
    t.validate g = .ok () ↔
      t.Valid g ∧ t.assignment.contains .none = false ∧ t.Comparable := by
  rw [validate_eq_ok_iff wf keyed, valid_iff wf keyed]

theorem validate_unknown_iff (wf : g.toArena.WellFormed) (keyed : t.assignment.Keyed)
    (node : Label) : t.validate g = .error (.unknownNode node) ↔
      t.assignment.contains g.rootLabel = true ∧
        ∃ before cls after, t.assignment = before ++ (cls, node) :: after ∧
          (∀ entry ∈ before, t.Fits g entry ∧ entry.1.key.isNaN = false) ∧
          ∀ n, g.nodeIndex node ≠ .ok n := by
  constructor
  · intro failed
    rcases validate_error_cases wf keyed failed with
      ⟨_, impossible⟩ | ⟨rooted, entries | ⟨_, ⟨_, impossible⟩ | ⟨_, _, impossible, _⟩⟩⟩
    · cases impossible
    · obtain ⟨before, ⟨cls, other⟩, after, split, passed, failedHere⟩ := forM_eq_error.mp entries
      have member : (cls, other) ∈ t.assignment := by simp [split]
      rcases validateEntry_error member failedHere with ⟨unknown, same⟩ | ⟨_, impossible, _⟩
      · cases same
        exact ⟨rooted, before, cls, after, split,
          fun entry earlier => validateEntry_iff.mp (passed entry earlier), unknown⟩
      · cases impossible
    · cases impossible
    · cases impossible
  · rintro ⟨rooted, before, cls, after, split, fits, unknown⟩
    refine validate_entries rooted (forM_eq_error.mpr ⟨before, (cls, node), after, split, ?_, ?_⟩)
    · exact fun entry earlier => validateEntry_iff.mpr (fits entry earlier)
    · exact validateEntry_unknown unknown

theorem validate_nameless_iff (wf : g.toArena.WellFormed) (keyed : t.assignment.Keyed) :
    t.validate g = .error (.outOfRange .namelessVertex) ↔
      t.assignment.contains g.rootLabel = true ∧
        ((∀ entry ∈ t.assignment, t.Fits g entry) ∧ t.Comparable) ∧
        t.assignment.contains .none = true := by
  constructor
  · intro failed
    rcases validate_error_cases wf keyed failed with
      ⟨_, impossible⟩ | ⟨rooted, entries | ⟨passed, ⟨nameless, _⟩ | ⟨_, _, impossible, _⟩⟩⟩
    · cases impossible
    · obtain ⟨before, ⟨cls, node⟩, after, split, _, failedHere⟩ := forM_eq_error.mp entries
      have member : (cls, node) ∈ t.assignment := by simp [split]
      rcases validateEntry_error member failedHere with ⟨_, impossible⟩ | ⟨_, impossible, _⟩
      all_goals cases impossible
    · exact ⟨rooted, passed, nameless⟩
    · cases impossible
  · rintro ⟨rooted, passed, nameless⟩
    exact validate_dependencies rooted (entries_eq_ok.mpr passed)
      (dependencies_nameless passed.1 nameless)

theorem validate_error_means (wf : g.toArena.WellFormed) (keyed : t.assignment.Keyed)
    {fault : Fault} (failed : t.validate g = .error fault) : (∃ node, fault = .unknownNode node) ∨
      fault = .outOfRange .namelessVertex ∨
        ∃ cause, fault = .violation cause ∧ (t.Breaks g cause ∨ t.Misjudges g cause) := by
  rcases validate_error_cases wf keyed failed with
    ⟨unrooted, rfl⟩ | ⟨_, entries | ⟨_, ⟨_, rfl⟩ | ⟨_, cause, same, broken⟩⟩⟩
  · exact .inr (.inr ⟨.rootUnassigned, rfl, .inl unrooted⟩)
  · obtain ⟨before, ⟨cls, node⟩, after, split, _, failedHere⟩ := forM_eq_error.mp entries
    have member : (cls, node) ∈ t.assignment := by simp [split]
    rcases validateEntry_error member failedHere with ⟨_, same⟩ | judged
    · exact .inl ⟨node, same⟩
    · exact .inr (.inr judged)
  · exact .inr (.inl rfl)
  · exact .inr (.inr ⟨cause, same, .inl broken⟩)

theorem validate_exact (wf : g.toArena.WellFormed) (keyed : t.assignment.Keyed)
    (known : ∀ entry ∈ t.assignment, ∃ n, g.nodeIndex entry.2 = .ok n)
    (named : t.assignment.contains .none = false) (comparable : t.Comparable) :
    (t.validate g = .ok () ↔ t.Valid g) ∧
      (¬ t.Valid g → ∃ cause, t.validate g = .error (.violation cause) ∧ t.Breaks g cause) := by
  have accepts : t.validate g = .ok () ↔ t.Valid g := by
    rw [validate_ok_iff_valid wf keyed, and_iff_left ⟨named, comparable⟩]
  refine ⟨accepts, fun invalid => ?_⟩
  cases verdict : t.validate g with
  | ok _ => exact absurd (accepts.mp verdict) invalid
  | error fault =>
      rcases validate_error_means wf keyed verdict with
        ⟨node, rfl⟩ | rfl | ⟨cause, rfl, broken | misjudged⟩
      · obtain ⟨_, before, cls, after, split, _, unknown⟩ :=
          (validate_unknown_iff wf keyed node).mp verdict
        obtain ⟨n, index⟩ := known (cls, node) (by simp [split])
        exact absurd index (unknown n)
      · obtain ⟨_, _, nameless⟩ := (validate_nameless_iff wf keyed).mp verdict
        simp [named] at nameless
      · exact ⟨cause, rfl, broken⟩
      · exact absurd comparable misjudged.not_comparable

/-- Validation is exact, but for values that are no nodes and for classes without a name or with one
that differs from itself. -/
theorem validation_is_exact_on_known_labels (accepted : g.Accepted) (keyed : t.assignment.Keyed) :
    Verdicts g t := by
  have wf := accepted.wellFormed
  refine ⟨validate_ok_iff_valid wf keyed, validate_unknown_iff wf keyed,
    validate_nameless_iff wf keyed, fun fault failed => ?_, validate_exact wf keyed⟩
  refine (validate_error_means wf keyed failed).imp_right (.imp_right ?_)
  rintro ⟨cause, same, judged⟩
  exact ⟨cause, same, judged.imp (fun broken => ⟨broken, broken.not_valid⟩)
    fun misjudged => ⟨misjudged, misjudged.not_comparable⟩⟩

/-- The root is assigned a label that is no node: the report is not that of a violation. -/
theorem validation_is_exact_on_known_labels_loop :
    EGraph.loopGraph.Accepted ∧ Table.Keyed [(Label.text "a", Label.text "z")] ∧
      Verdicts EGraph.loopGraph ⟨[(.text "a", .text "z")]⟩ ∧
      Term.validate EGraph.loopGraph ⟨[(.text "a", .text "z")]⟩ =
        .error (.unknownNode (.text "z")) := by
  have keyed : Table.Keyed [(Label.text "a", Label.text "z")] := List.pairwise_singleton _ _
  have verdicts : Verdicts EGraph.loopGraph ⟨[(.text "a", .text "z")]⟩ :=
    validation_is_exact_on_known_labels EGraph.loopGraph_accepted keyed
  refine ⟨EGraph.loopGraph_accepted, keyed, verdicts, (verdicts.unknown_iff _).mpr ?_⟩
  have missing : Label.position? EGraph.loopGraph.nodeIds (.text "z") = none := by
    with_unfolding_all rfl
  have rooted : Table.contains [(Label.text "a", Label.text "z")]
      EGraph.loopGraph.rootLabel = true := by
    with_unfolding_all rfl
  exact ⟨rooted, [], .text "a", [], rfl, by simp, by simp [EGraph.nodeIndex_eq_ok, missing]⟩

end Term

end EGraphSearch
