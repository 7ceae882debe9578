import EGraphSearch.Table

/-!
# Names and positions

Labels are compared by their keys, so looking a label up in a list of distinct labels gives the one
position whose label has the same key.  A table with distinct keys is the graph of a partial map on
keys.
-/

set_option autoImplicit false

namespace EGraphSearch

/-! ## Positions -/

namespace Label

/-- No two of the labels are one name. -/
def Distinct (labels : Array Label) : Prop :=
  labels.toList.Pairwise fun x y => (x == y) = false

theorem beq_false_iff_key_ne (a b : Label) : (a == b) = false ↔ a.key ≠ b.key := by
  rw [← Bool.not_eq_true, beq_iff_key_eq]

theorem differs_false_iff (a b : Label) :
    a.differs b = false ↔ a.key = b.key ∧ b.key.isNaN = false := by
  rw [differs, Bool.or_eq_false_iff, Bool.not_eq_false', beq_iff_key_eq]
  exact and_congr_right fun same => by rw [same]

theorem position?_eq_none_iff {labels : Array Label} {label : Label} :
    position? labels label = Option.none ↔ ∀ x ∈ labels, (x == label) = false := by
  simp [position?]

theorem position?_eq_some {labels : Array Label} {label : Label} {i : Nat}
    (found : position? labels label = some i) :
    i < labels.size ∧ (labels.getD i .none == label) = true := by
  obtain ⟨inside, same, _⟩ := Array.findIdx?_eq_some_iff_getElem.mp found
  exact ⟨inside, by simpa [Array.getD, inside] using same⟩

theorem Distinct.eq_of_beq {labels : Array Label} (distinct : Distinct labels) {i j : Nat}
    (hi : i < labels.size) (hj : j < labels.size)
    (same : (labels.getD i .none == labels.getD j .none) = true) : i = j := by
  have apart := List.pairwise_iff_getElem.mp distinct
  simp only [Array.getD, hi, hj, dif_pos] at same
  rcases Nat.lt_trichotomy i j with lt | eq | gt
  · have := apart i j (by simpa using hi) (by simpa using hj) lt
    simp_all
  · exact eq
  · have := apart j i (by simpa using hj) (by simpa using hi) gt
    rw [beq_iff_key_eq] at same
    rw [beq_false_iff_key_ne] at this
    exact absurd same.symm (by simpa using this)

theorem Distinct.position?_eq {labels : Array Label} (distinct : Distinct labels) {i : Nat}
    {label : Label} (inside : i < labels.size) (same : (labels.getD i .none == label) = true) :
    position? labels label = some i := by
  cases found : position? labels label with
  | none =>
      have none_same := position?_eq_none_iff.mp found labels[i] (Array.getElem_mem inside)
      have here : labels.getD i .none = labels[i] := by simp [Array.getD, inside]
      rw [here] at same
      rw [none_same] at same
      exact absurd same (by simp)
  | some j =>
      obtain ⟨hj, sameAt⟩ := position?_eq_some found
      rw [beq_iff_key_eq] at same sameAt
      have := distinct.eq_of_beq hj inside ((beq_iff_key_eq _ _).mpr (sameAt.trans same.symm))
      rw [this]

theorem Distinct.push {labels : Array Label} {label : Label} (distinct : Distinct labels)
    (fresh : position? labels label = Option.none) : Distinct (labels.push label) := by
  rw [position?_eq_none_iff] at fresh
  simp only [Distinct, Array.toList_push, List.pairwise_append]
  refine ⟨distinct, List.pairwise_singleton _ _, ?_⟩
  intro x hx y hy
  rw [List.mem_singleton.mp hy]
  exact fresh x (by simpa using hx)

theorem distinct_empty : Distinct #[] := by
  simp [Distinct]

end Label

/-! ## Tables -/

namespace Table

variable {α : Type}

/-- What a table is that was written entry by entry: no key twice. -/
def Keyed (t : Table α) : Prop := t.Pairwise fun e f => (e.1 == f.1) = false

theorem get?_congr (t : Table α) {k l : Label} (same : k.key = l.key) : t.get? k = t.get? l := by
  induction t with
  | nil => rfl
  | cons entry rest ih =>
      obtain ⟨key, value⟩ := entry
      have agree : (key == k) = (key == l) := by
        rw [Bool.eq_iff_iff, Label.beq_iff_key_eq, Label.beq_iff_key_eq, same]
      simp only [get?, agree, ih]

theorem get?_eq_some_mem {t : Table α} {key : Label} {value : α} (found : t.get? key = some value) :
    ∃ k, (k, value) ∈ t ∧ k.key = key.key := by
  induction t with
  | nil => simp [get?] at found
  | cons entry rest ih =>
      obtain ⟨k, v⟩ := entry
      simp only [get?] at found
      split at found
      · rename_i same
        cases Option.some.inj found
        exact ⟨k, by simp, (Label.beq_iff_key_eq _ _).mp same⟩
      · obtain ⟨k', member, same⟩ := ih found
        exact ⟨k', List.mem_cons_of_mem _ member, same⟩

theorem contains_iff {t : Table α} {key : Label} :
    t.contains key = true ↔ ∃ entry ∈ t, entry.1.key = key.key := by
  unfold contains
  induction t with
  | nil => simp [get?]
  | cons entry rest ih =>
      obtain ⟨k, v⟩ := entry
      simp only [List.mem_cons, exists_eq_or_imp]
      rw [← ih, ← Label.beq_iff_key_eq]
      cases same : k == key <;> simp [get?, same]

theorem Keyed.get?_of_mem {t : Table α} (keyed : t.Keyed) {key : Label} {value : α}
    (member : (key, value) ∈ t) : t.get? key = some value := by
  induction t with
  | nil => simp at member
  | cons entry rest ih =>
      obtain ⟨k, v⟩ := entry
      obtain ⟨apart, keyedRest⟩ := List.pairwise_cons.mp keyed
      simp only [get?]
      rcases List.mem_cons.mp member with here | later
      · obtain ⟨rfl, rfl⟩ := Prod.mk.inj here
        simp
      · have := apart (key, value) later
        rw [if_neg (by simpa using this)]
        exact ih keyedRest later

end Table

end EGraphSearch
