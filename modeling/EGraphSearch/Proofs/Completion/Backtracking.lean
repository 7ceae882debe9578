import EGraphSearch.Proofs.Completion
import EGraphSearch.Proofs.Tracker.InPlace

/-!
# Backtracking in memory

Backtracking works on trackers in memory.  It begins with a copy of the given tracker.  In each step
it takes the tracker that waits on top; unless that one is terminal, it copies it once for each
legal move, makes the move in the copy, and lets the copies wait on top of the others.  What was in
memory before stays as it was, and the search ends as the recursive search does.
-/

set_option autoImplicit false

namespace EGraphSearch

open Relation (ReflTransGen)

/-- Trackers, each at a place of its own; a copy goes to a new place at the end. -/
abbrev Memory := List Tracker

/-- A search among completions between two steps. -/
structure Backtrack where
  memory : Memory
  /-- The places of the trackers that wait, the next one first. -/
  waiting : List Nat
  explored : Nat

namespace Backtrack

inductive Ending where
  | found (place : Nat)
  | exhausted
  | gaveUp
  | failed (fault : Fault)

def start (memory : Memory) (t : Tracker) : Backtrack := ⟨memory ++ [t], [memory.length], 0⟩

def branch (g : EGraph) (current : Tracker) (memory : Memory) (waiting : List Nat) :
    List Nat → Except (Fault × Memory) (Memory × List Nat)
  | [] => .ok (memory, waiting)
  | n :: rest =>
    match branch g current memory waiting rest with
    | .error failed => .error failed
    | .ok (memory, waiting) =>
      let copied := memory ++ [current]
      match current.applyInPlace g n with
      | .error fault after => .error (fault, copied.set memory.length after)
      | .ok _ after => .ok (copied.set memory.length after, memory.length :: waiting)

/-- One round of the search: it goes on, or it ends and leaves the memory behind. -/
def step (g : EGraph) (limit : Option Int) (s : Backtrack) : Backtrack ⊕ (Memory × Ending) :=
  match s.waiting with
  | [] => .inr (s.memory, .exhausted)
  | place :: rest =>
    match s.memory[place]? with
    | none => .inr (s.memory, .failed .noSuchIndex)
    | some current =>
      if current.isTerminal then .inr (s.memory, .found place)
      else if limit.any fun most => decide (most < (s.explored : Int) + 1) then
        .inr (s.memory, .gaveUp)
      else
        match branch g current s.memory rest (Completion.orderedMoves g current) with
        | .error (fault, memory) => .inr (memory, .failed fault)
        | .ok (memory, waiting) => .inl ⟨memory, waiting, s.explored + 1⟩

def Reaches (g : EGraph) (limit : Option Int) : Backtrack → Backtrack → Prop :=
  ReflTransGen fun s u => s.step g limit = .inl u

def Ends (g : EGraph) (limit : Option Int) (s : Backtrack) (after : Memory) (ending : Ending) :
    Prop :=
  ∃ u, Reaches g limit s u ∧ u.step g limit = .inr (after, ending)

variable {g : EGraph} {limit : Option Int} {s u : Backtrack} {t : Tracker}
  {memory after : Memory} {waiting places rest moves : List Nat} {place : Nat} {ending : Ending}

theorem Reaches.ends (reaches : Reaches g limit s u) (ends : Ends g limit u after ending) :
    Ends g limit s after ending := by
  obtain ⟨last, later, ended⟩ := ends
  exact ⟨last, reaches.trans later, ended⟩

theorem Ends.now (ended : s.step g limit = .inr (after, ending)) : Ends g limit s after ending :=
  ⟨s, .refl, ended⟩

/-! ## What stays in memory -/

structure Spares (before after : Memory) (waiting places : List Nat) : Prop where
  kept : before <+: after
  fresh : ∀ p ∈ places, p ∈ waiting ∨ before.length ≤ p

theorem Spares.trans {first second third : Memory} {xs ys zs : List Nat}
    (here : Spares first second xs ys) (later : Spares second third ys zs) :
    Spares first third xs zs where
  kept := here.kept.trans later.kept
  fresh p member := by
    rcases later.fresh p member with waited | new
    · exact here.fresh p waited
    · exact .inr (Nat.le_trans here.kept.length_le new)

theorem set_copied (memory : Memory) (current after : Tracker) :
    (memory ++ [current]).set memory.length after = memory ++ [after] := by
  rw [List.set_append_right _ _ (Nat.le_refl _), Nat.sub_self, List.set_cons_zero]

/-- What making copies may have done to the memory, also where a move failed. -/
def BranchSpares (before : Memory) (waiting : List Nat) :
    Except (Fault × Memory) (Memory × List Nat) → Prop
  | .error (_, after) => before <+: after
  | .ok (after, places) => Spares before after waiting places

theorem branch_spares (g : EGraph) (t : Tracker) (memory : Memory) (waiting moves : List Nat) :
    BranchSpares memory waiting (branch g t memory waiting moves) := by
  induction moves with
  | nil => exact ⟨List.prefix_rfl, fun p member => .inl member⟩
  | cons n rest ih =>
      rw [branch]
      split
      · rename_i failed branched
        rwa [branched] at ih
      · rename_i mid places branched
        rw [branched] at ih
        have spares : Spares memory mid waiting places := ih
        have kept : ∀ moved, memory <+: mid ++ [moved] := fun moved =>
          spares.kept.trans (List.prefix_append _ _)
        simp only [set_copied]
        split
        · exact kept _
        · refine ⟨kept _, fun p member => ?_⟩
          rcases List.mem_cons.mp member with rfl | member
          · exact .inr spares.kept.length_le
          · exact spares.fresh p member

/-- What a round may have done to the memory; a tracker that is found has waited. -/
def StepSpares (s : Backtrack) : Backtrack ⊕ (Memory × Ending) → Prop
  | .inl u => Spares s.memory u.memory s.waiting u.waiting
  | .inr (after, ending) => s.memory <+: after ∧ ∀ p, ending = .found p → p ∈ s.waiting

theorem step_spares (g : EGraph) (limit : Option Int) (s : Backtrack) :
    s.StepSpares (s.step g limit) := by
  unfold step
  split
  · exact ⟨List.prefix_rfl, by simp⟩
  · rename_i place rest waits
    split
    · exact ⟨List.prefix_rfl, by simp⟩
    · rename_i current held
      split
      · exact ⟨List.prefix_rfl, by simp [waits]⟩
      · split
        · exact ⟨List.prefix_rfl, by simp⟩
        · have spared := branch_spares g current s.memory rest (Completion.orderedMoves g current)
          split
          · rename_i fault after branched
            rw [branched] at spared
            exact ⟨spared, by simp⟩
          · rename_i after places branched
            rw [branched] at spared
            have spares : Spares s.memory after rest places := spared
            refine ⟨spares.kept, fun p member => ?_⟩
            rw [waits]
            exact (spares.fresh p member).imp_left (List.mem_cons_of_mem _)

theorem Reaches.spares (reaches : Reaches g limit s u) :
    Spares s.memory u.memory s.waiting u.waiting := by
  induction reaches with
  | refl => exact ⟨List.prefix_rfl, fun p member => .inl member⟩
  | @tail mid last _ stepped ih =>
      have spares : mid.StepSpares (.inl last) := stepped ▸ step_spares g limit mid
      exact ih.trans spares

/-- A whole search leaves what was in memory as it was, and what it finds waited or is new. -/
theorem Ends.spares (ends : Ends g limit s after ending) :
    s.memory <+: after ∧ ∀ p, ending = .found p → p ∈ s.waiting ∨ s.memory.length ≤ p := by
  obtain ⟨last, reaches, ended⟩ := ends
  have spares := step_spares g limit last
  rw [ended] at spares
  obtain ⟨kept, found⟩ := spares
  exact ⟨reaches.spares.kept.trans kept, fun p same => reaches.spares.fresh p (found p same)⟩

/-! ## The trackers that wait -/

def Holds (memory : Memory) (places : List Nat) (trackers : List Tracker) : Prop :=
  List.Forall₂ (fun place t => memory[place]? = some t) places trackers

theorem getElem?_of_kept (kept : memory <+: after) (held : memory[place]? = some t) :
    after[place]? = some t := by
  obtain ⟨added, rfl⟩ := kept
  rw [List.getElem?_append_left (List.getElem?_eq_some_iff.mp held).1, held]

theorem Holds.mono {trackers : List Tracker} (kept : memory <+: after)
    (holds : Holds memory places trackers) : Holds after places trackers :=
  List.Forall₂.imp (fun _ _ held => getElem?_of_kept kept held) holds

/-- If all moves can be made, the trackers behind them come to wait in their order. -/
theorem branch_spec {behind : List Tracker} (memory : Memory) (waiting : List Nat)
    (applied : List.Forall₂ (fun n u => t.apply g n = .ok u) moves behind) :
    ∃ after places, branch g t memory waiting moves = .ok (after, places ++ waiting) ∧
      Holds after places behind := by
  induction applied with
  | nil => exact ⟨memory, [], rfl, .nil⟩
  | @cons n u rest others move _ ih =>
      obtain ⟨mid, places, branched, holds⟩ := ih
      refine ⟨mid ++ [u], mid.length :: places, ?_, .cons ?_ ?_⟩
      · simp only [branch, branched, Tracker.applyInPlace_eq_ok move, set_copied, List.cons_append]
      · exact List.getElem?_concat_length
      · exact holds.mono (List.prefix_append _ _)

end Backtrack

end EGraphSearch
