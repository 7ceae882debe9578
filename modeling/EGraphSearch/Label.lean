import EGraphSearch.Number.Basic
import EGraphSearch.Text.Quoted

/-!
# Labels

Callers name classes, nodes and operators with labels: nothing, a number, a text, or a tuple of
labels.  Two labels are the same name when their keys agree; the key forgets how a number is
spelled, so that `1`, `1.0` and true are one name.  Tables keep the spelling that they saw first.

Not-a-number is one label.  A table finds it by its key, as it finds every label, and so does a
tuple that holds it; but a comparison tells it apart from everything, itself included.  Several
objects that are not a number, and other values that a table could be keyed by, are no labels.
-/

set_option autoImplicit false

namespace EGraphSearch

inductive Label where
  | none
  | number (value : Number)
  | text (value : String)
  | tuple (items : List Label)

namespace Label

instance : Inhabited Label := ⟨.none⟩

/-- What a label is compared by. -/
inductive Key where
  | none
  | whole (value : Int)
  | fraction (bits : UInt64)
  | text (value : String)
  | unit
  | pair (first rest : Key)
  deriving DecidableEq, Repr

/-- A double that equals a whole number shares that number's key. -/
def numberKey : Number → Key
  | .truth b => .whole (Number.ofTruth b)
  | .int i => .whole i
  | .float x =>
    match Binary64.toInt? x with
    | some i => .whole i
    | Option.none => .fraction x.toBits

mutual

def key : Label → Key
  | .none => .none
  | .number n => numberKey n
  | .text s => .text s
  | .tuple items => itemsKey items

def itemsKey : List Label → Key
  | [] => .unit
  | first :: rest => .pair (key first) (itemsKey rest)

end

instance : BEq Label := ⟨fun a b => a.key = b.key⟩

/-- The key of the label that is not a number. -/
def Key.isNaN : Key → Bool
  | .fraction bits => (Float.ofBits bits).isNaN
  | _ => false

/-- Whether a comparison tells two labels apart. -/
def differs (a b : Label) : Bool := !(a == b) || a.key.isNaN

theorem beq_iff_key_eq (a b : Label) : (a == b) = true ↔ a.key = b.key := by
  simp [BEq.beq]

instance : EquivBEq Label where
  rfl := by intro a; rw [beq_iff_key_eq]
  symm := by intro a b h; rw [beq_iff_key_eq] at *; exact h.symm
  trans := by intro a b c h k; rw [beq_iff_key_eq] at *; exact h.trans k

mutual

def render : Label → String
  | .none => "None"
  | .number n => n.text
  | .text s => Text.quoted s
  | .tuple [] => "()"
  | .tuple [only] => "(" ++ render only ++ ",)"
  | .tuple (first :: second :: rest) =>
    "(" ++ render first ++ ", " ++ render second ++ renderRest rest ++ ")"

def renderRest : List Label → String
  | [] => ""
  | first :: rest => ", " ++ render first ++ renderRest rest

end

def renderList (labels : List Label) : String := Text.bracketed (labels.map render)

end Label

def Label.position? (labels : Array Label) (label : Label) : Option Nat :=
  labels.findIdx? (· == label)

end EGraphSearch
