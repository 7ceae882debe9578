import EGraphSearch.Fault
import EGraphSearch.Scalar

/-!
# Values of costs

The search maximises values while oracles report costs, so a transform turns costs around.  The
reciprocal one is bounded, which suits a fixed exploration constant; the negated one keeps the
scale of the costs and charges failures a fixed cost.
-/

set_option autoImplicit false

namespace EGraphSearch

/-- A strictly decreasing function with values between zero and two: costs from zero upwards land
at or below one, negative costs above one. -/
def reciprocalValue {α : Type} [Scalar α] (cost : α) : α :=
  if Scalar.below cost Scalar.zero then
    Scalar.two - Scalar.one / (Scalar.one - cost)
  else Scalar.one / (Scalar.one + cost)

structure Valuation (α : Type) where
  value : α → α
  failure : Except Fault α

inductive Transform where
  | reciprocal
  /-- Failures count as this cost, which need not be a number until a failure occurs. -/
  | negated (failureCost : Datum)

namespace Transform

def ofName (name failureCost : Datum) : Except Fault Transform :=
  match name with
  | .text "negate" => .ok (negated failureCost)
  | .text "reciprocal" => .ok reciprocal
  | _ =>
    if name.isHashable then .error (.badSettings (.unknownTransform name))
    else .error (.mismatch (.tableKey name.kindName))

def render : Transform → String
  | reciprocal => "ReciprocalCost()"
  | negated failureCost => "NegatedCost(failure_cost=" ++ failureCost.plain ++ ")"

def negate (d : Datum) : Except Fault Number :=
  match d with
  | .number n => .ok n.negate
  | _ => .error (.mismatch (.negation d.kindName))

def failureValue : Transform → Except Fault Number
  | reciprocal => .ok (.float 0)
  | negated failureCost => negate failureCost

/-- The value of any number as a cost: negation keeps whole numbers whole. -/
def valueOfNumber (t : Transform) (cost : Number) : Except Fault Number :=
  match t with
  | negated _ => .ok cost.negate
  | reciprocal =>
    match cost.toFloat? with
    | some x => .ok (.float (reciprocalValue x))
    | none => .error .tooLarge

/-- The value of a cost, or of a failure when there is no cost. -/
def valueOf (t : Transform) (cost : Datum) : Except Fault Number :=
  match cost with
  | .null => t.failureValue
  | .number n => t.valueOfNumber n
  | _ =>
    match t with
    | reciprocal => .error (.mismatch (.order ">=" cost.kindName "float"))
    | negated _ => .error (.mismatch (.negation cost.kindName))

def toFloat (n : Number) : Except Fault Float :=
  match n.toFloat? with
  | some x => .ok x
  | none => .error .tooLarge

def valuation (t : Transform) : Valuation Float :=
  { value :=
      match t with
      | reciprocal => reciprocalValue
      | negated _ => fun cost => -cost
    failure := t.failureValue.bind toFloat }

end Transform

end EGraphSearch
