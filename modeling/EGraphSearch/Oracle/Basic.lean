import EGraphSearch.Number.Reading
import EGraphSearch.Term

/-!
# Oracles and their evaluation

An oracle is asked for the cost of a term.  It may keep a state of its own, answer with any value
at all, or raise.  Reading an answer turns it into a finite cost or into the reason why there is
none; the evaluator counts both.  A failure is never a fault of the search, with one exception:
a whole number beyond the finite doubles, which faults while it is read.

Answers are data.  Values that bring a conversion of their own, which may raise anything, are not
among them, and the remark about a failure can always be written.
-/

set_option autoImplicit false

namespace EGraphSearch

inductive Raised where
  | runtime (text : String)
  | oracleFailure (text : String)
  | fault (cause : Fault)

def Raised.render : Raised → String
  | runtime text => "RuntimeError(" ++ Text.quoted text ++ ")"
  | oracleFailure text => "OracleFailure(" ++ Text.quoted text ++ ")"
  | fault cause => cause.render

inductive Response where
  | answered (value : Datum)
  | raised (what : Raised)

inductive Failure where
  | raised (what : Raised)
  | silent
  | notNumeric (answer : Datum)
  | notFinite (answer : Float)

/-- The remark that the journal keeps about a failure; a silent one passes without. -/
def Failure.remark? (term : String) : Failure → Option String
  | raised what => some ("Oracle failed on " ++ term ++ ": " ++ what.render)
  | silent => none
  | notNumeric answer =>
    some ("Oracle returned non-numeric cost " ++ answer.render ++ " for " ++ term)
  | notFinite answer =>
    some ("Oracle returned non-finite cost " ++ Decimal.shortest answer ++ " for " ++ term)

inductive Reply (α : Type) where
  | cost (value : α)
  | failed (why : Failure)

def Reply.cost? {α : Type} : Reply α → Option α
  | cost value => some value
  | failed _ => none

/-- A double as a reply; infinities and not-a-number are failures. -/
def Reply.ofFloat (x : Float) : Reply Float :=
  if x.isNaN || x.isInf then .failed (.notFinite x) else .cost x

def Reply.ofAnswer (answer : Datum) : Except Fault (Reply Float) :=
  match answer with
  | .null => .ok (.failed .silent)
  | .number n =>
    match n.toFloat? with
    | some x => .ok (.ofFloat x)
    | none => .error .tooLarge
  | .text s =>
    match Text.readFloat? s with
    | some x => .ok (.ofFloat x)
    | none => .ok (.failed (.notNumeric answer))
  | .list _ => .ok (.failed (.notNumeric answer))
  | .map _ => .ok (.failed (.notNumeric answer))

def Reply.ofResponse : Response → Except Fault (Reply Float)
  | .raised what => .ok (.failed (.raised what))
  | .answered value => Reply.ofAnswer value

/-- Asks for a reply; the state of the oracle moves on even when reading the answer faults. -/
abbrev Asker (σ α : Type) := Term → σ → Except Fault (Reply α) × σ

structure Oracle (σ : Type) where
  ask : EGraph → Term → σ → Response × σ

def Oracle.asker {σ : Type} (oracle : Oracle σ) (g : EGraph) : Asker σ Float :=
  fun term state =>
    let (response, state) := oracle.ask g term state
    (Reply.ofResponse response, state)

/-! ## The evaluator -/

/-- The state of the oracle, and how often it was asked and failed. -/
structure Evaluator (σ : Type) where
  oracle : σ
  calls : Nat := 0
  failures : Nat := 0

namespace Evaluator

variable {σ α : Type}

def failureRate (e : Evaluator σ) : Float :=
  if e.calls = 0 then 0 else Binary64.ofRatio e.failures e.calls

def count (e : Evaluator σ) (reply : Reply α) (state : σ) : Evaluator σ :=
  { oracle := state
    calls := e.calls + 1
    failures := if reply.cost?.isNone then e.failures + 1 else e.failures }

/-- Asks for the cost of a term.  A call that faults is not counted. -/
def evaluate (ask : Asker σ α) (e : Evaluator σ) (term : Term) :
    Except Fault (Reply α) × Evaluator σ :=
  match ask term e.oracle with
  | (.ok reply, state) => (.ok reply, e.count reply state)
  | (.error fault, state) => (.error fault, { e with oracle := state })

end Evaluator

end EGraphSearch
