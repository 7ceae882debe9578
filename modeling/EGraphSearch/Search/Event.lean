import EGraphSearch.EGraph.Basic
import EGraphSearch.Oracle.Basic

/-!
# What a search reports

A search reports what it does as events.  Each event has a severity, a channel and a wording.
-/

set_option autoImplicit false

namespace EGraphSearch

inductive Severity where
  | debug
  | info
  | warning
  | error
  | critical
  deriving DecidableEq, Repr

namespace Severity

def rank : Severity → Nat
  | debug => 10
  | info => 20
  | warning => 30
  | error => 40
  | critical => 50

def name : Severity → String
  | debug => "DEBUG"
  | info => "INFO"
  | warning => "WARNING"
  | error => "ERROR"
  | critical => "CRITICAL"

def all : List Severity := [.debug, .info, .warning, .error, .critical]

def ofName? (name : String) : Option Severity := all.find? fun s => s.name == name

end Severity

inductive Event (α : Type) where
  /-- A run has started under these limits. -/
  | started (maxPlayouts timeLimit : Option Number)
  /-- A term could not be priced. -/
  | unpriced (term : Term) (why : Failure)
  /-- The state of the search after so many playouts. -/
  | progressed (playouts treeSize : Nat) (rootMean : α) (bestCost : Option α)
      (failures deadEnds : Nat)
  /-- A move has been committed to. -/
  | committed (cls node : Label) (depth : Nat)
  /-- Backtracking has given up after so many trackers. -/
  | gaveUp (limit : Nat)
  /-- The greedy descent could only be completed from this depth. -/
  | completedFrom (depth : Nat)
  /-- A run is over. -/
  | finished (playouts : Nat) (cost bestCost : Option α) (treeSize : Nat) (elapsed : Float)

structure Remark where
  severity : Severity
  channel : String
  text : String

def Remark.line (r : Remark) : String := r.severity.name ++ " " ++ r.channel ++ " " ++ r.text

def searchChannel : String := "mcts_extract.mcts.search"

def rolloutChannel : String := "mcts_extract.mcts.rollout"

def oracleChannel : String := "mcts_extract.core.cost.oracle"

/-- The text of a number that may be missing. -/
def optionText {β : Type} (text : β → String) : Option β → String
  | none => "None"
  | some value => text value

def Event.severity {α : Type} : Event α → Severity
  | started .. => .info
  | unpriced .. => .debug
  | progressed .. => .info
  | committed .. => .debug
  | gaveUp .. => .debug
  | completedFrom .. => .warning
  | finished .. => .info

def Event.channel {α : Type} : Event α → String
  | unpriced .. => oracleChannel
  | gaveUp .. => rolloutChannel
  | _ => searchChannel

/-- The wording of an event; a failure without a remark has none. -/
def Event.text? (g : EGraph) : Event Float → Option String
  | started maxPlayouts timeLimit =>
    some ("Extracting from " ++ g.render ++ " with budget playouts=" ++
      optionText Number.text maxPlayouts ++ ", time_limit=" ++ optionText Number.text timeLimit)
  | unpriced term why => why.remark? (term.render g)
  | progressed playouts treeSize rootMean bestCost failures deadEnds =>
    some ("Playout " ++ toString playouts ++ ": nodes=" ++ toString treeSize ++ ", root_Q=" ++
      Decimal.fixed 4 rootMean ++ ", best_cost=" ++ optionText Decimal.shortest bestCost ++
      ", failures=" ++ toString failures ++ ", dead_ends=" ++ toString deadEnds)
  | committed cls node depth =>
    some ("Committed " ++ cls.render ++ " -> " ++ node.render ++ " at depth " ++ toString depth)
  | gaveUp limit =>
    some ("Exhaustive completion gave up after " ++ toString limit ++ " states")
  | completedFrom depth =>
    some ("Greedy descent hit an unresolvable state, completed from depth " ++ toString depth)
  | finished playouts cost bestCost treeSize elapsed =>
    some ("Extraction finished: " ++ toString playouts ++ " playouts, cost=" ++
      optionText Decimal.shortest cost ++ ", best_cost=" ++
      optionText Decimal.shortest bestCost ++ ", tree_nodes=" ++ toString treeSize ++
      ", elapsed=" ++ Decimal.fixed 2 elapsed ++ "s")

/-- The line that a journal keeps about an event. -/
def Event.remark? (g : EGraph) (event : Event Float) : Option Remark :=
  (event.text? g).map fun text => ⟨event.severity, event.channel, text⟩

end EGraphSearch
