import EGraphSearch.Datum

/-!
# Faults

Everything that can go wrong, by cause.  The wording of a fault is a function of its cause, and
so is the kind under which it is reported.
-/

set_option autoImplicit false

namespace EGraphSearch

inductive Malformation where
  | duplicateClass (cls : Label)
  | duplicateNode (node : Label)
  | unknownChild (node child : Label)
  | unknownMember (cls node : Label)
  | sharedMember (node : Label)
  | orphans (nodes : List Label)
  | unknownRoot (root : Label)
  | rootNotExtractable (root : Label)

/-- A broken rule of extraction: a move that is not legal, or a term that is not valid. -/
inductive Violation where
  | illegalMove (node : Label) (pending : Option Label)
  | closesCycle (cls : Label)
  | notTerminal (pending : Label)
  | rootUnassigned
  | notMember (node cls : Label)
  | unassignedChild (child : Label)
  | cyclic (edges : List (Label × Label))
  | unreachable (classes : List Label)
  | rootNotCompleted

inductive BadSettings where
  | mustNotBeNegative (field : String)
  | mustBePositive (field : String)
  | noLimit
  | unknownKeys (keys : List Datum)
  | unknownPolicy (given : Datum)
  | unknownTransform (given : Datum)
  | notMapping (path : String) (content : Datum)

/-- An operation asked of a value of the wrong kind. -/
inductive Mismatch where
  | order (test left right : String)
  | wholeNumber (given : String)
  | negation (given : String)
  | tableKey (given : String)
  | seed (given : Datum)
  | seedItem
  | repeatedOption (name : String)
  | unknownOption (callee name : String)

inductive OutOfRange where
  | emptyBelow
  | emptyBetween
  | lowOutOfBounds
  | highOutOfBounds
  | negativeSeed
  | negativeWeight
  | undefinedProbability
  | negativeProbability
  | unbalancedProbabilities
  | unequalSizes
  | emptyPopulation
  | namelessVertex
  | alreadyExpanded (node : Label) (parent : Nat)
  | noMoves
  | unknownTest (name : String)

inductive Fault where
  | malformed (cause : Malformation)
  | violation (cause : Violation)
  | badSettings (cause : BadSettings)
  | mismatch (cause : Mismatch)
  | outOfRange (cause : OutOfRange)
  | unknownClass (cls : Label)
  | unknownNode (node : Label)
  | missingKey (key : Label)
  | noSuchIndex
  | tooLarge
  | dividedByZero
  | remainderByZero
  | cyclicGraph
  | unreadableFile
  | missingFile (path : String)
  | usage (status : Nat)

def Malformation.message : Malformation → String
  | .duplicateClass c => "Duplicate class id " ++ c.render
  | .duplicateNode n => "Duplicate node id " ++ n.render
  | .unknownChild n c => "Node " ++ n.render ++ " references unknown class " ++ c.render
  | .unknownMember c n => "Class " ++ c.render ++ " references unknown node " ++ n.render
  | .sharedMember n => "Node " ++ n.render ++ " belongs to more than one class"
  | .orphans ns => "Nodes without a class: " ++ Label.renderList ns
  | .unknownRoot r => "Unknown root class " ++ r.render
  | .rootNotExtractable r => "Root class " ++ r.render ++ " has no acyclic extraction"

/-- Texts in code point order, each once more in quotes, between brackets. -/
def quotedAndSorted (texts : List String) : String :=
  Text.bracketed ((texts.mergeSort (fun a b => decide (a ≤ b))).map Text.quoted)

def Violation.message : Violation → String
  | .illegalMove n pending =>
    "Illegal move: node " ++ n.render ++ " for class " ++ (pending.getD .none).render
  | .closesCycle c => "Class " ++ c.render ++ " closes a cycle"
  | .notTerminal c => "State is not terminal, " ++ c.render ++ " is still pending"
  | .rootUnassigned => "Root class is not assigned"
  | .notMember n c => "Node " ++ n.render ++ " is not a member of class " ++ c.render
  | .unassignedChild c => "Class " ++ c.render ++ " is referenced but not assigned"
  | .cyclic edges =>
    "Term contains a cycle: " ++
      Label.renderList (edges.map fun (tail, head) => .tuple [tail, head])
  | .unreachable cs =>
    "Assigned classes unreachable from root: " ++ quotedAndSorted (cs.map Label.render)
  | .rootNotCompleted => "Root class could not be completed"

def BadSettings.message : BadSettings → String
  | .mustNotBeNegative field => field ++ " must be non-negative"
  | .mustBePositive field => field ++ " must be at least 1"
  | .noLimit => "At least one of max_playouts or time_limit must be set"
  | .unknownKeys keys => "Unknown config keys: " ++ (Datum.list keys).render
  | .unknownPolicy given =>
    "Unknown rollout policy " ++ given.render ++ ", expected one of ['uniform', 'weighted']"
  | .unknownTransform given =>
    "Unknown value transform " ++ given.render ++ ", expected one of ['negate', 'reciprocal']"
  | .notMapping path content =>
    "Config file " ++ path ++ " must contain a mapping, got " ++ content.kindName

def Mismatch.message : Mismatch → String
  | .order test left right =>
    "'" ++ test ++ "' not supported between instances of '" ++ left ++ "' and '" ++ right ++ "'"
  | .wholeNumber given => "'" ++ given ++ "' object cannot be interpreted as an integer"
  | .negation given => "bad operand type for unary -: '" ++ given ++ "'"
  | .tableKey given => "unhashable type: '" ++ given ++ "'"
  | .seed given =>
    "SeedSequence expects int or sequence of ints for entropy not " ++ given.plain
  | .seedItem => "seed must be integer"
  | .repeatedOption name =>
    "mcts_extract.config.ExtractorConfig() got multiple values for keyword argument '"
      ++ name ++ "'"
  | .unknownOption callee name =>
    callee ++ "() got an unexpected keyword argument '" ++ name ++ "'"

def OutOfRange.message : OutOfRange → String
  | .emptyBelow => "high <= 0"
  | .emptyBetween => "low >= high"
  | .lowOutOfBounds => "low is out of bounds for int64"
  | .highOutOfBounds => "high is out of bounds for int64"
  | .negativeSeed => "expected non-negative integer"
  | .negativeWeight => "Rollout weights must be non-negative"
  | .undefinedProbability => "Probabilities contain NaN"
  | .unbalancedProbabilities =>
    "Probabilities do not sum to 1. See Notes section of docstring for more information."
  | .negativeProbability => "Probabilities are not non-negative"
  | .unequalSizes => "a and p must have same size"
  | .emptyPopulation => "a must be a positive integer unless no samples are taken"
  | .namelessVertex => "None cannot be a node"
  | .alreadyExpanded node parent =>
    "Move " ++ node.render ++ " already expanded under node " ++ toString parent
  | .noMoves => "No legal moves to select from"
  | .unknownTest name => "Unknown test type: " ++ name

namespace Fault

def message : Fault → String
  | malformed cause => cause.message
  | violation cause => cause.message
  | badSettings cause => cause.message
  | mismatch cause => cause.message
  | outOfRange cause => cause.message
  | unknownClass c => Text.quoted ("Unknown class " ++ c.render)
  | unknownNode n => Text.quoted ("Unknown node " ++ n.render)
  | missingKey key => key.render
  | noSuchIndex => "list index out of range"
  | tooLarge => "int too large to convert to float"
  | dividedByZero => "float division by zero"
  | remainderByZero => "integer modulo by zero"
  | cyclicGraph => "Graph contains a cycle or graph changed during iteration"
  | unreadableFile => ""
  | missingFile path => "[Errno 2] No such file or directory: " ++ Text.quoted path
  | usage status => toString status

def kindName : Fault → String
  | malformed _ => "MalformedEGraphError"
  | violation _ => "InvariantViolationError"
  | badSettings _ => "ConfigError"
  | mismatch _ => "TypeError"
  | outOfRange _ => "ValueError"
  | unknownClass _ => "KeyError"
  | unknownNode _ => "KeyError"
  | missingKey _ => "KeyError"
  | noSuchIndex => "IndexError"
  | tooLarge => "OverflowError"
  | dividedByZero => "ZeroDivisionError"
  | remainderByZero => "ZeroDivisionError"
  | cyclicGraph => "NetworkXUnfeasible"
  | unreadableFile => "YAMLError"
  | missingFile _ => "FileNotFoundError"
  | usage _ => "SystemExit"

/-- A fault as the journal shows it: its kind, and in brackets what it was raised with. -/
def render (fault : Fault) : String :=
  let content :=
    match fault with
    | unknownClass _ => fault.message
    | unknownNode _ => fault.message
    | missingKey _ => fault.message
    | usage _ => fault.message
    | _ => Text.quoted fault.message
  fault.kindName ++ "(" ++ content ++ ")"

end Fault

end EGraphSearch
