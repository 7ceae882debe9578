import EGraphSearch.Fault

/-!
# Settings

The settings of an extraction are named fields with defaults.  Options come in as data of any kind.
A field that is checked against a bound has to be a number; the others are taken as they are and
are looked at when they are used.
-/

set_option autoImplicit false

namespace EGraphSearch

/-- Named options, in the order in which they were given; no two have the same name. -/
abbrev Options := List (Datum × Datum)

namespace Options

def get? : Options → String → Option Datum
  | [], _ => none
  | (.text key, value) :: rest, name => if key = name then some value else get? rest name
  | _ :: rest, name => get? rest name

def without (names : List String) (options : Options) : Options :=
  options.filter fun entry =>
    match entry.1 with
    | .text key => !names.contains key
    | _ => true

/-- Writes an option: an old value is replaced in its place, a new one goes to the end. -/
def put : Options → Datum → Datum → Options
  | [], key, value => [(key, value)]
  | (k, v) :: rest, key, value =>
    if Datum.same k key then (k, value) :: rest else (k, v) :: put rest key value

def overriddenBy (options others : Options) : Options :=
  others.foldl (fun merged entry => merged.put entry.1 entry.2) options

end Options

structure Settings where
  explorationConstant : Number
  maxPlayouts : Option Number
  timeLimit : Option Number
  seed : Datum
  rolloutPolicy : Datum
  valueTransform : Datum
  failureCost : Datum
  rolloutsPerLeaf : Number
  playoutsPerRound : Option Number
  numWorkers : Number
  virtualLoss : Number
  completionAttempts : Number
  collectStatistics : Datum
  logInterval : Number

namespace Settings

def defaults : List (String × Datum) :=
  [("exploration_constant", .number (.float (Float.sqrt 2))),
   ("max_playouts", .number 1000),
   ("time_limit", .null),
   ("seed", .null),
   ("rollout_policy", .text "uniform"),
   ("value_transform", .text "reciprocal"),
   ("failure_cost", .number (.float 1000000)),
   ("rollouts_per_leaf", .number 1),
   ("playouts_per_round", .null),
   ("num_workers", .number 1),
   ("virtual_loss", .number (.float 1)),
   ("completion_attempts", .number 16),
   ("collect_statistics", .number (.truth true)),
   ("log_interval", .number 100)]

def fieldNames : List String := defaults.map Prod.fst

/-! ## Unknown options -/

def keyBelow? : Datum → Datum → Option Bool
  | .text s, .text t => some (decide (s < t))
  | .number m, .number n => some (m.below n)
  | _, _ => none

def firstIncomparable : List Datum → Option (Datum × Datum)
  | first :: second :: rest =>
    match keyBelow? second first with
    | none => some (first, second)
    | some _ => firstIncomparable (second :: rest)
  | _ => none

/-- The fault of options that no field is named after; their names are listed in order. -/
def unknownFault (keys : List Datum) : Fault :=
  match firstIncomparable keys with
  | some (first, second) => .mismatch (.order "<" second.kindName first.kindName)
  | none => .badSettings (.unknownKeys (keys.mergeSort fun x y => !(keyBelow? y x).getD false))

def isField : Datum → Bool
  | .text name => fieldNames.contains name
  | _ => false

/-! ## Checks -/

def valueOf (options : Options) (name : String) : Datum :=
  (options.get? name).getD ((defaults.lookup name).getD .null)

/-- A number that is not below a bound; not-a-number is below nothing. -/
def atLeast (bound : Number) (cause : BadSettings) (value : Datum) : Except Fault Number :=
  match value with
  | .number n => if n.below bound then .error (.badSettings cause) else .ok n
  | _ => .error (.mismatch (.order "<" value.kindName "int"))

def notNegative (options : Options) (name : String) : Except Fault Number :=
  atLeast 0 (.mustNotBeNegative name) (valueOf options name)

def positive (options : Options) (name : String) : Except Fault Number :=
  atLeast 1 (.mustBePositive name) (valueOf options name)

def optional (check : Options → String → Except Fault Number) (options : Options)
    (name : String) : Except Fault (Option Number) :=
  match valueOf options name with
  | .null => .ok none
  | _ => (check options name).map some

def checkLimits (options : Options) : Except Fault Unit :=
  match valueOf options "max_playouts", valueOf options "time_limit" with
  | .null, .null => .error (.badSettings .noLimit)
  | _, _ => .ok ()

/-- The settings of options whose names are all known.  The first field that is out of bounds, in
the order of the checks, is the one that is reported. -/
def ofKnown (options : Options) : Except Fault Settings := do
  let explorationConstant ← notNegative options "exploration_constant"
  checkLimits options
  let maxPlayouts ← optional notNegative options "max_playouts"
  let timeLimit ← optional notNegative options "time_limit"
  let rolloutsPerLeaf ← positive options "rollouts_per_leaf"
  let playoutsPerRound ← optional positive options "playouts_per_round"
  let numWorkers ← positive options "num_workers"
  let virtualLoss ← notNegative options "virtual_loss"
  let completionAttempts ← notNegative options "completion_attempts"
  let logInterval ← positive options "log_interval"
  return {
    explorationConstant := explorationConstant
    maxPlayouts := maxPlayouts
    timeLimit := timeLimit
    seed := valueOf options "seed"
    rolloutPolicy := valueOf options "rollout_policy"
    valueTransform := valueOf options "value_transform"
    failureCost := valueOf options "failure_cost"
    rolloutsPerLeaf := rolloutsPerLeaf
    playoutsPerRound := playoutsPerRound
    numWorkers := numWorkers
    virtualLoss := virtualLoss
    completionAttempts := completionAttempts
    collectStatistics := valueOf options "collect_statistics"
    logInterval := logInterval }

/-- The settings of options; unknown names are refused before any value is looked at. -/
def ofOptions (options : Options) : Except Fault Settings :=
  match (options.map Prod.fst).filter fun key => !isField key with
  | [] => ofKnown options
  | first :: rest => .error (unknownFault (first :: rest))

/-! ## Settings as data -/

def ofOptional : Option Number → Datum
  | none => .null
  | some n => .number n

def toOptions (s : Settings) : List (String × Datum) :=
  [("exploration_constant", .number s.explorationConstant),
   ("max_playouts", ofOptional s.maxPlayouts),
   ("time_limit", ofOptional s.timeLimit),
   ("seed", s.seed),
   ("rollout_policy", s.rolloutPolicy),
   ("value_transform", s.valueTransform),
   ("failure_cost", s.failureCost),
   ("rollouts_per_leaf", .number s.rolloutsPerLeaf),
   ("playouts_per_round", ofOptional s.playoutsPerRound),
   ("num_workers", .number s.numWorkers),
   ("virtual_loss", .number s.virtualLoss),
   ("completion_attempts", .number s.completionAttempts),
   ("collect_statistics", s.collectStatistics),
   ("log_interval", .number s.logInterval)]

def same (s t : Settings) : Bool :=
  Datum.sameItems (s.toOptions.map Prod.snd) (t.toOptions.map Prod.snd)

end Settings

end EGraphSearch
