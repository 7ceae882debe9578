import EGraphSearch.Fault
import EGraphSearch.Number.Reading
import EGraphSearch.Oracle.Pricing

/-!
# Arguments of the budget experiment

Options have long names, of which any unambiguous beginning will do.  The value of an option is
the next word, or stands behind an equals sign.  A word that starts with a dash is an option,
unless it is a negative number or has a blank in it.  After two dashes no word is an option.
Nothing is taken besides options, so every other word is refused, but only after all options have
been read: a request for help comes first.
-/

set_option autoImplicit false

namespace EGraphSearch.Experiment

structure Arguments where
  numClasses : Int := 30
  backEdgeProbability : Float := Binary64.ofDecimal 3 (-1)
  graphSeed : Int := 42
  /-- The settings file; the empty path stands for none, here and below. -/
  settingsPath : String := ""
  measure : SizeMeasure := .treeSize
  budgets : List Int := [50, 100, 200]
  numSeeds : Int := 10
  outputPath : String := ""
  journalPath : String := ""

inductive Flag where
  | help
  | numClasses
  | backEdgeProbability
  | graphSeed
  | settingsPath
  | measure
  | budgets
  | numSeeds
  | outputPath
  | journalPath
  deriving DecidableEq, Repr

namespace Flag

def name : Flag → String
  | help => "--help"
  | numClasses => "--num_classes"
  | backEdgeProbability => "--back_edge_prob"
  | graphSeed => "--graph_seed"
  | settingsPath => "--config"
  | measure => "--oracle"
  | budgets => "--budgets"
  | numSeeds => "--num_seeds"
  | outputPath => "--output"
  | journalPath => "--log_file"

def all : List Flag :=
  [help, numClasses, backEdgeProbability, graphSeed, settingsPath, measure, budgets, numSeeds,
   outputPath, journalPath]

def beginning (text : String) : List Flag :=
  match all.filter fun flag => flag.name = text with
  | [] => all.filter fun flag => flag.name.startsWith text
  | exact => exact

end Flag

/-! ## Words -/

inductive Word where
  | value (text : String)
  /-- An option by its long name, and the value behind an equals sign. -/
  | flag (flag : Flag) (attached : Option String)
  /-- The short name of help, and what is written right behind it. -/
  | shortHelp (tail : List Char)
  /-- A word that is neither an option nor a value. -/
  | stray

def refused : Fault := .usage 2

def helpWanted : Fault := .usage 0

def isNegativeNumber (chars : List Char) : Bool :=
  let isDigit (c : Char) : Bool := (Text.digitValue? c).isSome
  match chars with
  | '-' :: rest =>
    match rest.dropWhile isDigit with
    | [] => !rest.isEmpty
    | '.' :: fraction => !fraction.isEmpty && fraction.all isDigit
    | _ => false
  | _ => false

def splitAttached (chars : List Char) : String × Option String :=
  let name := String.ofList (chars.takeWhile (· != '='))
  match chars.dropWhile (· != '=') with
  | [] => (name, none)
  | _ :: rest => (name, some (String.ofList rest))

/-- A word with a leading dash that names no option. -/
def unnamed (chars : List Char) : Word :=
  if isNegativeNumber chars || chars.contains ' ' then .value (String.ofList chars) else .stray

def Word.ofText (text : String) : Except Fault Word :=
  match text.toList with
  | '-' :: '-' :: rest =>
    let (name, attached) := splitAttached ('-' :: '-' :: rest)
    match Flag.beginning name with
    | [] => .ok (unnamed text.toList)
    | [only] => .ok (.flag only attached)
    | _ => .error refused
  | '-' :: 'h' :: tail => .ok (.shortHelp tail)
  | '-' :: second :: rest => .ok (unnamed ('-' :: second :: rest))
  | _ => .ok (.value text)

/-- What the words are; two dashes on their own make values of all words after them. -/
def classify : List String → Except Fault (List Word)
  | [] => .ok []
  | text :: rest =>
    if text = "--" then .ok (.stray :: rest.map .value)
    else do return (← Word.ofText text) :: (← classify rest)

/-! ## Reading -/

/-- An option or a stray word with the values that follow it. -/
structure Group where
  head : Word
  values : List String

def groups : List Word → List String × List Group
  | [] => ([], [])
  | .value text :: rest =>
    let (leading, later) := groups rest
    (text :: leading, later)
  | head :: rest =>
    let (leading, later) := groups rest
    ([], ⟨head, leading⟩ :: later)

def wholeNumber (text : String) : Except Fault Int :=
  match Text.readInt? text with
  | some n => .ok n
  | none => .error refused

def Arguments.set (a : Arguments) (flag : Flag) (value : String) : Except Fault Arguments :=
  match flag with
  | .help => .error refused
  | .numClasses => (wholeNumber value).map fun n => { a with numClasses := n }
  | .backEdgeProbability =>
    match Text.readFloat? value with
    | some p => .ok { a with backEdgeProbability := p }
    | none => .error refused
  | .graphSeed => (wholeNumber value).map fun n => { a with graphSeed := n }
  | .settingsPath => .ok { a with settingsPath := value }
  | .measure =>
    match SizeMeasure.ofName? value with
    | some m => .ok { a with measure := m }
    | none => .error refused
  | .budgets => (wholeNumber value).map fun n => { a with budgets := [n] }
  | .numSeeds => (wholeNumber value).map fun n => { a with numSeeds := n }
  | .outputPath => .ok { a with outputPath := value }
  | .journalPath => .ok { a with journalPath := value }

/-- Reads an option without an attached value, and tells whether values are left over. -/
def Arguments.setFrom (a : Arguments) (flag : Flag) (values : List String) :
    Except Fault (Arguments × Bool) :=
  match flag, values with
  | .help, _ => .error helpWanted
  | _, [] => .error refused
  | .budgets, values => (values.mapM wholeNumber).map fun ns => ({ a with budgets := ns }, false)
  | flag, value :: rest => (a.set flag value).map fun a => (a, !rest.isEmpty)

/-- What comes of the short name of help and the characters right behind it: help, unless a value is
attached to it. -/
def shortHelpFault : List Char → Fault
  | 'h' :: tail => shortHelpFault tail
  | '=' :: _ => refused
  | '-' :: _ => refused
  | _ => helpWanted

/-- Reads a group, and tells whether anything in it is left over. -/
def Arguments.readGroup (a : Arguments) (group : Group) : Except Fault (Arguments × Bool) :=
  match group.head with
  | .flag flag none => a.setFrom flag group.values
  | .flag flag (some value) => (a.set flag value).map fun a => (a, !group.values.isEmpty)
  | .shortHelp tail => .error (shortHelpFault tail)
  | _ => .ok (a, true)

def Arguments.readGroups (leftOver : Bool) (a : Arguments) :
    List Group → Except Fault Arguments
  | [] => if leftOver then .error refused else .ok a
  | group :: rest =>
    match a.readGroup group with
    | .error fault => .error fault
    | .ok (a, more) => readGroups (leftOver || more) a rest

def Arguments.ofWords (words : List String) : Except Fault Arguments := do
  let (leading, groups) := groups (← classify words)
  Arguments.readGroups (!leading.isEmpty) {} groups

end EGraphSearch.Experiment
