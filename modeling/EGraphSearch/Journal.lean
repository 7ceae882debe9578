import EGraphSearch.Search.Event

/-!
# Journals

Channels are named by dots and form a tree under the root, whose name is empty.  A channel without a
level of its own takes the level of its nearest ancestor that has one.  A line that passes the level
of its own channel goes to the sinks of that channel and of all its ancestors.  Opening a journal
closes the sinks of the one before, but leaves the levels as they are.
-/

set_option autoImplicit false

namespace EGraphSearch

/-- Where lines go: to the console, as long as one journal is open, or to the end of a file. -/
inductive Sink where
  | console (journal : Nat)
  | file (path : String)
  deriving DecidableEq, Repr

structure Journal where
  levels : List (String × Int)
  sinks : List (String × Sink)
  /-- How many journals have been opened. -/
  opened : Nat
  /-- The files that have been opened, in order of their names. -/
  files : List String
  /-- The lines with their sinks, in order of time. -/
  lines : List (Sink × String)

namespace Journal

def initial : Journal := ⟨[("", 30)], [], 0, [], []⟩

def channelOf (name : String) : String := if name = "root" then "" else name

def shownName (channel : String) : String := if channel.isEmpty then "root" else channel

/-- A channel and its ancestors: the parts of the name up to each dot from the right, then the
root. -/
def lineage (channel : String) : List String :=
  let parts := channel.splitOn "."
  let ancestors := (List.range parts.length).map fun i =>
    ".".intercalate (parts.take (parts.length - i))
  ancestors.filter (fun name => !name.isEmpty) ++ [""]

def levelOf (j : Journal) (channel : String) : Int :=
  ((lineage channel).findSome? fun name =>
    match j.levels.lookup name with
    | none => none
    | some level => if level = 0 then none else some level).getD 0

def ownLevel (j : Journal) (channel : String) : Int := (j.levels.lookup channel).getD 0

def levelName (level : Int) : String :=
  match Severity.all.find? fun s => (s.rank : Int) = level with
  | some s => s.name
  | none => if level = 0 then "NOTSET" else "Level " ++ toString level

def sinksOf (j : Journal) (channel : String) : List Sink :=
  (j.sinks.filter fun entry => entry.1 = channel).map Prod.snd

/-- Opens a journal for a channel and its descendants: on the console, and in a file if one is
named. -/
def setUp (channel : String) (level : Int) (path : Option String) (j : Journal) : Journal :=
  let file? := path.filter fun p => !p.isEmpty
  { j with
    levels := (channel, level) :: j.levels.filter fun entry => entry.1 != channel
    sinks := (channel, .console j.opened) ::
      (file?.map fun p => (channel, Sink.file p)).toList
    opened := j.opened + 1
    files := (j.files ++ file?.toList).eraseDups.mergeSort fun a b => decide (a ≤ b) }

def lineText (channel : String) (level : Int) (text : String) : String :=
  shownName channel ++ " - " ++ levelName level ++ " - " ++ text

/-- Writes a line, unless its level is below that of its channel; levels up to zero never pass. -/
def write (channel : String) (level : Int) (text : String) (j : Journal) : Journal :=
  if level ≤ 0 ∨ level < j.levelOf channel then j
  else
    let sinks := (lineage channel).flatMap j.sinksOf
    { j with lines := j.lines ++ sinks.map fun sink => (sink, lineText channel level text) }

def linesOf (j : Journal) (sink : Sink) : List String :=
  (j.lines.filter fun entry => entry.1 = sink).map Prod.snd

def note (remark : Remark) (j : Journal) : Journal :=
  j.write remark.channel remark.severity.rank remark.text

end Journal

end EGraphSearch
