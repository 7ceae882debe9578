import EGraphSearch.Settings
import EGraphSearch.Yaml.Reader
import EGraphSearch.Yaml.Writer

/-!
# Settings files

A settings file is a mapping of options.  They may stand in a section `extractor`, so that one file
can hold the settings of several tools.
-/

set_option autoImplicit false

namespace EGraphSearch

def sectionName : String := "extractor"

def optionsOfDocument (path : String) (document : Datum) : Except Fault Options :=
  match document with
  | .null => .ok []
  | .map entries =>
    match Options.get? entries sectionName with
    | some (.map own) => .ok own
    | _ => .ok entries
  | _ => .error (.badSettings (.notMapping path document))

/-- The options in the file at a path; `none` stands for a file that does not exist. -/
def readOptions (path : String) (text : Option String) : Except Fault Options :=
  match text with
  | none => .error (.missingFile path)
  | some text =>
    match Yaml.read? text with
    | none => .error .unreadableFile
    | some document => optionsOfDocument path document

namespace Settings

def ofFile (path : String) (text : Option String) : Except Fault Settings := do
  ofOptions (← readOptions path text)

def fileText (s : Settings) : String :=
  Yaml.write (.map [(.text sectionName,
    .map (s.toOptions.map fun (name, value) => (.text name, value)))])

/-- Whether the file with these settings reads back as equal settings. -/
def survivesWriting (s : Settings) (path : String) : Except Fault Bool :=
  (ofFile path (some s.fileText)).map s.same

end Settings

end EGraphSearch
