import StyleSieve.Engine.Settings
import StyleSieve.Folder.Basic
import StyleSieve.Text.Utf8

/-!
# Finding the styles of a project

The style files of a project are the files below a folder that have a given extension.  Links are
passed over, except that the folder itself may be given by one.  Files are named by their path from
the folder and read in the order of their names.  A file that is no text ends the reading before any
style is looked at.
-/

namespace StyleSieve

open Transfer (Failure)

/-- Why an engine could not do what it was asked. -/
inductive EngineError where
  | style (error : StyleError)
  | transfer (failure : Failure)
  /-- The styles did not come from a folder, so they cannot be read again. -/
  | noFolder
  deriving DecidableEq, Repr

namespace EngineError

/-- What lies behind an error, in words. -/
def cause? : EngineError → Option String
  | style e => some e.message
  | transfer f => some f.message
  | noFolder => none

/-- An error in words. -/
def message : EngineError → String
  | style e => "CSS error: " ++ e.message
  | transfer f => "I/O error: " ++ f.message
  | noFolder => "Engine was not created from a style directory"

end EngineError

namespace Folder

/-- What stands right in a folder, with its path, in the order in which the folder is listed. -/
def listed (f : Folder) (path : Path) : List (Path × Entry) :=
  f.entries.filter fun e => e.1 ≠ [] && e.1.dropLast = path

/-- The path of a folder. -/
def folder? : Path × Entry → Option Path
  | (path, .folder) => some path
  | _ => none

/-- Path and contents of a file that has the extension. -/
def fileWith? (extension : Text) : Path × Entry → Option (Path × Bytes)
  | (path, .file contents) =>
    if path.getLast?.bind Path.extension? = some extension then some (path, contents) else none
  | _ => none

/-- Lists folders that wait to be listed, `limit` of them at most, and gives the files with the
extension that stand in them.  The folders that stand in one wait before all others, the last that
was listed first. -/
def collectWithin (f : Folder) (extension : Text) :
    (limit : Nat) → (waiting : List Path) → List (Path × Bytes)
  | limit + 1, path :: waiting =>
    let listed := f.listed path
    listed.filterMap (fileWith? extension) ++
      collectWithin f extension limit ((listed.filterMap folder?).reverse ++ waiting)
  | _, _ => []

/-- The files with the extension below a folder.  No more folders are listed than there are
entries. -/
def collect (f : Folder) (top : Path) (extension : Text) : List (Path × Bytes) :=
  f.collectWithin extension f.entries.length [top]

/-- The files with the extension below a folder, named by their paths from there. -/
def named (f : Folder) (top : Path) (extension : Text) : List (Text × Bytes) :=
  (f.collect top extension).map fun (path, contents) => (Path.nameFrom top path, contents)

/-- Reads a named file as text. -/
def readText : Text × Bytes → Except Failure (Text × Text)
  | (name, contents) =>
    match Utf8.decode? contents with
    | some text => .ok (name, text)
    | none => .error .notText

/-- Names and texts of the files that have the extension, below the folder that a route leads to, by
name. -/
def readFiles (f : Folder) (route : Route) (extension : Text) :
    Except Failure (List (Text × Text)) := do
  match ← f.find route with
  | (top, .folder) =>
    ((f.named top extension).mergeSort fun a b => Text.atMost a.1 b.1).mapM readText
  | _ => .error .notADirectory

end Folder

namespace Catalog

/-- The catalog of the sources that a reader supplies. -/
def load (supplied : Except Failure (List (Text × Text))) (settings : Settings) :
    Except EngineError Catalog :=
  match supplied with
  | .error f => .error (.transfer f)
  | .ok sources => (ofSources settings.leniency sources).mapError .style

/-- The catalog of the style files below the folder that a route leads to. -/
def discover (f : Folder) (route : Route) (settings : Settings) : Except EngineError Catalog :=
  load (f.readFiles route settings.extension) settings

end Catalog

end StyleSieve
