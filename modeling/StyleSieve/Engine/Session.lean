import StyleSieve.Catalog.Render
import StyleSieve.Engine.Basic
import StyleSieve.Engine.Discovery
import StyleSieve.Engine.Shelf
import StyleSieve.Folder.Edit

/-!
# Sessions

A session runs an engine beside a folder that changes under it.  The catalog in use stands at a slot
of a shelf; whoever kept the slot as a handle can replace it too.  A stream or a snapshot keeps the
catalog that was in use when it was taken.  Streams, snapshots and handles go by labels, and a label
stands for what it was last given to.

A command answers and leaves a session behind.  One that fails leaves the engine as it was.
-/

namespace StyleSieve

open Rewrite (Rewriter Stats)
open Transfer (Ending Failure)

/-- What a stream, a snapshot or a handle goes by. -/
abbrev Label := Text

/-- An engine at work. -/
structure Session where
  /-- The folder that styles are found in. -/
  folder : Folder := {}
  shelf : Shelf := ⟨[{}]⟩
  settings : Settings := {}
  /-- Where the catalog in use stands. -/
  slot : Slot := 0
  /-- Where the styles were found, if they were. -/
  home : Option Route := none
  /-- Open streams; `none` after one has ended. -/
  streams : List (Label × Option Rewriter) := []
  snapshots : List (Label × Catalog) := []
  handles : List (Label × Slot) := []

/-- What a session may be asked. -/
inductive Command where
  /-- Writes a file of the folder. -/
  | write (route : Route) (contents : Bytes)
  | makeFolder (route : Route)
  | remove (route : Route)
  | removeFolder (route : Route)
  | link (route target : Route)
  /-- Reads the files that have an extension, below where a route leads. -/
  | readFiles (route : Route) (extension : Text)
  /-- Starts over with the styles below where a route leads. -/
  | discover (route : Route) (settings : Settings)
  /-- Starts over with given styles. -/
  | adopt (settings : Settings) (catalog : Catalog)
  /-- Reads the styles again where they were found. -/
  | rebuild
  | settings
  | rewrite (html : Text)
  | critical (usage : Usage)
  /-- Replaces the catalog in use. -/
  | replace (catalog : Catalog) (usage : Usage)
  | snapshot (label : Label)
  | criticalOfSnapshot (label : Label) (usage : Usage)
  /-- Keeps the slot in use as a handle. -/
  | handle (label : Label)
  /-- Replaces the catalog that a handle leads to. -/
  | replaceByHandle (label : Label) (catalog : Catalog) (usage : Usage)
  | criticalOfHandle (label : Label) (usage : Usage)
  /-- Opens a stream for one page. -/
  | openStream (label : Label)
  | push (label : Label) (bytes : Bytes)
  | finish (label : Label)
  /-- Pipes one page. -/
  | pipe (page : Bytes)
  /-- Writes one page in pieces. -/
  | writePage (pieces : List Bytes)

/-- What a session answers. -/
inductive Answer where
  | done
  /-- The folder does not allow it. -/
  | refused (failure : Failure)
  | failed (error : EngineError)
  /-- Names of the files of the catalog in use. -/
  | files (names : List Text)
  /-- Names and texts of files of the folder. -/
  | contents (files : List (Text × Text))
  | settings (settings : Settings)
  | text (text : Text)
  /-- The CSS of a replaced catalog and of the one now in use. -/
  | replaced (old now : Text)
  /-- Bytes of a page that are final. -/
  | sent (bytes : Bytes)
  /-- The end of a page: the bytes sent, and how it ended. -/
  | ended (bytes : Bytes) (ending : Ending Stats)
  /-- The label stands for nothing, or for a stream that has ended. -/
  | unknown
  deriving DecidableEq, Repr

namespace Session

/-- The engine in use. -/
def engine (s : Session) : Engine := ⟨s.settings, s.shelf.catalog s.slot⟩

/-- The names of the files in use. -/
def names (s : Session) : List Text := s.engine.catalog.files.map (·.name)

/-- The session after a change of its folder. -/
def edit (s : Session) : Folder.Edit → Session × Answer
  | (folder, none) => ({ s with folder }, .done)
  | (folder, some f) => ({ s with folder }, .refused f)

/-- The session with a new engine. -/
def install (s : Session) (settings : Settings) (home : Option Route) (c : Catalog) : Session :=
  let (shelf, slot) := s.shelf.add c
  { s with shelf, slot, settings, home }

/-- Starts over with the styles below where a route leads. -/
def discover (s : Session) (route : Route) (settings : Settings) : Session × Answer :=
  match Catalog.discover s.folder route settings with
  | .ok c =>
    let next := s.install settings (some route) c
    (next, .files next.names)
  | .error e => (s, .failed e)

/-- What reading the styles again where they were found gives now. -/
def reread (s : Session) : Except EngineError Catalog :=
  match s.home with
  | none => .error .noFolder
  | some route => Catalog.discover s.folder route s.settings

/-- Puts at a slot what reading the styles again gave, unless that failed. -/
def settle (s : Session) (slot : Slot) : Except EngineError Catalog → Session × Answer
  | .ok c =>
    let next := { s with shelf := (s.shelf.replace slot c).1 }
    (next, .files next.names)
  | .error e => (s, .failed e)

/-- Reads the styles again where they were found. -/
def rebuild (s : Session) : Session × Answer := s.settle s.slot s.reread

/-- Replaces the catalog at a slot; `usage` tells what CSS of it to show. -/
def replaceAt (s : Session) (slot : Slot) (c : Catalog) (usage : Usage) : Session × Answer :=
  let (shelf, old) := s.shelf.replace slot c
  let next := { s with shelf }
  (next, .replaced (old.critical usage) (next.engine.catalog.critical usage))

/-- The stream that a label stands for. -/
def stream? (s : Session) (label : Label) : Option Rewriter := (s.streams.lookup label).join

/-- The session with a stream under a label, or none. -/
def setStream (s : Session) (label : Label) (stream : Option Rewriter) : Session :=
  { s with streams := (label, stream) :: s.streams }

/-- Does what is asked. -/
def step (s : Session) : Command → Session × Answer
  | .write route contents => s.edit (s.folder.write route contents)
  | .makeFolder route => s.edit (s.folder.makeFolder route)
  | .remove route => s.edit (s.folder.remove route)
  | .removeFolder route => s.edit (s.folder.removeFolder route)
  | .link route target => s.edit (s.folder.link route target)
  | .readFiles route extension =>
    match s.folder.readFiles route extension with
    | .ok files => (s, .contents files)
    | .error f => (s, .refused f)
  | .discover route settings => s.discover route settings
  | .adopt settings c =>
    let next := s.install settings none c
    (next, .files next.names)
  | .rebuild => s.rebuild
  | .settings => (s, .settings s.settings)
  | .rewrite html => (s, .text (s.engine.rewrite html))
  | .critical usage => (s, .text (s.engine.catalog.critical usage))
  | .replace c usage => s.replaceAt s.slot c usage
  | .snapshot label =>
    ({ s with snapshots := (label, s.engine.catalog) :: s.snapshots }, .done)
  | .criticalOfSnapshot label usage =>
    match s.snapshots.lookup label with
    | some c => (s, .text (c.critical usage))
    | none => (s, .unknown)
  | .handle label => ({ s with handles := (label, s.slot) :: s.handles }, .done)
  | .replaceByHandle label c usage =>
    match s.handles.lookup label with
    | some slot => s.replaceAt slot c usage
    | none => (s, .unknown)
  | .criticalOfHandle label usage =>
    match s.handles.lookup label with
    | some slot => (s, .text ((s.shelf.catalog slot).critical usage))
    | none => (s, .unknown)
  | .openStream label => (s.setStream label (some s.engine.rewriter), .done)
  | .push label bytes =>
    match s.stream? label with
    | some r => (s.setStream label (some (r.push bytes).1), .sent (r.push bytes).2)
    | none => (s, .unknown)
  | .finish label =>
    match s.stream? label with
    | some r => (s.setStream label none, .ended r.finish.2 (.done r.finish.1))
    | none => (s, .unknown)
  | .pipe page =>
    let (outlet, ending) := s.engine.pipe {} [.bytes page]
    (s, .ended outlet.received ending)
  | .writePage pieces =>
    let (w, result) := (s.engine.writer {}).writePage pieces
    (s, .ended w.sink.received (.ofResult result))

/-- Does what is asked, one command after another. -/
def run (s : Session) : List Command → Session × List Answer
  | [] => (s, [])
  | command :: commands =>
    let (next, answer) := s.step command
    let (last, answers) := run next commands
    (last, answer :: answers)

end Session

end StyleSieve
