import StyleSieve.Engine.Basic
import StyleSieve.Engine.Discovery

/-!
# The command line

The command rewrites a page from its input to its output with the styles below a folder.  Arguments
are read from left to right, and the first that is wrong ends the reading.  Of several folders the
last one counts.  An error is reported with what lies behind it, outermost first.
-/

namespace StyleSieve.CommandLine

open Transfer (Failure)

/-- What the arguments ask for. -/
structure Request where
  /-- The folder of the styles, as it was written. -/
  folder : Text
  settings : Settings
  deriving DecidableEq, Repr

/-- Why arguments make no request. -/
inductive UsageError where
  /-- `--ext` stands last. -/
  | noExtension
  | unknownOption (option : Text)
  | noFolder
  deriving DecidableEq, Repr

/-- An error of usage in words. -/
def UsageError.message : UsageError → String
  | noExtension => "--ext needs a value"
  | unknownOption option => "unknown option " ++ String.ofList option
  | noFolder => "usage: crit [--dedupe] [--skip-invalid] [--ext EXT] <assets-dir>"

/-- Reads arguments, after those that made `settings` and `folder`. -/
def parseWith (settings : Settings) (folder : Option Text) :
    List Text → Except UsageError Request
  | [] =>
    match folder with
    | some folder => .ok ⟨folder, settings⟩
    | none => .error .noFolder
  | arg :: args =>
    if arg = "--dedupe".toList then
      let rewriting := { settings.rewriting with dedupe := true }
      parseWith { settings with rewriting } folder args
    else if arg = "--skip-invalid".toList then
      let leniency := { settings.leniency with skipInvalid := true }
      parseWith { settings with leniency } folder args
    else if arg = "--ext".toList then
      match args with
      | [] => .error .noExtension
      | extension :: args => parseWith (settings.withExtension extension) folder args
    else if "--".toList.isPrefixOf arg then .error (.unknownOption arg)
    else parseWith settings (some arg) args

/-- Reads the arguments. -/
def parse (args : List Text) : Except UsageError Request := parseWith {} none args

/-- Why the command failed. -/
inductive CommandError where
  | usage (error : UsageError)
  /-- The styles of a folder could not be loaded. -/
  | loading (folder : Text) (error : EngineError)
  | serving (error : EngineError)
  deriving DecidableEq, Repr

namespace CommandError

/-- An error of an engine in words, with what lies behind it. -/
def chainOf (e : EngineError) : List String := e.message :: e.cause?.toList

/-- An error in words, with what lies behind it, outermost first. -/
def chain : CommandError → List String
  | usage e => [e.message]
  | loading folder e => ("loading styles from " ++ String.ofList folder) :: chainOf e
  | serving e => chainOf e

/-- A text with `margin` before each line but the first. -/
def hang (margin : Text) (t : Text) : Text :=
  t.flatMap fun c => if c = '\n' then '\n' :: margin else [c]

/-- A number in a column of five. -/
def numeral (n : Nat) : Text :=
  let digits := (toString n).toList
  List.replicate (5 - digits.length) ' ' ++ digits

/-- The lines of a list of causes: numbered from zero, unless there is only one. -/
def causeLines : List String → Text
  | [] => []
  | [cause] => '\n' :: (List.replicate 4 ' ' ++ hang (List.replicate 4 ' ') cause.toList)
  | causes =>
    causes.zipIdx.flatMap fun (cause, n) =>
      '\n' :: (numeral n ++ ": ".toList ++ hang (List.replicate 7 ' ') cause.toList)

/-- The report of an error. -/
def report (e : CommandError) : Text :=
  match e.chain with
  | [] => []
  | [outermost] => ("Error: " ++ outermost).toList
  | outermost :: causes =>
    ("Error: " ++ outermost ++ "\n\nCaused by:").toList ++ causeLines causes

end CommandError

/-- The engine that a request asks for, with what the reading of its folder gave. -/
def Request.engine (r : Request) (supplied : Except Failure (List (Text × Text))) :
    Except CommandError Engine :=
  match Catalog.load supplied r.settings with
  | .ok catalog => .ok ⟨r.settings, catalog⟩
  | .error e => .error (.loading r.folder e)

/-- What the command leaves behind: its output, and its report if it failed. -/
structure Outcome where
  output : Bytes
  report : Option Text
  deriving DecidableEq, Repr

/-- The status that the command exits with. -/
def Outcome.status (o : Outcome) : Nat := if o.report.isNone then 0 else 1

/-- The files that a request asks for, where `here` is the folder that it was made in.  No path at
all names nothing. -/
def Request.sources (r : Request) (here : Folder) : Except Failure (List (Text × Text)) :=
  if r.folder.isEmpty then .error .notFound
  else here.readFiles (Route.ofText r.folder) r.settings.extension

/-- Serves a page with an engine. -/
def serve (e : Engine) (input : Bytes) : Outcome :=
  match e.pipe {} [.bytes input] with
  | (outlet, .failed f) => ⟨outlet.received, some (CommandError.serving (.transfer f)).report⟩
  | (outlet, _) => ⟨outlet.received, none⟩

/-- Runs the command in a folder. -/
def run (here : Folder) (args : List Text) (input : Bytes) : Outcome :=
  match parse args with
  | .error e => ⟨[], some (CommandError.usage e).report⟩
  | .ok r =>
    match r.engine (r.sources here) with
    | .error e => ⟨[], some e.report⟩
    | .ok e => serve e input

end StyleSieve.CommandLine
