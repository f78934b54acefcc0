import StyleSieve.CommandLine

/-!
# The command

Reads the styles from the disk and rewrites the page on standard input to standard output, piece by
piece.
-/

namespace StyleSieve.Main

open CommandLine
open Rewrite (Rewriter)
open Transfer (Failure)

/-- The code of a system error, and its wording there. -/
def codeOf : IO.Error → Option (UInt32 × String)
  | .alreadyExists _ code words | .noFileOrDirectory _ code words
  | .inappropriateType _ code words | .permissionDenied _ code words
  | .invalidArgument _ code words | .resourceExhausted _ code words
  | .noSuchThing _ code words | .interrupted _ code words | .otherError code words
  | .resourceBusy code words | .resourceVanished code words
  | .unsupportedOperation code words | .hardwareFault code words
  | .unsatisfiedConstraints code words | .illegalOperation code words
  | .protocolError code words | .timeExpired code words => some (code, words)
  | .unexpectedEof | .userError _ => none

/-- A system error as a failure. -/
def failureOf (e : IO.Error) : Failure :=
  match codeOf e with
  | some (code, words) => ⟨.other "system", words ++ " (os error " ++ toString code.toNat ++ ")"⟩
  | none => ⟨.other "system", toString e⟩

/-- The entries below a folder on the disk, which stands at `path`.  Files without the extension are
not read, and links are left out. -/
partial def entriesBelow (path : Path) (top : IO.FS.DirEntry) (extension : Text) :
    IO (List (Path × Entry)) := do
  let mut entries := []
  for child in ← top.path.readDir do
    let name := child.fileName.toList
    match (← child.path.symlinkMetadata).type with
    | .dir =>
      let below ← entriesBelow (path ++ [name]) child extension
      entries := entries ++ (path ++ [name], .folder) :: below
    | .file =>
      if Path.extension? name = some extension then
        let contents ← IO.FS.readBinFile child.path
        entries := entries ++ [(path ++ [name], .file contents.toList)]
    | _ => pure ()
  return entries

/-- The files on the disk that a request asks for. -/
def sources (r : Request) : IO (Except Failure (List (Text × Text))) := do
  if r.folder.isEmpty then return .error .notFound
  let top : IO.FS.DirEntry := ⟨String.ofList r.folder, "."⟩
  match ← (entriesBelow [] top r.settings.extension).toBaseIO with
  | .ok entries =>
    return (Folder.mk (([], .folder) :: entries)).readFiles .top r.settings.extension
  | .error e => return .error (failureOf e)

/-- Writes bytes. -/
def send (output : IO.FS.Stream) (bytes : Bytes) : IO Unit :=
  output.write ⟨bytes.toArray⟩

/-- Rewrites what is left of the input.  Where reading fails, an open region is still closed. -/
partial def serve (r : Rewriter) (size : USize) (input output : IO.FS.Stream) : IO Unit := do
  match ← (input.read size).toBaseIO with
  | .ok piece =>
    if piece.isEmpty then
      send output r.finish.2
      output.flush
    else
      let (next, out) := r.push piece.toList
      send output out
      serve next size input output
  | .error e =>
    discard (send output r.finish.2 *> output.flush).toBaseIO
    throw e

/-- Runs the command, or says why it failed. -/
def run (args : List Text) : IO (Option CommandError) := do
  match parse args with
  | .error e => return some (.usage e)
  | .ok r =>
    match r.engine (← sources r) with
    | .error e => return some e
    | .ok e =>
      let size := (max 1 e.settings.rewriting.readBuffer).toUSize
      match ← (serve e.rewriter size (← IO.getStdin) (← IO.getStdout)).toBaseIO with
      | .ok () => return none
      | .error e => return some (.serving (.transfer (failureOf e)))

end StyleSieve.Main

/-- Rewrites a page with the styles of a folder. -/
def main (args : List String) : IO UInt32 := do
  match ← StyleSieve.Main.run (args.map String.toList) with
  | none => return 0
  | some e =>
    IO.eprintln (String.ofList e.report)
    return 1
