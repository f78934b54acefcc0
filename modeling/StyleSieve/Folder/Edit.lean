import StyleSieve.Folder.Basic

/-!
# Changing a folder

Files and folders come and go one at a time.  Some changes take several steps, and one that fails in
the middle keeps what was done before: an `Edit` is the folder that is left, with the failure if
there was one.
-/

namespace StyleSieve.Folder

open Transfer (Failure)

/-- What a change leaves behind. -/
abbrev Edit := Folder × Option Failure

/-- The edit that changes all or nothing. -/
def attempt (f : Folder) : Except Failure Folder → Edit
  | .ok next => (next, none)
  | .error failure => (f, some failure)

/-- The folder with an entry at a path, in place of any other. -/
def put (f : Folder) (path : Path) (entry : Entry) : Folder :=
  ⟨f.entries.filter (fun e => e.1 ≠ path) ++ [(path, entry)]⟩

/-- The folder without what stands below a path. -/
def clear (f : Folder) (path : Path) : Folder :=
  ⟨f.entries.filter fun e => !(Path.below? path e.1).any (!·.isEmpty)⟩

/-- The folder without what stands at a path or below it. -/
def erase (f : Folder) (path : Path) : Folder :=
  ⟨f.entries.filter fun e => (Path.below? path e.1).isNone⟩

/-- Makes a folder in one that is there. -/
def addFolder (f : Folder) (route : Route) : Except Failure Folder := do
  let spot ← f.seek .leave route
  if !spot.isNamed || (f.entry? spot.path).isSome then .error .alreadyExists
  else .ok (f.put spot.path .folder)

/-- Makes the first folder of a list in which each stands in the next.  Where it cannot be made
because the next is missing, that is made before.  A folder that is there already will do. -/
def makeFirst (f : Folder) : List Route → Edit
  | [] => (f, none)
  | route :: above =>
    match f.addFolder route with
    | .ok made => (made, none)
    | .error failure =>
      if failure = .notFound then
        match makeFirst f above with
        | (next, some failure) => (next, some failure)
        | (next, none) =>
          match next.addFolder route with
          | .ok made => (made, none)
          | .error failure => (next, if next.isFolder route then none else some failure)
      else (f, if f.isFolder route then none else some failure)

/-- Makes a folder, and those that it needs above it. -/
def makeFolder (f : Folder) (route : Route) : Edit := f.makeFirst (route :: route.enclosing)

/-- Writes a file in a folder that is there. -/
def writeFile (f : Folder) (route : Route) (contents : Bytes) : Except Failure Folder := do
  let spot ← f.seek .followUnlessSlash route
  if !spot.isNamed || spot.slash || f.entry? spot.path = some .folder then .error .isADirectory
  else .ok (f.put spot.path (.file contents))

/-- Writes a file, and makes the folders that it needs. -/
def write (f : Folder) (route : Route) (contents : Bytes) : Edit :=
  match f.makeFirst route.enclosing with
  | (next, none) => next.attempt (next.writeFile route contents)
  | refused => refused

/-- Removes a file or a link. -/
def remove (f : Folder) (route : Route) : Edit :=
  f.attempt do
    let spot ← f.seek .leave route
    if !spot.isNamed then .error .isADirectory
    else
      match f.entry? spot.path with
      | none => .error .notFound
      | some .folder => .error .isADirectory
      | some _ => if spot.slash then .error .notADirectory else .ok (f.erase spot.path)

/-- Removes a folder that holds nothing.  One that is gone already will do. -/
def removeEmpty (f : Folder) (route : Route) : Except Failure Folder :=
  match f.seek .leave route with
  | .error failure => if failure = .notFound then .ok f else .error failure
  | .ok spot =>
    if !spot.isNamed then .error .invalidArgument
    else
      match f.entry? spot.path with
      | none => .ok f
      | some .folder => .ok (f.erase spot.path)
      | some _ => .error .notADirectory

/-- Removes a folder with all that it holds, or a link. -/
def removeFolder (f : Folder) (route : Route) : Edit :=
  match f.findWith .followAtSlash route with
  | .error failure => (f, some failure)
  | .ok (path, .folder) => (f.clear path).attempt ((f.clear path).removeEmpty route)
  | .ok (_, .file _) => (f, some .notADirectory)
  | .ok (path, .link _) => (f.erase path, none)

/-- Makes a link. -/
def link (f : Folder) (route target : Route) : Edit :=
  f.attempt do
    if target.hasNull then .error .nullInName
    else
      let spot ← f.seek .leave route
      if !spot.isNamed || (f.entry? spot.path).isSome then .error .alreadyExists
      else if spot.slash then .error .notFound
      else .ok (f.put spot.path (.link target))

/-- The folder that holds some files, in the folders that they need. -/
def ofFiles (files : List (Route × Bytes)) : Except Failure Folder :=
  files.foldlM (fun f (route, contents) =>
    match f.write route contents with
    | (next, none) => .ok next
    | (_, some failure) => .error failure) {}

end StyleSieve.Folder
