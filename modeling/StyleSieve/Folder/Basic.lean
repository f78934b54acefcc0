import StyleSieve.Folder.Path
import StyleSieve.Text.Utf8
import StyleSieve.Transfer.Failure

/-!
# Folders

A folder holds files, folders and links, each at its path; the folder itself stands at the top.  A
link stands for what a route from the top leads to.  `walk` takes the steps of a route: each starts
from a folder, and links on the way are followed.  What happens at a link that the route ends with
depends on what the route is walked for.
-/

namespace StyleSieve

open Transfer (Failure)

/-- What stands at a path. -/
inductive Entry where
  | file (contents : Bytes)
  | folder
  /-- Stands for what the target leads to. -/
  | link (target : Route)
  deriving DecidableEq, Repr

/-- The entries of a folder and of all folders in it, with the folder itself. -/
structure Folder where
  entries : List (Path × Entry) := [([], .folder)]
  deriving DecidableEq, Repr, Inhabited

/-- Where a route ends. -/
structure Spot where
  path : Path
  /-- The last step goes down to a name. -/
  isNamed : Bool
  /-- A slash stands behind the last step. -/
  slash : Bool
  deriving DecidableEq, Repr

/-- Whether a link at the end of a route is followed, given whether a slash stands behind it. -/
abbrev EndPolicy := Bool → Bool

namespace EndPolicy

/-- The route leads to the link itself. -/
def leave : EndPolicy := fun _ => false

/-- The route leads to what the link stands for. -/
def follow : EndPolicy := fun _ => true

/-- A slash asks for what the link stands for. -/
def followAtSlash : EndPolicy := fun slash => slash

/-- A slash keeps from what the link stands for. -/
def followUnlessSlash : EndPolicy := fun slash => !slash

end EndPolicy

namespace Folder

/-- What stands at a path, links left alone. -/
def entry? (f : Folder) (path : Path) : Option Entry := f.entries.lookup path

/-- How many bytes a name may have. -/
def nameLimit : Nat := 255

/-- Takes steps from a spot.  A link that has to be followed is left to `onLink`, with the steps
that remain behind it. -/
def walk (f : Folder) (onLink : Route → Except Failure Spot) (policy : EndPolicy) :
    Spot → List Step → Except Failure Spot
  | spot, [] => .ok spot
  | spot, step :: rest =>
    match f.entry? spot.path with
    | none => .error .notFound
    | some .folder =>
      match step with
      | .stay => walk f onLink policy { spot with isNamed := false } rest
      | .up => walk f onLink policy { spot with path := spot.path.dropLast, isNamed := false } rest
      | .down name =>
        let next : Spot := { spot with path := spot.path ++ [name], isNamed := true }
        if (Utf8.encode name).length > nameLimit then .error .nameTooLong
        else
          match f.entry? next.path with
          | some (.link target) =>
            if rest.isEmpty then
              if policy spot.slash then onLink ⟨target.steps, spot.slash || target.slash⟩
              else .ok next
            else onLink ⟨target.steps ++ rest, spot.slash⟩
          | _ => walk f onLink policy next rest
    | some _ => .error .notADirectory

/-- Where a route ends over fewer than `limit` links. -/
def seekWithin (f : Folder) (policy : EndPolicy) : (limit : Nat) → Route → Except Failure Spot
  | 0, _ => .error .tooManyLinks
  | limit + 1, route =>
    f.walk (seekWithin f policy limit) policy ⟨[], true, route.slash⟩ route.steps

/-- Where a route ends, over forty links at most. -/
def seek (f : Folder) (policy : EndPolicy) (route : Route) : Except Failure Spot :=
  if route.hasNull then .error .nullInName else f.seekWithin policy 41 route

/-- What a route leads to, and where that stands. -/
def findWith (f : Folder) (policy : EndPolicy) (route : Route) : Except Failure (Path × Entry) := do
  let spot ← f.seek policy route
  match f.entry? spot.path with
  | some .folder => .ok (spot.path, .folder)
  | some entry => if spot.slash then .error .notADirectory else .ok (spot.path, entry)
  | none => .error .notFound

/-- What a route leads to, and where that stands, links followed to the end. -/
def find (f : Folder) (route : Route) : Except Failure (Path × Entry) := f.findWith .follow route

/-- Whether a route leads to a folder. -/
def isFolder (f : Folder) (route : Route) : Bool :=
  match f.find route with
  | .ok (_, .folder) => true
  | _ => false

end Folder

end StyleSieve
