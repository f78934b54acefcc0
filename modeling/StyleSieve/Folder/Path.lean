import StyleSieve.Text.Basic

/-!
# Paths and routes

A path is the list of names on the way from the top of a folder to something in it.  A route is how
one is written: names between slashes, where `.` stays in a folder and `..` goes one folder up.
A route is more than a path, for each of its steps is taken from a folder that has to be there, and
a slash at its end asks for a folder.
-/

namespace StyleSieve

/-- The names on the way to something in a folder. -/
abbrev Path := List Text

namespace Path

/-- The texts between slashes. -/
def split : Text → List Text
  | [] => [[]]
  | c :: t =>
    if c = '/' then [] :: split t
    else
      match split t with
      | [] => [[c]]
      | name :: names => (c :: name) :: names

/-- The names with slashes between them. -/
def toText : Path → Text
  | [] => []
  | [name] => name
  | name :: names => name ++ '/' :: toText names

/-- What a file name has after its last dot.  A dot in front does not count. -/
def extension? (name : Text) : Option Text :=
  let stem := (name.reverse.dropWhile (· ≠ '.')).drop 1
  if stem.isEmpty then none else some (name.reverse.takeWhile (· ≠ '.')).reverse

/-- What `path` has below `top`. -/
def below? : (top path : Path) → Option Path
  | [], path => some path
  | _ :: _, [] => none
  | t :: top, name :: path => if t = name then below? top path else none

/-- How a path is written from a folder above it. -/
def nameFrom (top path : Path) : Text := toText ((below? top path).getD path)

end Path

/-- A step of a route. -/
inductive Step where
  /-- Stays in the folder. -/
  | stay
  /-- Goes to the folder above. -/
  | up
  | down (name : Text)
  deriving DecidableEq, Repr

namespace Step

/-- The step that a text between slashes writes. -/
def ofText (t : Text) : Step :=
  if t = ['.'] then .stay else if t = ['.', '.'] then .up else .down t

/-- The name of a step down. -/
def name? : Step → Option Text
  | .down name => some name
  | _ => none

end Step

/-- A way from the top of a folder, as it is written. -/
structure Route where
  steps : List Step
  /-- A slash stands at the end. -/
  slash : Bool := false
  deriving DecidableEq, Repr

namespace Route

/-- The top. -/
def top : Route := ⟨[], false⟩

/-- The route that a text writes.  No text at all asks for the top as a folder.  A leading slash
leads out of the folder: it stays as an empty name, which nothing in a folder has. -/
def ofText (t : Text) : Route :=
  let steps := ((Path.split t).filter (· ≠ [])).map Step.ofText
  ⟨if t.head? = some '/' then .down [] :: steps else steps, t.getLast?.all (· = '/')⟩

/-- Some step goes down to a name with a null character. -/
def hasNull (r : Route) : Bool := r.steps.any fun s => s.name?.any (·.contains '\x00')

/-- All lists that a list properly starts with, longest first. -/
def properStarts : List Step → List (List Step)
  | [] => []
  | step :: rest => (properStarts rest).map (step :: ·) ++ [[]]

/-- Steps without those at their end that stay. -/
def settle (steps : List Step) : List Step :=
  (steps.reverse.dropWhile (· = .stay)).reverse

/-- The routes to the folders that a route is written through, nearest first. -/
def enclosing (r : Route) : List Route :=
  ((properStarts (settle r.steps)).filter fun steps => steps.getLast? ≠ some .stay).map
    fun steps => ⟨steps, false⟩

end Route

end StyleSieve
