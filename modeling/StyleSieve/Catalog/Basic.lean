import StyleSieve.Catalog.BodyRef
import StyleSieve.Usage

/-!
# Catalogs

A catalog holds the stylesheets of a project, numbered from zero, and an index from keys to the
bodies written for branches with that key.  `query` and `select` read the index; they answer by
file, then by body, each body once.  Global branches are in no index: every page needs them.

Numbers are words of 32 bits: there are taken to be no more files than these can tell apart, as
`ofSources` makes sure.
-/

namespace StyleSieve

/-- A stylesheet and the name of its file. -/
structure StyleFile where
  name : Text
  sheet : Stylesheet
  deriving DecidableEq, Repr

namespace Catalog

/-- The bodies written for branches with a key, for each key. -/
abbrev Index := List (Text × List BodyRef)

/-- Adds a body under a key. -/
def Index.add (key : Text) (ref : BodyRef) : Index → Index
  | [] => [(key, [ref])]
  | (k, refs) :: rest =>
    if k = key then (k, ref :: refs) :: rest else (k, refs) :: Index.add key ref rest

/-- The bodies under a key. -/
def Index.refs (key : Text) (index : Index) : List BodyRef := (index.lookup key).getD []

/-- A branch of a file, as the index sees it: the body it is written for, and its keys. -/
structure Entry where
  ref : BodyRef
  keys : List Text

/-- The entries of a file. -/
def entriesOf (file : Nat) (sheet : Stylesheet) : List Entry :=
  (sheet.branches.filter fun branch => !branch.isGlobal).map fun branch =>
    { ref := ⟨file, branch.body⟩, keys := Piece.keys branch.parts.pieces }

/-- The entries of some files, in order. -/
def entries (files : List StyleFile) : List Entry :=
  files.zipIdx.flatMap fun (file, number) => entriesOf number file.sheet

end Catalog

/-- The stylesheets of a project with their index. -/
structure Catalog where
  files : List StyleFile := []
  /-- The bodies of branches with keys. -/
  index : Catalog.Index := []
  /-- The bodies of branches without keys. -/
  unkeyed : List BodyRef := []
  deriving DecidableEq, Repr, Inhabited

namespace Catalog

/-- The catalog of some files, numbered in order. -/
def ofFiles (files : List StyleFile) : Catalog :=
  let all := entries files
  { files
    index := all.foldl (fun index e => e.keys.foldl (fun index k => index.add k e.ref) index) []
    unkeyed := (all.filter (·.keys.isEmpty)).map (·.ref) }

/-- The file with a number. -/
def file? (c : Catalog) (file : Nat) : Option StyleFile := c.files[file]?

/-- The body that a reference names. -/
def body? (c : Catalog) (ref : BodyRef) : Option Stylesheet.Body :=
  (c.file? ref.file).bind (·.sheet.body? ref.body)

/-- The number of branches, global ones included. -/
def branchCount (c : Catalog) : Nat :=
  c.files.foldl (fun count file => count + file.sheet.branches.length) 0

/-- Whether no file holds anything. -/
def isEmpty (c : Catalog) : Bool := c.files.all (·.sheet.isEmpty)

/-- The bodies of branches with a key.  What follows the leading compound of a selector is never
asked. -/
def query (c : Catalog) (key : Text) : List BodyRef := BodyRef.collect (c.index.refs key)

/-- The bodies that a page may need: those of branches with a key that it uses, and those of
branches without keys. -/
def select (c : Catalog) (usage : Usage) : List BodyRef :=
  BodyRef.collect (usage.keys.flatMap (fun key => c.index.refs key) ++ c.unkeyed)

end Catalog

end StyleSieve
