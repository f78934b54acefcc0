import StyleSieve.Stylesheet.Basic

/-!
# References to bodies

A reference names a body by the number of its file and its own number.  References are ordered by
file, then by body.  `collect` lists references in that order, each once.
-/

namespace StyleSieve

/-- A body of a file.  Both numbers are words of 32 bits. -/
structure BodyRef where
  file : Nat
  body : BodyId
  deriving DecidableEq, Repr

namespace BodyRef

/-- By file, then by body. -/
def precedes (a b : BodyRef) : Bool := a.file < b.file || (a.file == b.file && a.body < b.body)

/-- Puts a reference at its place among increasing ones, unless it is there. -/
def insert (r : BodyRef) : List BodyRef → List BodyRef
  | [] => [r]
  | first :: rest =>
    if r.precedes first then r :: first :: rest
    else if r = first then first :: rest
    else first :: insert r rest

/-- Some references in increasing order, each once. -/
def collect (refs : List BodyRef) : List BodyRef := refs.foldr insert []

end BodyRef

end StyleSieve
