/-!
# Locations

A location is a line and a column of a numbered file.  `order` compares two locations of one file;
the files themselves are never compared.
-/

namespace StyleSieve

/-- A place in a numbered file, lines and columns counted from one. -/
structure Location where
  file : Nat
  line : Nat
  column : Nat
  deriving DecidableEq, Repr, Inhabited

namespace Location

/-- The largest line and the largest column that a location can have. -/
def limit : Nat := 4294967295

/-- By line, then by column. -/
def order (a b : Location) : Ordering :=
  (compare a.line b.line).then (compare a.column b.column)

end Location

end StyleSieve
