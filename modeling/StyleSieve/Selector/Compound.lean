import StyleSieve.Selector.Name
import StyleSieve.Selector.Piece

/-!
# Reading the pieces of a compound selector

`pieces` reads a text from left to right.  At each place `pieceAt` says which piece stands there,
if any, and how many more characters it takes; a pseudo-class is passed over with its arguments.
-/

namespace StyleSieve.Selector

/-- How many characters to the `]` that closes an attribute selector, or to the end.  A `]`
between quotes closes nothing. -/
def closingExtent : (quote : Option Char) → Text → Nat
  | _, [] => 0
  | some q, c :: rest => closingExtent (if c = q then none else some q) rest + 1
  | none, c :: rest =>
    if c = '\x22' || c = '\x27' then closingExtent (some c) rest + 1
    else if c = ']' then 1
    else closingExtent none rest + 1

/-- How many characters to the `)` that closes the outermost of `depth` parentheses, or to the
end. -/
def argumentExtent : (depth : Nat) → Text → Nat
  | _, [] => 0
  | depth, c :: rest =>
    if c = '(' then argumentExtent (depth + 1) rest + 1
    else if c = ')' then if depth ≤ 1 then 1 else argumentExtent (depth - 1) rest + 1
    else argumentExtent depth rest + 1

/-- How many characters after its first `:` a pseudo-class or pseudo-element takes. -/
def pseudoExtent (t : Text) : Nat :=
  let colons := (t.takeWhile (· == ':')).length
  let name := Name.extent (t.drop colons)
  let arguments := t.drop (colons + name)
  colons + name + if arguments.head? = some '(' then argumentExtent 0 arguments else 0

/-- A piece with a name, unless the name is empty. -/
def named (piece : Text → Piece) (name : Text) : Option Piece :=
  if name.isEmpty then none else some (piece name)

/-- The piece that starts with `c`, and how many characters of the text after `c` it takes. -/
def pieceAt (c : Char) (rest : Text) : Option Piece × Nat :=
  if c = '.' then (named .className (Name.read rest), Name.extent rest)
  else if c = '#' then (named .id (Name.read rest), Name.extent rest)
  else if c = '[' then
    let blanks := (rest.takeWhile Text.isBlank).length
    let inside := rest.drop blanks
    let name := Name.extent inside
    (named .attr (Text.lower (Name.read inside)),
      blanks + name + closingExtent none (inside.drop name))
  else if c = '*' then (some .universal, 0)
  else if c = ':' then (none, pseudoExtent rest)
  else if Name.isStart c then
    (named .element (Text.lower (Name.read (c :: rest))), Name.extent (c :: rest) - 1)
  else (none, 0)

/-- The pieces of a text from its character `skip` on. -/
def piecesFrom : (skip : Nat) → Text → List Piece
  | _, [] => []
  | skip + 1, _ :: rest => piecesFrom skip rest
  | 0, c :: rest => (pieceAt c rest).1.toList ++ piecesFrom (pieceAt c rest).2 rest

/-- The pieces of a compound selector, in order. -/
def pieces (compound : Text) : List Piece := piecesFrom 0 compound

end StyleSieve.Selector
