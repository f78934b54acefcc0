import StyleSieve.Text.Basic

/-!
# Places in a stylesheet

A place is a line and a column, both counted from one.  A line ends at a line feed, a form feed, a
carriage return, or a carriage return with its line feed.  Columns count the units of UTF-16, so a
character above `FFFF` takes two.
-/

namespace StyleSieve.Css

/-- Ends a line. -/
def isNewline (c : Char) : Bool := c == '\n' || c == '\r' || c == '\x0c'

/-- Separates tokens: a line end, a space or a tab. -/
def isSpace (c : Char) : Bool := isNewline c || c == ' ' || c == '\t'

/-- A line and a column. -/
structure Place where
  line : Nat := 1
  column : Nat := 1
  deriving DecidableEq, Repr, Inhabited

namespace Place

/-- The number of UTF-16 units of a character. -/
def units (c : Char) : Nat := if c.toNat < 0x10000 then 1 else 2

/-- The place after some text. -/
def after (p : Place) : Text → Place
  | [] => p
  | '\r' :: '\n' :: rest => after { line := p.line + 1, column := 1 } rest
  | c :: rest =>
    if isNewline c then after { line := p.line + 1, column := 1 } rest
    else after { p with column := p.column + units c } rest

end Place

end StyleSieve.Css
