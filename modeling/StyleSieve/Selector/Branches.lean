import StyleSieve.Text.Blank

/-!
# The branches of a selector list

A selector list is cut at its commas.  A comma inside brackets or quotes, or after a backslash,
cuts nothing.  `join` writes branches back as a list.
-/

namespace StyleSieve.Selector

/-- What has been read of a list, as far as it decides whether the next comma cuts. -/
structure ListCursor where
  /-- The last character was a backslash that was not itself escaped. -/
  escaped : Bool := false
  quote : Option Char := none
  /-- How many brackets are open. -/
  depth : Nat := 0
  deriving DecidableEq, Repr

namespace ListCursor

/-- Reads a character. -/
def step (s : ListCursor) (c : Char) : ListCursor :=
  if s.escaped then { s with escaped := false }
  else if c = '\\' then { s with escaped := true }
  else match s.quote with
    | some q => if c = q then { s with quote := none } else s
    | none =>
      if c = '\x22' || c = '\x27' then { s with quote := some c }
      else if c = '[' || c = '(' then { s with depth := s.depth + 1 }
      else if c = ']' || c = ')' then { s with depth := s.depth - 1 }
      else s

/-- A comma here would cut. -/
def isOpen (s : ListCursor) : Bool := !s.escaped && s.quote.isNone && s.depth == 0

/-- The text cut at its commas; always at least one part. -/
def cut : ListCursor → Text → List Text
  | _, [] => [[]]
  | s, c :: rest =>
    if s.isOpen && c = ',' then [] :: cut s rest
    else match cut (s.step c) rest with
      | part :: more => (c :: part) :: more
      | [] => [[c]]

end ListCursor

/-- The branches of a selector list, without blank characters around them.  Empty branches are
left out. -/
def branches (list : Text) : List Text :=
  ((ListCursor.cut {} list).map Text.trim).filter (fun branch => !branch.isEmpty)

/-- Branches as one selector list. -/
def join (branches : List Text) : Text := [',', ' '].intercalate branches

end StyleSieve.Selector
