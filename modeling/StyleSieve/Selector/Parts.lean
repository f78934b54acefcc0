import StyleSieve.Selector.Break
import StyleSieve.Selector.Compound

/-!
# The two parts of a selector

A selector is the pieces of its leading compound and what follows, a combinator or a pseudo-class
with all after it.  Only the pieces are ever matched.
-/

namespace StyleSieve.Selector

/-- A selector cut where its leading compound ends. -/
structure Parts where
  pieces : List Piece
  /-- What follows the compound, without blank characters at either end. -/
  remainder : Text
  deriving DecidableEq, Repr

/-- Cuts a selector. -/
def parts (selector : Text) : Parts :=
  let split := breakLength selector
  { pieces := pieces (selector.take split)
    remainder := Text.trim (selector.drop split) }

end StyleSieve.Selector
