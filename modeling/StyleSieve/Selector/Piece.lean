import StyleSieve.Text.Basic

/-!
# Pieces of a compound selector

A piece is one simple selector.  Its key is what markup must name for the piece to match: a tag, a
class, an id or an attribute, each written the way a selector writes it.  A universal piece has no
key.  Markup and selectors meet in these keys.
-/

namespace StyleSieve

namespace Key

/-- The key of a tag: its name in lower case. -/
def tag (name : Text) : Text := Text.lower name

/-- The key of a class: `.name`. -/
def className (name : Text) : Text := '.' :: name

/-- The key of an id: `#name`. -/
def id (name : Text) : Text := '#' :: name

/-- The key of an attribute: `[name]`, the name in lower case. -/
def attr (name : Text) : Text := '[' :: (Text.lower name ++ [']'])

end Key

/-- A simple selector, escapes resolved.  Of an attribute selector only the name is kept. -/
inductive Piece where
  /-- `*`. -/
  | universal
  /-- A type selector. -/
  | element (name : Text)
  /-- `.name`. -/
  | className (name : Text)
  /-- `#name`. -/
  | id (name : Text)
  /-- `[name]`, with or without a value. -/
  | attr (name : Text)
  deriving DecidableEq, Repr

namespace Piece

/-- What markup must name for the piece to match.  A type selector is a key as it stands. -/
def key : Piece → Option Text
  | universal => none
  | element name => some name
  | className name => some (Key.className name)
  | id name => some (Key.id name)
  | attr name => some (Key.attr name)

/-- The keys of some pieces, in order. -/
def keys (pieces : List Piece) : List Text := pieces.filterMap key

end Piece

end StyleSieve
