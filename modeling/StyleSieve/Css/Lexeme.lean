import StyleSieve.Css.Token

/-!
# Lexemes

A lexeme is a token with its text and the place where it starts.  The texts of the lexemes of a
stylesheet make up the stylesheet.
-/

namespace StyleSieve.Css

/-- A token as it stands in a stylesheet. -/
structure Lexeme where
  token : Token
  text : Text
  start : Place
  deriving DecidableEq, Repr

namespace Lexeme

/-- The lexemes of a text that starts at `place`, but for its first `skip` characters. -/
def ofTextFrom : (skip : Nat) → (place : Place) → Text → List Lexeme
  | _, _, [] => []
  | skip + 1, place, _ :: rest => ofTextFrom skip place rest
  | 0, place, c :: rest =>
    let (token, extent) := Token.tokenAt c rest
    let text := c :: rest.take extent
    { token, text, start := place } :: ofTextFrom extent (place.after text) rest

/-- The lexemes of a stylesheet. -/
def ofText (t : Text) : List Lexeme := ofTextFrom 0 {} t

end Lexeme

end StyleSieve.Css
