import StyleSieve.Text.Basic

/-!
# Bytes of markup

What a byte can mean in markup.  Bytes outside ASCII, and all that have no meaning of their own, are
`other`.
-/

namespace StyleSieve.Markup

/-- The meaning of a byte. -/
inductive Mark where
  /-- `<`. -/
  | less
  /-- `>`. -/
  | greater
  | slash
  /-- `!`. -/
  | bang
  /-- `?`. -/
  | question
  /-- `-`. -/
  | dash
  /-- `=`. -/
  | equals
  /-- Either quote. -/
  | quote
  /-- Space, tab, line feed, form feed or carriage return. -/
  | space
  /-- A letter of ASCII. -/
  | letter
  | other
  deriving DecidableEq, Repr

namespace Mark

/-- The meaning of a byte. -/
def of (b : UInt8) : Mark :=
  if b = 0x3C then less
  else if b = 0x3E then greater
  else if b = 0x2F then slash
  else if b = 0x21 then bang
  else if b = 0x3F then question
  else if b = 0x2D then dash
  else if b = 0x3D then equals
  else if b = 0x22 || b = 0x27 then quote
  else if b = 0x20 || b = 0x09 || b = 0x0A || b = 0x0C || b = 0x0D then space
  else if (0x41 ≤ b && b ≤ 0x5A) || (0x61 ≤ b && b ≤ 0x7A) then letter
  else other

/-- Whether a byte can stand right after the name of a tag: a space, `/` or `>`. -/
def endsName : Mark → Bool
  | space | slash | greater => true
  | _ => false

end Mark

/-- The byte with `A` to `Z` in lower case. -/
def lowerByte (b : UInt8) : UInt8 := if 0x41 ≤ b && b ≤ 0x5A then b + 0x20 else b

end StyleSieve.Markup
