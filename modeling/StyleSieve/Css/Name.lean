import StyleSieve.Css.Place

/-!
# Names in a stylesheet

A name is a run of name characters and escapes.  `extent` says how many characters the name at the
start of a text takes, `value` resolves its escapes.  An escape is a backslash with up to six
hexadecimal digits and one space, or with one other character, a line end excepted.  A null
character, a code that no character has, and the end of the text all stand for
`Text.replacement`.
-/

namespace StyleSieve.Css.Name

/-- A letter, an underscore, a null character, or any character outside ASCII. -/
def isStart (c : Char) : Bool := c.isAlpha || c == '_' || c == '\x00' || 0x80 ≤ c.toNat

/-- A character that stands for itself in a name. -/
def isPlain (c : Char) : Bool := isStart c || c.isDigit || c == '-'

/-- The text starts with a line end. -/
def startsLine (t : Text) : Bool := t.head?.any isNewline

/-- The text starts with a name that may stand where a number may stand too.  A hyphen needs a
second character for that; a backslash will do. -/
def starts : Text → Bool
  | '-' :: c :: _ => isStart c || c == '-' || c == '\\'
  | '\\' :: rest => !startsLine rest
  | c :: _ => isStart c
  | [] => false

/-- How many characters the space at the start of a text takes; a carriage return takes its line
feed along. -/
def spaceExtent : Text → Nat
  | '\r' :: '\n' :: _ => 2
  | c :: _ => if isSpace c then 1 else 0
  | [] => 0

/-- The hexadecimal digits that an escape takes from the text after its backslash. -/
def escapeDigits (t : Text) : Text := (t.take 6).takeWhile Text.isHexDigit

/-- How many characters after its backslash an escape takes.  In a string a line end may be
escaped. -/
def escapeExtent (t : Text) : Nat :=
  match escapeDigits t with
  | [] => if startsLine t then spaceExtent t else min 1 t.length
  | digits => digits.length + spaceExtent (t.drop digits.length)

/-- What an escape stands for, given the text after its backslash. -/
def escapeValue (t : Text) : Char :=
  match escapeDigits t with
  | [] =>
    match t with
    | [] => Text.replacement
    | c :: _ => if c = '\x00' then Text.replacement else c
  | digits =>
    let code := Text.hexValue digits
    if code = 0 then Text.replacement else Text.charOfCode code

/-- How many characters the name takes, the first `skip` being part of an escape. -/
def extentFrom : (skip : Nat) → Text → Nat
  | _, [] => 0
  | skip + 1, _ :: rest => extentFrom skip rest + 1
  | 0, c :: rest =>
    if c = '\\' then
      if startsLine rest then 0 else extentFrom (escapeExtent rest) rest + 1
    else if isPlain c then extentFrom 0 rest + 1
    else 0

/-- How many characters the name at the start of a text takes. -/
def extent (t : Text) : Nat := extentFrom 0 t

/-- The characters that a name stands for, the first `skip` being part of an escape. -/
def valueFrom : (skip : Nat) → Text → Text
  | _, [] => []
  | skip + 1, _ :: rest => valueFrom skip rest
  | 0, c :: rest =>
    if c = '\\' then escapeValue rest :: valueFrom (escapeExtent rest) rest
    else if c = '\x00' then Text.replacement :: valueFrom 0 rest
    else c :: valueFrom 0 rest

/-- The characters that a name stands for. -/
def value (t : Text) : Text := valueFrom 0 t

end StyleSieve.Css.Name
