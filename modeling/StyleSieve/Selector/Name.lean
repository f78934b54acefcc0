import StyleSieve.Text.Blank

/-!
# Names in a selector

A name is a run of name characters and escapes.  `extent` says how many characters of a text the
name at its start takes, `value` resolves the escapes of a name.  An escape is a backslash with up
to six hexadecimal digits and one blank character, or with any single character.
-/

namespace StyleSieve.Selector.Name

/-- A character that stands for itself in a name. -/
def isPlain (c : Char) : Bool := c.isAlphanum || c == '_' || c == '-' || 0x80 ≤ c.toNat

/-- A character that a type selector can start with. -/
def isStart (c : Char) : Bool := (isPlain c && !c.isDigit) || c == '\\'

/-- The hexadecimal digits that an escape takes from the text after its backslash. -/
def escapeDigits (t : Text) : Text := (t.take 6).takeWhile Text.isHexDigit

/-- How many characters after its backslash an escape takes. -/
def escapeExtent (t : Text) : Nat :=
  match escapeDigits t with
  | [] => min 1 t.length
  | digits =>
    let blank := (t.drop digits.length).head?.any Text.isBlank
    digits.length + if blank then 1 else 0

/-- What an escape stands for, given the text after its backslash; at the end of the text, for
nothing. -/
def escapeValue (t : Text) : Option Char :=
  match escapeDigits t with
  | [] => t.head?
  | digits => some (Text.charOfCode (Text.hexValue digits))

/-- How many characters the name takes, the first `skip` being part of an escape. -/
def extentFrom : (skip : Nat) → Text → Nat
  | _, [] => 0
  | skip + 1, _ :: rest => extentFrom skip rest + 1
  | 0, c :: rest =>
    if c = '\\' then extentFrom (escapeExtent rest) rest + 1
    else if isPlain c then extentFrom 0 rest + 1
    else 0

/-- How many characters the name at the start of a text takes. -/
def extent (t : Text) : Nat := extentFrom 0 t

/-- The characters that a name stands for, the first `skip` being part of an escape. -/
def valueFrom : (skip : Nat) → Text → Text
  | _, [] => []
  | skip + 1, _ :: rest => valueFrom skip rest
  | 0, c :: rest =>
    if c = '\\' then (escapeValue rest).toList ++ valueFrom (escapeExtent rest) rest
    else c :: valueFrom 0 rest

/-- The characters that a name stands for. -/
def value (t : Text) : Text := valueFrom 0 t

/-- The name at the start of a text, escapes resolved. -/
def read (t : Text) : Text := value (t.take (extent t))

end StyleSieve.Selector.Name
