/-!
# Text and bytes

Text is its list of characters and raw input its list of bytes, so that a reader of either is a
function by recursion on a list.  Case folding is that of ASCII: `lower` touches `A` to `Z` only.
-/

namespace StyleSieve

/-- Text as its characters. -/
abbrev Text := List Char

/-- Raw bytes, of markup or of a file. -/
abbrev Bytes := List UInt8

namespace Text

/-- The text with `A` to `Z` in lower case. -/
def lower (t : Text) : Text := t.map Char.toLower

/-- Equality up to the case of ASCII letters. -/
def sameLetters (s t : Text) : Bool := lower s == lower t

/-- Order by character codes; a text comes before those that continue it. -/
def atMost : Text → Text → Bool
  | [], _ => true
  | _ :: _, [] => false
  | a :: s, b :: t => a.toNat < b.toNat || (a == b && atMost s t)

/-- A hexadecimal digit, in either case. -/
def isHexDigit (c : Char) : Bool :=
  c.isDigit || ('a' ≤ c && c ≤ 'f') || ('A' ≤ c && c ≤ 'F')

/-- The value of a hexadecimal digit; other characters count as zero. -/
def hexDigitValue (c : Char) : Nat :=
  if c.isDigit then c.toNat - '0'.toNat
  else if 'a' ≤ c && c ≤ 'f' then c.toNat - 'a'.toNat + 10
  else if 'A' ≤ c && c ≤ 'F' then c.toNat - 'A'.toNat + 10
  else 0

/-- The number that hexadecimal digits spell, the most significant first. -/
def hexValue (digits : Text) : Nat :=
  digits.foldl (fun n c => n * 16 + hexDigitValue c) 0

/-- What stands where a character cannot be told. -/
def replacement : Char := '\ufffd'

/-- The character with code `n`, or `replacement` where no character has it. -/
def charOfCode (n : Nat) : Char :=
  if n.isValidChar then Char.ofNat n else replacement

end Text

end StyleSieve
