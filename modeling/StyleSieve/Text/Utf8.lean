import StyleSieve.Text.Basic

/-!
# UTF-8

`encode` writes a text as bytes.  Reading goes unit by unit: a unit is the bytes of one character,
or the longest run of bytes that starts a character and cannot be continued by the byte that
follows it.  `decode?` refuses a text with a unit of the second kind, `decodeLossy` puts
`Text.replacement` in its place.
-/

namespace StyleSieve.Utf8

/-- The bytes of a text. -/
def encode (t : Text) : Bytes := t.flatMap String.utf8EncodeChar

/-- How many bytes follow the first byte of a character; `none` for a byte that starts none. -/
def tailCount (first : UInt8) : Option Nat :=
  if first ≤ 0x7F then some 0
  else if 0xC2 ≤ first && first ≤ 0xDF then some 1
  else if 0xE0 ≤ first && first ≤ 0xEF then some 2
  else if 0xF0 ≤ first && first ≤ 0xF4 then some 3
  else none

/-- A byte that can follow the first two of a character. -/
def isTail (b : UInt8) : Bool := 0x80 ≤ b && b ≤ 0xBF

/-- Whether `second` can follow `first`.  The narrower ranges keep out spellings that are longer
than they need to be, surrogates, and codes above `10FFFF`. -/
def follows (first second : UInt8) : Bool :=
  if first = 0xE0 then 0xA0 ≤ second && second ≤ 0xBF
  else if first = 0xED then 0x80 ≤ second && second ≤ 0x9F
  else if first = 0xF0 then 0x90 ≤ second && second ≤ 0xBF
  else if first = 0xF4 then 0x80 ≤ second && second ≤ 0x8F
  else isTail second

/-- The bytes of `rest` that belong to a unit with first byte `first`, at most `count` of them. -/
def tails (first : UInt8) (count : Nat) : Bytes → Bytes
  | [] => []
  | b :: rest =>
    if count ≠ 0 && follows first b then b :: (rest.take (count - 1)).takeWhile isTail else []

/-- The code that a first byte and all its tails spell. -/
def code (first : UInt8) (tails : Bytes) : Nat :=
  let lead := if tails.isEmpty then first.toNat else first.toNat % (64 >>> tails.length)
  tails.foldl (fun n b => n * 64 + b.toNat % 64) lead

/-- The unit that starts with `first`: its character, if it has one, and how many bytes of `rest`
belong to it. -/
def unit (first : UInt8) (rest : Bytes) : Option Char × Nat :=
  match tailCount first with
  | none => (none, 0)
  | some count =>
    let ts := tails first count rest
    (if ts.length = count then some (Char.ofNat (code first ts)) else none, ts.length)

/-- The units of a byte string from its byte `skip` on. -/
def unitsFrom : (skip : Nat) → Bytes → List (Option Char)
  | _, [] => []
  | skip + 1, _ :: rest => unitsFrom skip rest
  | 0, b :: rest => (unit b rest).1 :: unitsFrom (unit b rest).2 rest

/-- The units of a byte string, `none` for one that is no character. -/
def units (bytes : Bytes) : List (Option Char) := unitsFrom 0 bytes

/-- The text that the bytes spell, if every unit is a character. -/
def decode? (bytes : Bytes) : Option Text := (units bytes).mapM id

/-- The text that the bytes spell, with `Text.replacement` for every unit that is no character. -/
def decodeLossy (bytes : Bytes) : Text := (units bytes).map (·.getD Text.replacement)

end StyleSieve.Utf8
