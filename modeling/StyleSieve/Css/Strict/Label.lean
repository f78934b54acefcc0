import StyleSieve.Css.Lexeme

/-!
# Labels of tokens

How a report names a token that should not stand where it stands: by its kind, and by what it holds.
Text is quoted with escapes for quotes, backslashes and characters that cannot be seen.  Numbers
show their value in decimal, with a point or an exponent, and as an integer if they are written as
one.
-/

namespace StyleSieve.Css

namespace Label

/-- The first and last codes of the characters that cannot be seen, blanks apart, as far as they
occur in text: controls, marks that combine with the character before them, and formats. -/
def unseenRanges : List (Nat × Nat) :=
  [(0x00, 0x1F), (0x7F, 0x9F), (0xAD, 0xAD), (0x300, 0x36F), (0x483, 0x489), (0x591, 0x5BD),
   (0x600, 0x605), (0x610, 0x61A), (0x64B, 0x65F), (0x200B, 0x200F), (0x2028, 0x202F),
   (0x2060, 0x206F), (0x20D0, 0x20F0), (0xE000, 0xF8FF), (0xFE00, 0xFE0F), (0xFE20, 0xFE2F),
   (0xFEFF, 0xFEFF), (0xFFF0, 0xFFFB), (0xFFFE, 0xFFFF), (0xE0000, 0x10FFFF)]

/-- A character that shows. -/
def isSeen (c : Char) : Bool :=
  c == ' ' ||
    !(Char.isWhitespace c || [0xA0, 0x1680, 0x205F, 0x3000].contains c.toNat ||
      (0x2000 ≤ c.toNat && c.toNat ≤ 0x200A) ||
      unseenRanges.any fun (first, last) => first ≤ c.toNat && c.toNat ≤ last)

/-- A character within quotes of the kind `quote`. -/
def quotedChar (quote c : Char) : Text :=
  if c = '\x00' then ['\\', '0']
  else if c = '\t' then ['\\', 't']
  else if c = '\r' then ['\\', 'r']
  else if c = '\n' then ['\\', 'n']
  else if c = '\\' || c = quote then ['\\', c]
  else if isSeen c then [c]
  else "\\u\x7b".toList ++ Nat.toDigits 16 c.toNat ++ ['\x7d']

/-- A text in double quotes. -/
def quoted (t : Text) : Text := '\x22' :: (t.flatMap (quotedChar '\x22') ++ ['\x22'])

/-- A character in single quotes. -/
def quotedDelim (c : Char) : Text := '\x27' :: (quotedChar '\x27' c ++ ['\x27'])

/-- A field of a label. -/
def field (name : String) (value : Text) : Text := name.toList ++ ": ".toList ++ value

/-- A label with fields. -/
def record (name : String) (fields : List Text) : Text :=
  name.toList ++ " \x7b ".toList ++ (", ".toList.intercalate fields) ++ " \x7d".toList

/-- A number as it is written: digits that count, with the power of ten of the last of them. -/
structure Decimal where
  negative : Bool
  digits : Text
  power : Int
  deriving DecidableEq, Repr

namespace Decimal

/-- The decimal without zeros at either end. -/
def trim (d : Decimal) : Decimal :=
  let tail := (d.digits.reverse.takeWhile (· = '0')).length
  let digits := (d.digits.take (d.digits.length - tail)).dropWhile (· = '0')
  { d with digits, power := if digits.isEmpty then 0 else d.power + tail }

/-- A decimal in positional form, if it is trimmed. -/
def positional (d : Decimal) : Text :=
  if d.power < 0 then
    let places := d.power.natAbs
    let padded := List.replicate (places + 1 - d.digits.length) '0' ++ d.digits
    padded.take (padded.length - places) ++ '.' :: padded.drop (padded.length - places)
  else
    (if d.digits.isEmpty then ['0'] else d.digits) ++ List.replicate d.power.natAbs '0' ++
      ['.', '0']

/-- A decimal with an exponent, if it is trimmed and not zero. -/
def scientific (d : Decimal) : Text :=
  let fraction := d.digits.drop 1
  d.digits.take 1 ++ (if fraction.isEmpty then [] else '.' :: fraction) ++
    'e' :: (toString (d.power + fraction.length)).toList

/-- A decimal as text: positional from `0.0001` up to sixteen digits, and zero too. -/
def toText (d : Decimal) : Text :=
  let d := d.trim
  let magnitude := d.power + d.digits.length
  (if d.negative then ['-'] else []) ++
    if d.digits.isEmpty || (-4 < magnitude && magnitude ≤ 16) then d.positional else d.scientific

end Decimal

/-- What a number token says. -/
structure Numeral where
  signed : Bool
  value : Decimal
  /-- The number is written without a point or an exponent. -/
  isInteger : Bool
  /-- What stands behind the number: nothing, a percent sign or a name. -/
  unit : Text
  deriving DecidableEq, Repr

/-- The value of decimal digits. -/
def digitsValue (digits : Text) : Nat := digits.foldl (fun n c => n * 10 + Text.hexDigitValue c) 0

/-- The number that an exponent writes. -/
def exponentValue (t : Text) : Int :=
  let rest := t.drop 1
  let size : Int := digitsValue (rest.drop (Token.signExtent rest))
  if rest.head? = some '-' then -size else size

/-- What the text of a number token says. -/
def Numeral.ofText (t : Text) : Numeral :=
  let unsigned := t.drop (Token.signExtent t)
  let whole := unsigned.take (Token.digitsExtent unsigned)
  let behindWhole := unsigned.drop whole.length
  let fraction := behindWhole.take (Token.fractionExtent behindWhole)
  let behindFraction := behindWhole.drop fraction.length
  let exponent := behindFraction.take (Token.exponentExtent behindFraction)
  { signed := Token.signExtent t ≠ 0
    value :=
      { negative := t.head? = some '-'
        digits := whole ++ fraction.drop 1
        power := exponentValue exponent - (fraction.drop 1).length }
    isInteger := fraction.isEmpty && exponent.isEmpty
    unit := behindFraction.drop exponent.length }

/-- The integer that a numeral shows, kept within thirty-two bits. -/
def Numeral.integer (n : Numeral) : Int :=
  let size : Int := digitsValue n.value.digits
  if n.value.negative then max (-size) (-2147483648) else min size 2147483647

/-- The label of a number, a percentage or a dimension. -/
def ofNumeral (n : Numeral) : Text :=
  let sign := field "has_sign" (toString n.signed).toList
  let integer :=
    field "int_value"
      (if n.isInteger then "Some(".toList ++ (toString n.integer).toList ++ [')']
        else "None".toList)
  if n.unit = ['%'] then
    let hundredth := { n.value with power := n.value.power - 2 }
    record "Percentage" [sign, field "unit_value" hundredth.toText, integer]
  else
    let value := field "value" n.value.toText
    if n.unit.isEmpty then record "Number" [sign, value, integer]
    else
      record "Dimension" [sign, value, integer, field "unit" (quoted (Name.value n.unit))]

/-- A label with a text. -/
def holding (name : String) (t : Text) : Text := name.toList ++ '(' :: (quoted t ++ [')'])

end Label

namespace Bracket

/-- What an opening bracket begins. -/
def blockLabel : Bracket → String
  | .curly => "CurlyBracketBlock"
  | .square => "SquareBracketBlock"
  | .round => "ParenthesisBlock"

/-- A closing bracket. -/
def closingLabel : Bracket → String
  | .curly => "CloseCurlyBracket"
  | .square => "CloseSquareBracket"
  | .round => "CloseParenthesis"

end Bracket

namespace Lexeme

/-- The name of a function, if the lexeme opens one. -/
def function? (l : Lexeme) : Option Text :=
  if l.token = .opening .round && l.text ≠ ['('] then some (Name.value l.text.dropLast) else none

/-- The text of a string without its quotes. -/
def stringText (l : Lexeme) : Text :=
  let body := l.text.drop 1
  Name.value (if body.getLast? = l.text.head? then body.dropLast else body)

/-- The address of a URL without quotes. -/
def urlText (l : Lexeme) : Text :=
  let body := (l.text.drop 4).dropWhile isSpace
  ((if body.getLast? = some ')' then body.dropLast else body).reverse.dropWhile isSpace).reverse

/-- How a report names a token. -/
def label (l : Lexeme) : Text :=
  match l.token with
  | .space => Label.holding "WhiteSpace" l.text
  | .comment => Label.holding "Comment" ((l.text.drop 2).take (l.text.length - 4))
  | .markupOpen => "CDO".toList
  | .markupClose => "CDC".toList
  | .ident name => Label.holding "Ident" name
  | .atKeyword name => Label.holding "AtKeyword" name
  | .hash isId => Label.holding (if isId then "IDHash" else "Hash") (Name.value (l.text.drop 1))
  | .string => Label.holding "String" l.stringText
  | .brokenString => Label.holding "BadString" (Name.value (l.text.drop 1))
  | .url => Label.holding "UnquotedUrl" l.urlText
  | .brokenUrl => Label.holding "BadUrl" (l.text.drop 4)
  | .number => Label.ofNumeral (Label.Numeral.ofText l.text)
  | .colon => "Colon".toList
  | .semicolon => "Semicolon".toList
  | .comma => "Comma".toList
  | .opening bracket =>
    match l.function? with
    | some name => Label.holding "Function" name
    | none => bracket.blockLabel.toList
  | .closing bracket => bracket.closingLabel.toList
  | .matcher c =>
    (if c = '~' then "IncludeMatch" else if c = '|' then "DashMatch"
      else if c = '^' then "PrefixMatch" else if c = '$' then "SuffixMatch"
      else "SubstringMatch").toList
  | .delim c => "Delim(".toList ++ Label.quotedDelim c ++ [')']

end Lexeme

end StyleSieve.Css
