import StyleSieve.Css.Name

/-!
# Tokens of a stylesheet

`tokenAt` says which token starts with a given character and how many of the characters after it
belong to it.  Strings, comments and URLs that are not closed reach to the end of the text, and a
string stops before a line end that is not escaped: it is broken.  A URL without quotes is one
token; one that is malformed reaches to the next `)` that is not escaped.
-/

namespace StyleSieve.Css

/-- The three kinds of bracket. -/
inductive Bracket where
  | curly
  | square
  | round
  deriving DecidableEq, Repr

/-- What a token is, as far as the grammar asks. -/
inductive Token where
  | space
  | comment
  /-- `<!--`. -/
  | markupOpen
  /-- `-->`. -/
  | markupClose
  | ident (name : Text)
  | atKeyword (name : Text)
  /-- `#name`; what stands behind the `#` may be no identifier. -/
  | hash (isId : Bool)
  | string
  /-- A string that a line end cuts off. -/
  | brokenString
  | url
  /-- A URL without quotes that is malformed. -/
  | brokenUrl
  /-- A number, with its unit if it has one. -/
  | number
  | colon
  | semicolon
  | comma
  /-- An opening bracket.  The name of a function and its parenthesis are one token. -/
  | opening (bracket : Bracket)
  | closing (bracket : Bracket)
  /-- A character and an equals sign, such as `~=`. -/
  | matcher (c : Char)
  /-- Any other character. -/
  | delim (c : Char)
  deriving DecidableEq, Repr

namespace Token

/-- How many characters to the end of a comment, after its opening. -/
def commentExtent : Text → Nat
  | [] => 0
  | '*' :: '/' :: _ => 2
  | _ :: rest => commentExtent rest + 1

/-- How many characters to the end of a string, after its opening quote and `skip` characters of an
escape. -/
def stringExtent (quote : Char) : (skip : Nat) → Text → Nat
  | _, [] => 0
  | skip + 1, _ :: rest => stringExtent quote skip rest + 1
  | 0, c :: rest =>
    if c = quote then 1
    else if isNewline c then 0
    else if c = '\\' then stringExtent quote (Name.escapeExtent rest) rest + 1
    else stringExtent quote 0 rest + 1

/-- Whether a line end cuts off a string, after its opening quote and `skip` characters of an
escape. -/
def stringBreaks (quote : Char) : (skip : Nat) → Text → Bool
  | _, [] => false
  | skip + 1, _ :: rest => stringBreaks quote skip rest
  | 0, c :: rest =>
    if c = quote then false
    else if isNewline c then true
    else if c = '\\' then stringBreaks quote (Name.escapeExtent rest) rest
    else stringBreaks quote 0 rest

/-- How many characters to the end of a malformed URL. -/
def badUrlExtent : Text → Nat
  | [] => 0
  | '\\' :: ')' :: rest => badUrlExtent rest + 2
  | '\\' :: '\\' :: rest => badUrlExtent rest + 2
  | c :: rest => if c = ')' then 1 else badUrlExtent rest + 1

/-- A control character that a URL cannot hold as it is. -/
def isControl (c : Char) : Bool :=
  let n := c.toNat
  (0x01 ≤ n && n ≤ 0x08) || n == 0x0B || (0x0E ≤ n && n ≤ 0x1F) || n == 0x7F

/-- How many characters to the end of a URL after the space that follows its address: only `)` may
stand there. -/
def urlEndExtent : Text → Nat
  | [] => 0
  | c :: rest => if c = ')' then 1 else badUrlExtent rest + 1

/-- How many characters to the end of a URL, from within its address and after `skip` characters
of an escape. -/
def urlBodyExtent : (skip : Nat) → Text → Nat
  | _, [] => 0
  | skip + 1, _ :: rest => urlBodyExtent skip rest + 1
  | 0, c :: rest =>
    if c = ')' then 1
    else if isSpace c then
      let spaces := (rest.takeWhile isSpace).length
      urlEndExtent (rest.drop spaces) + spaces + 1
    else if c = '\x22' || c = '\x27' || c = '(' || isControl c then badUrlExtent rest + 1
    else if c = '\\' then
      if Name.startsLine rest then badUrlExtent rest + 1
      else urlBodyExtent (Name.escapeExtent rest) rest + 1
    else urlBodyExtent 0 rest + 1

/-- Whether a URL is malformed, from within its address and after `skip` characters of an escape. -/
def urlBreaks : (skip : Nat) → Text → Bool
  | _, [] => false
  | skip + 1, _ :: rest => urlBreaks skip rest
  | 0, c :: rest =>
    if c = ')' then false
    else if isSpace c then (rest.dropWhile isSpace).head?.any (· ≠ ')')
    else if c = '\x22' || c = '\x27' || c = '(' || isControl c then true
    else if c = '\\' then Name.startsLine rest || urlBreaks (Name.escapeExtent rest) rest
    else urlBreaks 0 rest

/-- The token of a URL without quotes, and how many of the characters after `url(` belong to it;
`none` if a quote follows, for then `url(` opens an ordinary function. -/
def url? (t : Text) : Option (Token × Nat) :=
  let spaces := (t.takeWhile isSpace).length
  let address := t.drop spaces
  if address.head?.any (fun c => c == '\x22' || c == '\x27') then none
  else some (if urlBreaks 0 address then .brokenUrl else .url, spaces + urlBodyExtent 0 address)

/-- How many digits a text starts with. -/
def digitsExtent (t : Text) : Nat := (t.takeWhile Char.isDigit).length

/-- How many characters a fraction takes: a point and digits. -/
def fractionExtent : Text → Nat
  | '.' :: rest => if digitsExtent rest = 0 then 0 else digitsExtent rest + 1
  | _ => 0

/-- A plus or a minus. -/
def isSign (c : Char) : Bool := c == '+' || c == '-'

/-- How many characters a sign takes. -/
def signExtent (t : Text) : Nat := if t.head?.any isSign then 1 else 0

/-- How many characters an exponent takes: `e`, a sign or none, and digits. -/
def exponentExtent : Text → Nat
  | c :: rest =>
    let sign := signExtent rest
    let digits := digitsExtent (rest.drop sign)
    if (c == 'e' || c == 'E') && digits ≠ 0 then digits + sign + 1 else 0
  | [] => 0

/-- How many characters the unit of a number takes: a percent sign or a name. -/
def unitExtent (t : Text) : Nat :=
  if t.head? = some '%' then 1 else if Name.starts t then Name.extent t else 0

/-- How many characters a number takes with its unit. -/
def numberExtent (t : Text) : Nat :=
  let sign := signExtent t
  let whole := sign + digitsExtent (t.drop sign)
  let fraction := whole + fractionExtent (t.drop whole)
  let exponent := fraction + exponentExtent (t.drop fraction)
  exponent + unitExtent (t.drop exponent)

/-- The text starts with a number. -/
def startsNumber (t : Text) : Bool :=
  let unsigned := t.drop (signExtent t)
  digitsExtent unsigned ≠ 0 || fractionExtent unsigned ≠ 0

/-- The token that starts with a name, the name given as the first `length` characters of the
text: an identifier, a function, or a URL without quotes. -/
def named (t : Text) (length : Nat) : Token × Nat :=
  let name := Name.value (t.take length)
  match t.drop length with
  | '(' :: rest =>
    match if Text.sameLetters name "url".toList then url? rest else none with
    | some (token, address) => (token, length + 1 + address)
    | none => (.opening .round, length + 1)
  | _ => (.ident name, length)

/-- The token at the start of `c :: rest`, and how many characters of `rest` it takes. -/
def tokenAt (c : Char) (rest : Text) : Token × Nat :=
  let t := c :: rest
  if isSpace c then (.space, (rest.takeWhile isSpace).length)
  else if c = '\x22' || c = '\x27' then
    (if stringBreaks c 0 rest then .brokenString else .string, stringExtent c 0 rest)
  else if c = '#' then
    if rest.head?.any Name.isPlain || Name.starts rest then
      (.hash (Name.starts rest), Name.extent rest)
    else (.delim c, 0)
  else if c = '@' then
    if Name.starts rest then
      (.atKeyword (Name.value (rest.take (Name.extent rest))), Name.extent rest)
    else (.delim c, 0)
  else if c = '/' && rest.head? = some '*' then (.comment, commentExtent (rest.drop 1) + 1)
  else if c = '<' && "!--".toList.isPrefixOf rest then (.markupOpen, 3)
  else if startsNumber t then (.number, numberExtent t - 1)
  else if c = '-' && "->".toList.isPrefixOf rest then (.markupClose, 2)
  else if Name.starts t then
    let (token, length) := named t (Name.extent t)
    (token, length - 1)
  else match c with
    | ':' => (.colon, 0)
    | ';' => (.semicolon, 0)
    | ',' => (.comma, 0)
    | '{' => (.opening .curly, 0)
    | '[' => (.opening .square, 0)
    | '(' => (.opening .round, 0)
    | '}' => (.closing .curly, 0)
    | ']' => (.closing .square, 0)
    | ')' => (.closing .round, 0)
    | _ =>
      if "$*^|~".toList.contains c && rest.head? = some '=' then (.matcher c, 1) else (.delim c, 0)

end Token

end StyleSieve.Css
