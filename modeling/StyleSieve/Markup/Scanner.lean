import StyleSieve.Markup.Boundary
import StyleSieve.Selector.Piece
import StyleSieve.Text.Blank
import StyleSieve.Text.Utf8

/-!
# Scanning markup

A scanner reads markup byte by byte and reports the keys that it names: the name of every start tag
and of every attribute, every word of a `class` and every `id`.  It also reports where a `style` tag
opens.  Comments, declarations, end tags and the content of scripts name nothing.

A state holds only the name or word that is being read, and of that no more than `maxName` bytes.
-/

namespace StyleSieve.Markup

/-- The number of bytes kept of a name or a word. -/
def maxName : Nat := 4096

/-- A name or word with one more byte, unless it is full. -/
def pushByte (name : Bytes) (b : UInt8) : Bytes :=
  if name.length < maxName then name ++ [b] else name

/-- The bytes of `script`. -/
def scriptName : Bytes := Utf8.encode "script".toList

/-- The bytes of `style`. -/
def styleName : Bytes := Utf8.encode "style".toList

/-- What the end of a start tag leads to. -/
inductive TagKind where
  | style
  | script
  | other
  deriving DecidableEq, Repr

/-- The kind of a tag, by its name in lower case. -/
def TagKind.of (name : Bytes) : TagKind :=
  if name = styleName then .style else if name = scriptName then .script else .other

/-- What the value of an attribute names. -/
inductive AttrKind where
  | classes
  | id
  | other
  deriving DecidableEq, Repr

/-- The kind of an attribute, by its name in lower case. -/
def AttrKind.of (name : Bytes) : AttrKind :=
  if name = Utf8.encode "class".toList then .classes
  else if name = Utf8.encode "id".toList then .id
  else .other

/-- What a byte brought to light. -/
structure Sighting where
  /-- A key that the markup has now named in full. -/
  key : Option Text := none
  /-- The byte was the `>` of a start tag `style`. -/
  opensStyle : Bool := false
  deriving DecidableEq, Repr

/-- Where a scanner is in the markup. -/
inductive Scanner where
  /-- Between tags. -/
  | text
  /-- After `<`. -/
  | tagOpen
  /-- In an end tag. -/
  | endTag
  | tagName (name : Bytes)
  /-- In a start tag, where an attribute may start. -/
  | beforeAttr (tag : TagKind)
  | attrName (tag : TagKind) (name : Bytes)
  /-- After the name of an attribute and a space. -/
  | afterAttr (tag : TagKind) (attr : AttrKind)
  /-- After the `=` of an attribute. -/
  | beforeValue (tag : TagKind) (attr : AttrKind)
  /-- In a value that ends at `quote`, in the given word. -/
  | quoted (tag : TagKind) (attr : AttrKind) (quote : UInt8) (word : Bytes)
  /-- In a value without quotes, in the given word. -/
  | unquoted (tag : TagKind) (attr : AttrKind) (word : Bytes)
  /-- After `<!`. -/
  | declaration
  /-- After `<!-`. -/
  | declarationDash
  /-- After `<!--`, or after `<!---`. -/
  | commentStart (dash : Bool)
  /-- In a comment, after some dashes. -/
  | comment (dashes : Nat)
  /-- In a declaration or a processing instruction. -/
  | bogus
  /-- In a script. -/
  | script (matcher : Matcher)
  deriving DecidableEq, Repr

namespace Scanner

/-- Nothing is being read. -/
def isIdle (s : Scanner) : Bool := s == .text

/-- The scanner after the `>` of a start tag, which also completed `key`. -/
def closeTag (tag : TagKind) (key : Option Text) : Scanner × Sighting :=
  match tag with
  | .style => (.text, { key, opensStyle := true })
  | .script => (.script .idle, { key })
  | .other => (.text, { key })

/-- The key that a word of a value completes. -/
def wordKey (attr : AttrKind) (word : Bytes) : Option Text :=
  match attr with
  | .classes => if word.isEmpty then none else some (Key.className (Utf8.decodeLossy word))
  | .id =>
    let id := Text.trim (Utf8.decodeLossy word)
    if id.isEmpty then none else some (Key.id id)
  | .other => none

/-- A byte of a value: the word after it, and the key that it completes. -/
def valueByte (attr : AttrKind) (word : Bytes) (b : UInt8) : Bytes × Option Text :=
  match attr with
  | .classes => if Mark.of b = .space then ([], wordKey attr word) else (pushByte word b, none)
  | .id => (pushByte word b, none)
  | .other => (word, none)

/-- The key of the tag with a name. -/
def tagKey (name : Bytes) : Option Text := some (Key.tag (Utf8.decodeLossy name))

/-- The key of the attribute with a name. -/
def attrKey (name : Bytes) : Option Text := some (Key.attr (Utf8.decodeLossy name))

/-- Reads a byte. -/
def step (s : Scanner) (b : UInt8) : Scanner × Sighting :=
  match s with
  | .text => (if Mark.of b = .less then .tagOpen else .text, {})
  | .tagOpen =>
    match Mark.of b with
    | .slash => (.endTag, {})
    | .bang => (.declaration, {})
    | .question => (.bogus, {})
    | .less => (.tagOpen, {})
    | .letter => (.tagName [lowerByte b], {})
    | _ => (.text, {})
  | .endTag => (if Mark.of b = .greater then .text else .endTag, {})
  | .tagName name =>
    match Mark.of b with
    | .greater => closeTag (.of name) (tagKey name)
    | .slash | .space => (.beforeAttr (.of name), { key := tagKey name })
    | _ => (.tagName (pushByte name (lowerByte b)), {})
  | .beforeAttr tag =>
    match Mark.of b with
    | .greater => closeTag tag none
    | .slash | .space => (.beforeAttr tag, {})
    | _ => (.attrName tag [lowerByte b], {})
  | .attrName tag name =>
    match Mark.of b with
    | .greater => closeTag tag (attrKey name)
    | .equals => (.beforeValue tag (.of name), { key := attrKey name })
    | .slash => (.beforeAttr tag, { key := attrKey name })
    | .space => (.afterAttr tag (.of name), { key := attrKey name })
    | _ => (.attrName tag (pushByte name (lowerByte b)), {})
  | .afterAttr tag attr =>
    match Mark.of b with
    | .greater => closeTag tag none
    | .equals => (.beforeValue tag attr, {})
    | .slash => (.beforeAttr tag, {})
    | .space => (.afterAttr tag attr, {})
    | _ => (.attrName tag [lowerByte b], {})
  | .beforeValue tag attr =>
    match Mark.of b with
    | .quote => (.quoted tag attr b [], {})
    | .greater => closeTag tag none
    | .space => (.beforeValue tag attr, {})
    | _ => (.unquoted tag attr (valueByte attr [] b).1, {})
  | .quoted tag attr quote word =>
    if b = quote then (.beforeAttr tag, { key := wordKey attr word })
    else
      let (word, key) := valueByte attr word b
      (.quoted tag attr quote word, { key })
  | .unquoted tag attr word =>
    match Mark.of b with
    | .greater => closeTag tag (wordKey attr word)
    | .space => (.beforeAttr tag, { key := wordKey attr word })
    | _ => (.unquoted tag attr (valueByte attr word b).1, {})
  | .declaration =>
    match Mark.of b with
    | .dash => (.declarationDash, {})
    | .greater => (.text, {})
    | _ => (.bogus, {})
  | .declarationDash =>
    match Mark.of b with
    | .dash => (.commentStart false, {})
    | .greater => (.text, {})
    | _ => (.bogus, {})
  | .commentStart dash =>
    match Mark.of b with
    | .greater => (.text, {})
    | .dash => (if dash then .comment 2 else .commentStart true, {})
    | _ => (.comment 0, {})
  | .comment dashes =>
    match Mark.of b with
    | .dash => (.comment (dashes + 1), {})
    | .greater => (if 2 ≤ dashes then .text else .comment 0, {})
    | _ => (.comment 0, {})
  | .bogus => (if Mark.of b = .greater then .text else .bogus, {})
  | .script matcher =>
    match matcher.step scriptName b with
    | (_, .found .closing) => (if Mark.of b = .greater then .text else .endTag, {})
    | (next, _) => (.script next, {})

/-- Reads some bytes: the scanner after them and the sighting of each. -/
def run : Scanner → Bytes → Scanner × List Sighting
  | s, [] => (s, [])
  | s, b :: bytes =>
    let (next, sighting) := s.step b
    let (last, sightings) := run next bytes
    (last, sighting :: sightings)

end Scanner

end StyleSieve.Markup
