import StyleSieve.Css.Lexeme

/-!
# Components

Brackets turn the lexemes of a stylesheet into a tree.  A component is a lexeme, or a block from an
opening bracket to the closing bracket of its kind with all between.  A closing bracket of another
kind is a lexeme like any other, and a block that is not closed reaches to the end.
-/

namespace StyleSieve.Css

/-- A lexeme or a block. -/
inductive Component where
  | leaf (lexeme : Lexeme)
  /-- A block, with its closing bracket if it has one.  `stop` is where its content ends. -/
  | block (opening : Lexeme) (content : List Component) (closing : Option Lexeme) (stop : Place)
  deriving Repr

namespace Component

mutual

/-- The source text of a component, with some text behind it. -/
def textOnto : Component → Text → Text
  | .leaf lexeme, behind => lexeme.text ++ behind
  | .block opening content closing _, behind =>
    opening.text ++ textOfOnto content ((closing.map Lexeme.text).getD [] ++ behind)

/-- The source text of some components, with some text behind it. -/
def textOfOnto : List Component → Text → Text
  | [], behind => behind
  | c :: rest, behind => c.textOnto (textOfOnto rest behind)

end

/-- The source text of a component. -/
def text (c : Component) : Text := c.textOnto []

/-- The source text of some components. -/
def textOf (cs : List Component) : Text := textOfOnto cs []

mutual

theorem textOnto_append (a b : Text) : (c : Component) → c.textOnto (a ++ b) = c.textOnto a ++ b
  | .leaf lexeme => by simp [textOnto]
  | .block opening content closing stop => by
    simp [textOnto, ← textOfOnto_append, List.append_assoc]

theorem textOfOnto_append (a b : Text) :
    (cs : List Component) → textOfOnto cs (a ++ b) = textOfOnto cs a ++ b
  | [] => by simp [textOfOnto]
  | c :: rest => by simp [textOfOnto, textOnto_append _ b c, textOfOnto_append a b rest]

end

theorem textOnto_eq (c : Component) (behind : Text) : c.textOnto behind = c.text ++ behind := by
  simpa [text] using textOnto_append [] behind c

theorem textOfOnto_eq (cs : List Component) (behind : Text) :
    textOfOnto cs behind = textOf cs ++ behind := by
  simpa [textOf] using textOfOnto_append [] behind cs

@[simp] theorem textOf_nil : textOf [] = [] := rfl

@[simp] theorem textOf_cons (c : Component) (rest : List Component) :
    textOf (c :: rest) = c.text ++ textOf rest := by
  rw [textOf, textOfOnto, textOnto_eq]; rfl

@[simp] theorem text_leaf (lexeme : Lexeme) : text (.leaf lexeme) = lexeme.text := by
  simp [text, textOnto]

@[simp] theorem text_block (opening : Lexeme) (content : List Component)
    (closing : Option Lexeme) (stop : Place) :
    text (.block opening content closing stop) =
      opening.text ++ (textOf content ++ (closing.map Lexeme.text).getD []) := by
  simp [text, textOnto, textOfOnto_eq]

/-- The first lexeme of a component. -/
def first : Component → Lexeme
  | .leaf lexeme => lexeme
  | .block opening _ _ _ => opening

/-- Where a component starts. -/
def start (c : Component) : Place := c.first.start

/-- The token of a component that is a lexeme. -/
def token? : Component → Option Token
  | .leaf lexeme => some lexeme.token
  | .block .. => none

/-- The component is the given token. -/
def is (token : Token) (c : Component) : Bool := c.token? == some token

/-- A space or a comment. -/
def isBlank (c : Component) : Bool := c.is .space || c.is .comment

/-- A block in curly brackets. -/
def isCurly : Component → Bool
  | .block opening _ _ _ => opening.token == .opening .curly
  | .leaf _ => false

/-- Ends a declaration. -/
def isSemicolon (c : Component) : Bool := c.is .semicolon

/-- Ends the prelude of an at-rule: a semicolon or a block in curly brackets. -/
def endsPrelude (c : Component) : Bool := c.isSemicolon || c.isCurly

/-- The components from the first that is not blank. -/
def skipBlank (cs : List Component) : List Component := cs.dropWhile isBlank

/-- Where a list of components starts, given where it would start if it were empty. -/
def startOf (cs : List Component) (stop : Place) : Place := (cs.head?.map start).getD stop

/-- A block whose content is being read, and what came before it at its own level, latest
first. -/
structure Pending where
  opening : Lexeme
  before : List Component

/-- The components read so far: those of the innermost level, latest first, and the blocks around
it, innermost first. -/
structure Nesting where
  level : List Component := []
  outer : List Pending := []

namespace Nesting

/-- Adds a component to the innermost level. -/
def push (n : Nesting) (c : Component) : Nesting := { n with level := c :: n.level }

/-- Reads a lexeme. -/
def step (n : Nesting) (lexeme : Lexeme) : Nesting :=
  match lexeme.token with
  | .opening _ => { level := [], outer := ⟨lexeme, n.level⟩ :: n.outer }
  | .closing bracket =>
    match n.outer with
    | ⟨opening, before⟩ :: outer =>
      if opening.token = .opening bracket then
        { level := .block opening n.level.reverse (some lexeme) lexeme.start :: before, outer }
      else n.push (.leaf lexeme)
    | [] => n.push (.leaf lexeme)
  | _ => n.push (.leaf lexeme)

/-- Closes the blocks that are open, innermost first, at the end of the stylesheet. -/
def close (stop : Place) : (level : List Component) → List Pending → List Component
  | level, [] => level.reverse
  | level, ⟨opening, before⟩ :: outer =>
    close stop (.block opening level.reverse none stop :: before) outer

end Nesting

/-- The components of a stylesheet that ends at `stop`. -/
def ofLexemes (lexemes : List Lexeme) (stop : Place) : List Component :=
  let n := lexemes.foldl Nesting.step {}
  Nesting.close stop n.level n.outer

/-- The components of a stylesheet. -/
def ofText (t : Text) : List Component := ofLexemes (Lexeme.ofText t) (({} : Place).after t)

end Component

end StyleSieve.Css
