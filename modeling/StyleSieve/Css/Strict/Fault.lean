import StyleSieve.Css.Strict.Label

/-!
# Offences

Why a strict reader refuses a stylesheet, and where.
-/

namespace StyleSieve.Css

/-- Why a stylesheet is refused. -/
inductive Fault where
  /-- Something should follow. -/
  | endOfInput
  /-- Something else should stand here. -/
  | unexpected (found : Lexeme)
  | emptySelector
  | danglingCombinator
  /-- A selector goes on where it has to end, or cannot say this here. -/
  | invalidState
  /-- A selector for a nested rule does not refer to the rule around it. -/
  | missingParent
  | classNeedsName (found : Lexeme)
  | pseudoNeedsName (found : Lexeme)
  | afterPseudoElement (found : Lexeme)
  | pseudoClassAfterElement
  | scrollbarClassAfterOther
  | scrollbarClassAlone
  | badNamespace (found : Lexeme)
  | attributeNeedsName (found : Lexeme)
  | attributeNeedsBar (found : Lexeme)
  | badAttributeName (found : Lexeme)
  | badAttributeOperator (found : Lexeme)
  | badAttributeValue (found : Lexeme)
  | invalidMediaQuery
  | invalidPageSelector
  | invalidValue
  /-- A declaration stands where a rule should. -/
  | invalidRule
  /-- A block that this at-rule cannot have. -/
  | invalidBlock
  | invalidDeclaration
  /-- An at-rule that cannot stand here. -/
  | misplacedAtRule (name : Text)
  | lateImport
  | lateNamespace
  /-- Brackets are nested too deep. -/
  | tooDeep
  deriving DecidableEq, Repr

namespace Fault

/-- A wording that ends in the label of a token. -/
def withLabel (words : String) (found : Lexeme) : String := words ++ String.ofList found.label

/-- The wording of a fault. -/
def message : Fault → String
  | endOfInput => "Unexpected end of input"
  | unexpected found => withLabel "Unexpected token " found
  | emptySelector => "Invalid empty selector"
  | danglingCombinator => "Invalid dangling combinator in selector"
  | invalidState => "Invalid state"
  | missingParent => "A nesting selector (&) is required in each selector in the list"
  | classNeedsName found => withLabel "Expected identifier in class selector, got " found
  | pseudoNeedsName found => withLabel "Invalid token in pseudo element: " found
  | afterPseudoElement found =>
    withLabel "Pseudo-elements like '::before' or '::after' can't be followed by selectors like "
      found
  | pseudoClassAfterElement =>
    "Invalid pseudo class after pseudo element, only user action pseudo classes (e.g. :hover, " ++
      ":active) are allowed"
  | scrollbarClassAfterOther => "Invalid pseudo class after ::-webkit-scrollbar pseudo element"
  | scrollbarClassAlone =>
    "Pseudo class must be prefixed by a ::-webkit-scrollbar pseudo element"
  | badNamespace found => withLabel "Unexpected token in namespace selector: " found
  | attributeNeedsName found => withLabel "No qualified name in attribute selector: " found ++ "."
  | attributeNeedsBar found => withLabel "Expected | in attribute, got " found
  | badAttributeName found => withLabel "Invalid qualified name in attribute selector: " found
  | badAttributeOperator found => withLabel "Unexpected token in attribute selector: " found
  | badAttributeValue found => withLabel "Invalid value in attribute selector: " found
  | invalidMediaQuery => "Invalid media query"
  | invalidPageSelector => "Invalid page selector"
  | invalidValue => "Invalid value"
  | invalidRule => "Invalid qualified rule"
  | invalidBlock => "Invalid @ rule body"
  | invalidDeclaration => "Invalid declaration"
  | misplacedAtRule name => "Unknown at rule: @" ++ String.ofList name
  | lateImport =>
    "@import rules must precede all rules aside from @charset and @layer statements"
  | lateNamespace =>
    "@namespaces rules must precede all rules aside from @charset, @import, and @layer statements"
  | tooDeep => "Overflowed the maximum nesting depth"

end Fault

/-- A fault and where it is found. -/
structure Offence where
  fault : Fault
  place : Place
  deriving DecidableEq, Repr

end StyleSieve.Css
