import StyleSieve.Css.Strict.Value

/-!
# Strict conditions

The conditions of media, container and feature queries.  A condition is features in parentheses that
are joined by `and` or by `or`, or one that is negated; parentheses may hold conditions in turn, and
these are read by a reader for one level less.  A feature query that is not known may be anything in
parentheses.

A list of media queries ends where a query wants a token, which is no offence.
-/

namespace StyleSieve.Css.Strict

/-- What a condition asks about. -/
inductive Query where
  | media
  | container
  /-- A style, within a condition on a container. -/
  | style
  /-- How far something is scrolled, within a condition on a container. -/
  | scroll
  deriving DecidableEq, Repr

/-! ### Features -/

/-- Reads a comparison: `=`, `<`, `>`, `<=` or `>=`. -/
def comparison : Reader Unit := do
  let start ← here
  let c ← next
  if c.is (.delim '<') || c.is (.delim '>') then discard (attempt (token (.delim '=')))
  else if c.is (.delim '=') then return ()
  else fail (.unexpected c.first) start

/-- Reads what a feature is compared with: a number, a ratio, a dimension, a calculation or a
name. -/
def featureValue : Reader Unit := do
  if ← succeeds (do number; token (.delim '/'); number) then return ()
  if ← succeeds (expect numeralOf?) then return ()
  if ← succeeds (do
    let c ← next
    if c.first.function?.isNone then fail .invalidValue (← here)
    whole (functionHead c.first) (Rest.inside c)
    enter c value) then return ()
  discard name

/-- Reads a feature that starts with its name. -/
def nameFirst : Reader Unit := do
  discard name
  if ← succeeds (token .colon) then featureValue
  else if ← succeeds comparison then featureValue

/-- Reads a feature that starts with its value. -/
def valueFirst : Reader Unit := do
  let rest ← get
  if !rest.items.any fun c => (nameOf? c).isSome then
    fail .invalidMediaQuery ((rest.items.getLast?.map fun c => c.start.after c.text).getD rest.stop)
  featureValue
  comparison
  discard name
  if ← succeeds comparison then featureValue

/-- Reads a feature of an environment. -/
def rangeFeature : Reader Unit := do
  match ← trial nameFirst with
  | .ok ((), rest) => set rest
  | .error _ => valueFirst

/-- Reads the value of a property. -/
def propertyValue (property : Text) : Reader Unit :=
  if Text.sameLetters property "all".toList then
    discard (word ["initial", "inherit", "unset", "revert", "revert-layer"])
  else readUpTo (fun c => c.is (.delim '!') || c.is .semicolon) value

/-- Reads the mark of a declaration that is important. -/
def important : Reader Unit := do
  token (.delim '!')
  discard (word ["important"])

/-- Reads a feature of a style: a property, with or without a value. -/
def styleFeature : Reader Unit := do
  let property ← name
  if ← succeeds (token .colon) then
    skipBlank
    propertyValue property
    discard (attempt important)

namespace Query

/-- Reads a feature. -/
def feature : Query → Reader Unit
  | media | container | scroll => rangeFeature
  | style => styleFeature

end Query

/-! ### Conditions -/

/-- Reads conditions; `or` is allowed if the flag says so. -/
abbrev Conditions := Query → Bool → Reader Unit

/-- What a component of a condition asks about: what the condition does, if it is a block in
parentheses, or something else, if it is a function for that. -/
def queryOf? (q : Query) (c : Component) : Option (Component × Query) :=
  if (blockOf? .round c).isSome then some (c, q)
  else if q ≠ .container then none
  else if (functionOf? "style" c).isSome then some (c, .style)
  else if (functionOf? "scroll-state" c).isSome then some (c, .scroll)
  else none

/-- Reads parentheses, or a function in their place. -/
def operand (nested : Conditions) (q : Query) : Reader Unit := do
  let (c, inner) ← expect (queryOf? q)
  enter c do if !(← succeeds (nested inner true)) then inner.feature

/-- Reads operands, each behind the operator. -/
def operands (nested : Conditions) (q : Query) (operator : Text) : Reader Unit :=
  repeated do
    if ← succeeds (word [String.ofList operator]) then
      operand nested q
      return true
    else return false

/-- Reads a condition, with a reader for those within. -/
def conditionWith (nested : Conditions) : Conditions := fun q allowsOr => do
  let start ← here
  if ← succeeds (word ["not"]) then operand nested q
  else
    operand nested q
    let behind ← get
    match ← attempt (word ["and", "or"]) with
    | none => set behind
    | some operator =>
      if !allowsOr && Text.sameLetters operator "or".toList then
        let found : Lexeme := { token := .ident "or".toList, text := operator, start }
        fail (.unexpected found) start
      operand nested q
      operands nested q operator

/-- Reads conditions that are nested no deeper than `depth`. -/
def condition : (depth : Nat) → Conditions
  | 0, _, _ => pure ()
  | depth + 1, q, allowsOr => conditionWith (condition depth) q allowsOr

/-! ### Media queries -/

/-- Reads a media query: a type, a condition, or both. -/
def mediaQuery (depth : Nat) : Reader Unit := do
  if ← succeeds (do
    discard (attempt (word ["only", "not"]))
    discard name) then
    if ← succeeds (word ["and"]) then condition depth .media false
  else condition depth .media true

/-- Reads media queries. -/
def mediaList (depth : Nat) : Reader Unit :=
  repeated do
    match ← verdictUpTo (·.is .comma) (mediaQuery depth) with
    | .ok () => succeeds next
    | .error offence => if offence.fault = .endOfInput then return false else throw offence

/-! ### Feature queries -/

/-- Reads the declaration that a feature query asks about. -/
def featureDeclaration : Reader Unit := do
  discard name
  token .colon
  skipBlank
  unknownTokens

/-- Reads parentheses or a function of a feature query. -/
def supportsOperand (nested : Reader Unit) : Reader Unit := do
  skipBlank
  let start ← here
  let c ← next
  if (blockOf? .round c).isSome then
    if ← succeeds (enter c do if !(← succeeds nested) then featureDeclaration) then return ()
  else if c.first.function?.isNone then fail (.unexpected c.first) start
  enter c unknownTokens

/-- Reads a feature query, with a reader for those within. -/
def supportsWith (nested : Reader Unit) : Reader Unit := do
  if ← succeeds (word ["not"]) then supportsOperand nested
  else
    supportsOperand nested
    let first ← attempt (do
      let operator ← word ["and", "or"]
      supportsOperand nested
      return operator)
    match first with
    | none => return ()
    | some operator =>
      repeated (succeeds (do
        discard (word [String.ofList operator])
        supportsOperand nested))

/-- Reads a feature query that is nested no deeper than `depth`. -/
def supports : (depth : Nat) → Reader Unit
  | 0 => pure ()
  | depth + 1 => supportsWith (supports depth)

end StyleSieve.Css.Strict
