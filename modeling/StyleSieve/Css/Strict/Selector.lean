import StyleSieve.Css.Strict.Value

/-!
# Strict selectors

A selector is compounds joined by combinators; blanks alone join too.  A compound is a type and
simple selectors behind it, with nothing between.  A selector ends behind a pseudo-element that is
known, but for pseudo-classes.  A list that forgives passes over all that is wrong with its
selectors, so that it holds anything.

A selector may hold lists of selectors in turn.  They are read by `nested`, which is the reader of
selectors for one level less.
-/

namespace StyleSieve.Css.Strict

/-- What a pseudo-element stands for. -/
inductive ElementKind where
  | plain
  | scrollbar
  | transition
  /-- Not known, so that anything may follow. -/
  | unknown
  deriving DecidableEq, Repr

/-- What a selector has come past, and what it may not hold. -/
structure Scope where
  /-- The last pseudo-element. -/
  element : Option ElementKind := none
  /-- Past the parts of an element. -/
  part : Bool := false
  /-- Past what is put in a slot. -/
  slotted : Bool := false
  noElements : Bool := false
  noCombinators : Bool := false
  deriving DecidableEq, Repr

namespace Scope

/-- Past a pseudo-element that is known. -/
def pastElement (s : Scope) : Bool := s.element.any (· ≠ .unknown)

/-- Past a pseudo-element, so that the selector ends with its compound. -/
def isEnding (s : Scope) : Bool := s.part || s.slotted || s.pastElement

end Scope

/-- How selectors are to be read. -/
inductive SelectorForm where
  | one
  /-- A list without faults. -/
  | list
  /-- A list in a style rule: a selector may start with a combinator. -/
  | relative
  /-- A list in which each selector refers to the rule around it. -/
  | referring
  deriving DecidableEq, Repr

/-- Reads selectors in a scope. -/
abbrev Selectors := SelectorForm → Scope → Reader Unit

/-! ### Names -/

/-- Pseudo-elements that may be written with one colon. -/
def oldElements : List String := ["before", "after", "first-line", "first-letter"]

/-- Pseudo-elements that are known. -/
def plainElements : List String :=
  oldElements ++
  ["details-content", "target-text", "search-text", "selection", "-moz-selection", "placeholder",
   "-webkit-input-placeholder", "-moz-placeholder", "-ms-input-placeholder", "marker", "backdrop",
   "-webkit-backdrop", "file-selector-button", "-webkit-file-upload-button", "-ms-browse", "cue",
   "cue-region", "view-transition", "picker-icon", "checkmark", "grammar-error", "spelling-error"]

/-- Pseudo-elements that stand for a part of a scroll bar. -/
def scrollbarElements : List String :=
  ["-webkit-scrollbar", "-webkit-scrollbar-button", "-webkit-scrollbar-track",
   "-webkit-scrollbar-track-piece", "-webkit-scrollbar-thumb", "-webkit-scrollbar-corner",
   "-webkit-resizer"]

/-- Pseudo-elements that stand for a part of a transition between views. -/
def transitionElements : List String :=
  ["view-transition-group", "view-transition-image-pair", "view-transition-old",
   "view-transition-new"]

/-- Pseudo-classes of the place among siblings or in the document. -/
def placeClasses : List String :=
  ["first-child", "last-child", "only-child", "root", "empty", "scope", "host", "first-of-type",
   "last-of-type", "only-of-type"]

/-- Pseudo-classes of the parts of a scroll bar. -/
def scrollbarClasses : List String :=
  ["horizontal", "vertical", "decrement", "increment", "start", "end", "double-button",
   "single-button", "no-button", "corner-present", "window-inactive"]

/-- Pseudo-classes of what the user does. -/
def actionClasses : List String := ["hover", "active", "focus", "focus-visible", "focus-within"]

/-- Pseudo-classes of a scroll bar that other elements have too. -/
def sharedScrollbarClasses : List String := ["enabled", "disabled", "hover", "active"]

/-- Functions that hold a list that forgives. -/
def forgivingClasses : List String := ["is", "where", "has"]

/-- Vendors' functions that hold a list that forgives. -/
def vendorForgivingClasses : List String := ["-webkit-any", "-moz-any"]

/-- Pseudo-classes of a count that may be followed by a list of selectors. -/
def filteredCountClasses : List String := ["nth-child", "nth-last-child"]

/-- Pseudo-classes of a count. -/
def countClasses : List String :=
  filteredCountClasses ++ ["nth-of-type", "nth-last-of-type", "nth-col", "nth-last-col"]

/-- Whether a name is one of some, in any case. -/
def isAmong (names : List String) (name : Text) : Bool :=
  names.any fun n => Text.sameLetters name n.toList

/-! ### Type and attribute selectors -/

/-- Reads what follows the bar behind a namespace. -/
def localName (inAttribute : Bool) : Reader Unit := do
  let start ← here
  let c ← nextTight
  match c.token? with
  | some (.ident _) => return ()
  | some (.delim '*') => if inAttribute then fail (.badAttributeName c.first) start
  | _ =>
    fail (if inAttribute then .badAttributeName c.first else .badNamespace c.first) start

/-- Reads a name with or without a namespace, or `*` for any; tells whether there is one. -/
def qualifiedName (inAttribute : Bool) : Reader Bool := do
  let start ← get
  let c ← nextTight
  match c.token? with
  | some (.ident _) =>
    if ← succeeds (do let bar ← nextTight; if !bar.is (.delim '|') then fail .endOfInput (← here))
    then localName inAttribute
    return true
  | some (.delim '*') =>
    let afterStar ← get
    match ← trial nextTight with
    | .ok (bar, rest) =>
      if bar.is (.delim '|') then
        set rest
        localName inAttribute
      else if inAttribute then fail (.attributeNeedsBar bar.first) afterStar.place
    | .error offence => if inAttribute then throw offence
    return true
  | some (.delim '|') =>
    localName inAttribute
    return true
  | _ =>
    set start
    return false

/-- Reads a type selector if there is one.  A namespace with no name behind it at the end is
none. -/
def typeSelector : Reader Bool := do
  match ← trial (qualifiedName false) with
  | .ok (found, rest) =>
    set rest
    return found
  | .error offence =>
    if offence.fault = .endOfInput then
      skipAll
      return false
    else throw offence

/-- A token that compares the value of an attribute. -/
def isComparison (c : Component) : Bool :=
  match c.token? with
  | some (.matcher _) => true
  | some (.delim d) => d == '='
  | _ => false

/-- Reads what an attribute selector holds. -/
def attributeSelector : Reader Unit := do
  skipBlank
  if !(← qualifiedName true) then
    let c ← nextTight
    fail (.attributeNeedsName c.first) (c.start)
  let start ← here
  match ← attempt next with
  | none => return ()
  | some operator =>
    if !isComparison operator then fail (.badAttributeOperator operator.first) start
    let start ← here
    let c ← next
    if (nameOf? c).isNone && !c.is .string then fail (.badAttributeValue c.first) start
    let start ← here
    match ← attempt next with
    | none => return ()
    | some flag =>
      if !(nameOf? flag).any (isAmong ["i", "s"]) then fail (.unexpected flag.first) start

/-! ### Counts -/

/-- Reads a number that `fits`; an offence is found past the token. -/
def fitting (fits : Label.Numeral → Bool) : Reader Unit := do
  let c ← next
  if !(numeralOf? c).any fits then fail (.unexpected c.first) (pastFirst c)

/-- Reads an integer without a unit and without a sign. -/
def unsignedInteger : Reader Unit :=
  fitting fun n => n.isInteger && n.unit.isEmpty && !n.signed

/-- Reads what is added to a multiple, if anything is. -/
def summand : Reader Unit := do
  match ← trial next with
  | .ok (c, rest) =>
    if c.is (.delim '+') || c.is (.delim '-') then
      set rest
      unsignedInteger
    else if (numeralOf? c).any fun n => n.isInteger && n.unit.isEmpty && n.signed then set rest
    else return ()
  | .error _ => return ()

/-- The name is `n`, a hyphen and digits. -/
def isMultipleLess (name : Text) : Bool :=
  Text.sameLetters (name.take 2) "n-".toList && name.length ≥ 3 && (name.drop 2).all Char.isDigit

/-- Reads what follows a multiple that is written as `name`, without its sign and its factor. -/
def multiple (c : Component) (name : Text) : Reader Unit :=
  if Text.sameLetters name ['n'] then summand
  else if Text.sameLetters name ['n', '-'] then unsignedInteger
  else if isMultipleLess name then return ()
  else fail (.unexpected { c.first with token := .ident name }) (pastFirst c)

/-- Reads a count: a number, `even`, `odd`, or a multiple of `n` with something added. -/
def count : Reader Unit := do
  let c ← next
  match c.token? with
  | some .number =>
    let n := Label.Numeral.ofText c.first.text
    if !n.isInteger || n.unit = ['%'] then fail (.unexpected c.first) (pastFirst c)
    else if !n.unit.isEmpty then multiple c (Name.value n.unit)
  | some (.ident name) =>
    if isAmong ["even", "odd"] name then return ()
    else if name.head? = some '-' && !(name.drop 1).head?.any (· = '-') then
      let bare := name.drop 1
      if Text.sameLetters bare ['n'] || Text.sameLetters bare ['n', '-'] || isMultipleLess bare then
        multiple c bare
      else fail (.unexpected c.first) (pastFirst c)
    else multiple c name
  | some (.delim '+') =>
    let c ← nextTight
    match nameOf? c with
    | some name => multiple c name
    | none => fail (.unexpected c.first) (pastFirst c)
  | _ => fail (.unexpected c.first) (pastFirst c)

/-! ### Pseudo-classes and pseudo-elements -/

/-- Reads what the function of a pseudo-class holds. -/
def classArguments (nested : Selectors) (s : Scope) (name : Text) : Reader Unit := do
  if !s.isEnding && isAmong countClasses name then
    count
    if isAmong filteredCountClasses name then
      if ← succeeds (word ["of"]) then nested .list s
  else if !s.isEnding && isAmong ["host"] name then
    nested .one { s with noElements := true, noCombinators := true }
  else if !s.isEnding && isAmong ["not"] name then nested .list { s with noElements := true }
  else if (!s.isEnding && isAmong forgivingClasses name) || isAmong vendorForgivingClasses name then
    skipAll
  else if s.isEnding then fail .invalidState (← here)
  else if isAmong ["lang"] name then discard (commaList nameOrString)
  else if isAmong ["dir"] name then discard (word ["ltr", "rtl"])
  else if isAmong ["state"] name then discard ownName
  else if isAmong ["active-view-transition-type"] name then discard (commaList ownName)
  else plainTokens

/-- Checks a pseudo-class without arguments, which stands at `start`. -/
def checkClass (s : Scope) (start : Place) (name : Text) : Reader Unit := do
  if s.slotted then fail .invalidState start
  else if !s.isEnding && isAmong placeClasses name then return ()
  else if s.element = some .transition && isAmong ["only-child"] name then return ()
  else if s.element = some .scrollbar then
    if !isAmong (scrollbarClasses ++ sharedScrollbarClasses) name then
      fail .scrollbarClassAfterOther start
  else if s.pastElement then
    if !isAmong actionClasses name then fail .pseudoClassAfterElement start
  else if isAmong scrollbarClasses name then fail .scrollbarClassAlone start

/-- Reads the parts that `::part` names. -/
def partNames : Reader Unit := do
  discard name
  repeated do
    if ← succeeds exhausted then return false
    discard name
    return true

/-- Reads which parts of a transition are meant. -/
def transitionPart : Reader Unit := do
  skipBlank
  if !(← succeeds (token (.delim '*'))) then discard (attempt ownName)
  repeated do
    match ← attempt nextTight with
    | none => return false
    | some dot =>
      if !dot.is (.delim '.') then fail .invalidState (pastFirst dot)
      let behind ← here
      match ← attempt nextTight with
      | none => fail .invalidState behind
      | some c => if (nameOf? c).isNone then fail .invalidState (pastFirst c)
      return true

/-- Reads what the function of a pseudo-element holds, and tells what it stands for. -/
def elementArguments (nested : Selectors) (name : Text) : Reader ElementKind := do
  if isAmong ["cue", "cue-region"] name then
    nested .one {}
    return .plain
  else if isAmong transitionElements name then
    transitionPart
    return .transition
  else if isAmong ["picker"] name then
    discard Strict.name
    return .plain
  else
    plainTokens
    return .unknown

/-- What a pseudo-element without arguments stands for. -/
def elementKind (name : Text) : ElementKind :=
  if isAmong plainElements name then .plain
  else if isAmong scrollbarElements name then .scrollbar
  else .unknown

/-- Reads the function of a pseudo-element that has just been taken. -/
def elementFunction (nested : Selectors) (s : Scope) (c : Component) (name : Text) :
    Reader Scope := do
  if isAmong ["part"] name then
    if s.isEnding then fail .invalidState (pastFirst c)
    enter c partNames
    return { s with part := true }
  else if isAmong ["slotted"] name then
    if s.isEnding then fail .invalidState (pastFirst c)
    enter c (nested .one { s with noElements := true, noCombinators := true })
    return { s with slotted := true }
  else return { s with element := some (← enter c (elementArguments nested name)) }

/-- Reads what follows a colon. -/
def pseudo (nested : Selectors) (s : Scope) : Reader Scope := do
  let start ← here
  let first ← nextTight
  let doubled := first.is .colon
  let c ← if doubled then nextTight else pure first
  match nameOf? c, c.first.function? with
  | some name, _ =>
    if doubled || isAmong oldElements name then
      if s.pastElement || s.noElements then fail .invalidState (pastFirst c)
      return { s with element := some (elementKind name) }
    else
      checkClass s start name
      return s
  | none, some name =>
    if doubled || isAmong oldElements name then
      if s.pastElement || s.noElements then fail .invalidState (pastFirst c)
      elementFunction nested s c name
    else
      enter c (classArguments nested s name)
      return s
  | none, none => fail (.pseudoNeedsName c.first) (pastFirst c)

/-! ### Selectors -/

/-- Reads a simple selector if there is one. -/
def simpleSelector (nested : Selectors) (s : Scope) : Reader (Option Scope) := do
  let start ← get
  match ← attempt nextTight with
  | none => return none
  | some c =>
    let refuseEnding : Reader Unit :=
      if s.isEnding then fail (.afterPseudoElement c.first) start.place else pure ()
    match c.first.token with
    | .hash true =>
      refuseEnding
      return some s
    | .delim '.' =>
      refuseEnding
      let behind ← here
      let name ← nextTight
      if (nameOf? name).isNone then fail (.classNeedsName name.first) behind
      return some s
    | .opening .square =>
      refuseEnding
      enter c attributeSelector
      return some s
    | .colon => return some (← pseudo nested s)
    | .delim '&' => return some s
    | _ =>
      set start
      return none

/-- Reads a compound; tells whether there is one.  A reference to the rule around it may stand in
front of a type. -/
def compound (nested : Selectors) (s : Scope) : Reader (Bool × Scope) := do
  skipBlank
  let refers ← succeeds (token (.delim '&'))
  let typed ← typeSelector
  iterate (fun (found, s) => do
    match ← simpleSelector nested s with
    | some s => return (true, true, s)
    | none => return (false, found, s)) (refers || typed, s)

/-- A combinator that is written out. -/
def isCombinator (c : Component) : Bool :=
  c.is (.delim '>') || c.is (.delim '+') || c.is (.delim '~')

/-- Reads a combinator; tells whether there is one. -/
def combinator : Reader Bool := do
  let start ← get
  let blanks := start.items.takeWhile Component.isBlank
  let behind := Component.skipBlank start.items
  match behind with
  | [] => return false
  | c :: items =>
    if isCombinator c then
      set { start with items }
      return true
    else if blanks.any (·.is .space) then
      set { start with items := behind }
      return true
    else return false

/-- Reads a selector. -/
def selector (nested : Selectors) (s : Scope) : Reader Unit :=
  discard (iterate (fun (joined, s) => do
    let (found, s) ← compound nested s
    if !found then fail (if joined then .danglingCombinator else .emptySelector) (← here)
    if s.isEnding then return (false, joined, s)
    if !(← combinator) then return (false, joined, s)
    if s.noCombinators then fail .invalidState (← here)
    return (true, true, s)) (false, s))

/-- Reads a selector that may start with a combinator. -/
def relativeSelector (nested : Selectors) (s : Scope) : Reader Unit := do
  let start ← get
  let c ← next
  if !isCombinator c then set start
  selector nested s

mutual

/-- Whether a component refers to the rule around it. -/
def refersIn : Component → Bool
  | .leaf lexeme => lexeme.token == .delim '&'
  | .block _ content _ _ => refersAmong content

/-- Whether some components refer to the rule around them. -/
def refersAmong : List Component → Bool
  | [] => false
  | c :: rest => refersIn c || refersAmong rest

end

/-- Reads a selector that refers to the rule around it. -/
def referringSelector (nested : Selectors) (s : Scope) : Reader Unit := do
  let start ← get
  selector nested s
  if !refersAmong start.items then
    skipBlank
    fail .missingParent (← here)

/-- Reads selectors, with a reader for those within. -/
def selectorsWith (nested : Selectors) : Selectors := fun form s =>
  match form with
  | .one => selector nested s
  | .list => discard (commaList (selector nested s))
  | .relative => discard (commaList (relativeSelector nested s))
  | .referring => discard (commaList (referringSelector nested s))

/-- Reads selectors that are nested no deeper than `depth`. -/
def selectors : (depth : Nat) → Selectors
  | 0, _, _ => pure ()
  | depth + 1, form, s => selectorsWith (selectors depth) form s

end StyleSieve.Css.Strict
