import StyleSieve.Css.Strict.Query
import StyleSieve.Css.Strict.Selector

/-!
# Strict at-rules

What stands between the name of an at-rule and its block or its end.  Each known at-rule has a form
of its own there, and it decides what may come next; one that is not known may hold any value.

At the top of a stylesheet, imports come before namespaces, and both before all other rules.
Cascade layers that are only named may stand in front of imports, and at-rules that are not known
stand anywhere.
-/

namespace StyleSieve.Css.Strict

/-- How far the top of a stylesheet has come. -/
inductive Stage where
  | start
  | layers
  | imports
  | namespaces
  | rules
  deriving DecidableEq, Repr

namespace Stage

/-- The place of a stage in their order. -/
def rank : Stage → Nat
  | start => 0
  | layers => 1
  | imports => 2
  | namespaces => 3
  | rules => 4

end Stage

/-- Where rules stand. -/
inductive Setting where
  /-- In no block. -/
  | sheet (stage : Stage)
  /-- In the block of an at-rule that stands in no style rule. -/
  | group
  /-- In a style rule, at any depth. -/
  | style
  deriving DecidableEq, Repr

namespace Setting

/-- The setting within the block of a conditional group. -/
def inGroup : Setting → Setting
  | style => style
  | _ => group

end Setting

/-- What an at-rule is, as far as it decides what may come next. -/
inductive AtRuleKind where
  | import
  | namespace
  | charset
  /-- So many cascade layers. -/
  | layer (names : Nat)
  /-- A group of rules. -/
  | group
  /-- A style rule that refers to the one around it. -/
  | nest
  /-- A list of declarations. -/
  | declarations
  | page
  /-- A custom property. -/
  | property
  | fontFeatures
  /-- A block in which what is wrong is passed over. -/
  | lenient
  | unknown
  deriving DecidableEq, Repr

namespace AtRuleKind

/-- Whether the at-rule may stand in a style rule. -/
def fitsStyle : AtRuleKind → Bool
  | layer _ | group | nest | unknown => true
  | _ => false

/-- The kind of statement that needs no block, and the stage of the stylesheet behind it. -/
def afterStatement? (kind : AtRuleKind) (setting : Setting) : Option Setting :=
  match kind, setting with
  | .import, _ => some (.sheet .imports)
  | .namespace, _ => some (.sheet .namespaces)
  | .layer 0, _ => none
  | .layer _, .sheet stage =>
    some (.sheet (if stage.rank ≤ Stage.layers.rank then .layers else .rules))
  | .layer _, .style => none
  | .layer _, .group => some .group
  | .charset, _ | .unknown, _ => some setting
  | _, _ => none

end AtRuleKind

/-! ### Forms -/

/-- Reads the name of a cascade layer: names with points between, and no blanks. -/
def layerName : Reader Unit := do
  discard name
  repeated (succeeds (do
    let dot ← take
    if !dot.is (.delim '.') then fail .endOfInput (← here)
    let part ← take
    if (nameOf? part).isNone then fail .endOfInput (← here)))

/-- Reads the names of cascade layers, and counts them.  A list that wants a name counts none. -/
def layerNames : Reader Nat := do
  let (_, total) ← iterate (fun (n, _) => do
    skipBlank
    match ← verdictUpTo (·.is .comma) layerName with
    | .ok () =>
      let more ← succeeds next
      return (more, n + 1, n + 1)
    | .error offence =>
      if offence.fault = .endOfInput then return (false, 0, 0)
      else throw offence) ((0 : Nat), (0 : Nat))
  return total

/-- Reads what `@import` asks for. -/
def importForm (depth : Nat) : Reader Unit := do
  address true
  if !(← succeeds (word ["layer"])) then
    match ← attempt (expect (functionOf? "layer")) with
    | some c => enter c layerName
    | none => pure ()
  match ← attempt (expect (functionOf? "supports")) with
  | some c => enter c do if !(← succeeds (supports depth)) then featureDeclaration
  | none => pure ()
  mediaList depth

/-- Reads the prefix and the address of a namespace. -/
def namespaceForm : Reader Unit := do
  discard (attempt name)
  address true

/-- Reads the name of keyframes.  An offence is found past the token. -/
def keyframesForm : Reader Unit := do
  let c ← next
  let named := (nameOf? c).any fun n => !isAmong ("none" :: reservedWords) n
  if !named && !c.is .string then fail (.unexpected c.first) (pastFirst c)

/-- Reads which pages are meant. -/
def pageSelector : Reader Unit := do
  let named ← succeeds name
  let colons ← iterate (fun n => do
    if ← succeeds (do
      let c ← nextTight
      if !c.is .colon then fail .endOfInput (← here)) then
      discard (word ["left", "right", "first", "last", "blank"])
      return (true, n + 1)
    else return (false, n)) 0
  if !named && colons = 0 then fail .invalidPageSelector (← here)

/-- Reads the name and the condition of a container query. -/
def containerForm (depth : Nat) : Reader Unit := do
  discard (attempt (nameBut ("none" :: "and" :: "not" :: "or" :: reservedWords)))
  condition depth .container true

/-- Reads a list of selectors that forgives, in parentheses. -/
def scopeLimit : Reader Unit := discard (expect (blockOf? .round))

/-- Reads the limits of a scope. -/
def scopeForm : Reader Unit := do
  discard (attempt scopeLimit)
  if ← succeeds (word ["to"]) then scopeLimit

/-- Reads the address that a group of rules for old browsers is kept to: only an empty one. -/
def documentForm : Reader Unit := do
  let c ← expect (functionOf? "url-prefix")
  enter c do
    discard (attempt (do
      let s ← string
      if !s.stringText.isEmpty then fail .invalidValue (← here)))

/-- Reads the names of font families. -/
def familyNames : Reader Unit :=
  discard (commaList do
    if !(← succeeds string) then
      discard name
      repeated (succeeds name))

/-- Reads what stands between the name of an at-rule and its block or its end. -/
def prelude (depth : Nat) (setting : Setting) (name : Text) : Reader AtRuleKind := do
  match String.ofList (Text.lower name), setting with
  | "import", .sheet stage =>
    if stage.rank > Stage.imports.rank then fail .lateImport (← here)
    importForm depth
    return .import
  | "namespace", .sheet stage =>
    if stage.rank > Stage.namespaces.rank then fail .lateNamespace (← here)
    namespaceForm
    return .namespace
  | "charset", .sheet _ =>
    discard string
    return .charset
  | "nest", .style =>
    selectors depth .referring {}
    return .nest
  | "media", _ =>
    mediaList depth
    return .group
  | "supports", _ =>
    supports depth
    return .group
  | "container", _ =>
    containerForm depth
    return .group
  | "layer", _ => return .layer (← layerNames)
  | "scope", _ =>
    scopeForm
    return .group
  | "starting-style", _ => return .group
  | "-moz-document", _ =>
    documentForm
    return .group
  | "font-face", _ | "view-transition", _ => return .lenient
  | "font-palette-values", _ =>
    discard dashedName
    return .lenient
  | "font-feature-values", _ =>
    familyNames
    return .fontFeatures
  | "counter-style", _ =>
    discard ownName
    return .declarations
  | "viewport", _ | "-ms-viewport", _ => return .declarations
  | "keyframes", _ | "-webkit-keyframes", _ | "-moz-keyframes", _ | "-o-keyframes", _
  | "-ms-keyframes", _ =>
    keyframesForm
    return .lenient
  | "page", _ =>
    discard (attempt (commaList pageSelector))
    return .page
  | "property", _ =>
    discard dashedName
    return .property
  | _, _ =>
    skipBlank
    value
    return .unknown

end StyleSieve.Css.Strict
