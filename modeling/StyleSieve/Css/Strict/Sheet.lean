import StyleSieve.Css.Strict.Prelude
import StyleSieve.Text.Blank

/-!
# Strict stylesheets

A stylesheet is refused at its first offence.  In a style rule an item is a declaration or a rule: a
name starts a declaration, and where that fails, a rule; where both fail, it is the declaration that
is reported.  Elsewhere all items are rules.  A style rule is looked at only once its block has been
found, so the want of a block is reported before anything that is wrong with its selectors.

The blocks within are read by `nested`, which is the reader of blocks for one level less.  `depth`
bounds how deep brackets are nested anywhere.
-/

namespace StyleSieve.Css.Strict

/-- What a block holds. -/
inductive BlockKind where
  /-- Rules, and declarations if they stand in a style rule. -/
  | items (setting : Setting)
  | declarations
  | page
  | property
  | fontFeatures
  /-- The counts that a font feature stands for. -/
  | fontFeature
  /-- Anything, with all that may be wrong. -/
  | lenient
  /-- Any value. -/
  | unknown
  deriving DecidableEq, Repr

/-- Reads the block of a kind. -/
abbrev Blocks := BlockKind → Reader Unit

/-! ### Declarations -/

/-- Ends the value of a property: the mark of an important one, and also a block, unless the
property is custom. -/
def endsValue (property : Text) (c : Component) : Bool :=
  c.is (.delim '!') || (c.isCurly && !"--".toList.isPrefixOf property)

/-- Reads what follows the name of a property. -/
def declarationTail (property : Text) : Reader Unit := do
  token .colon
  readUpTo (endsValue property) (propertyValue property)
  discard (attempt important)

/-- Takes a declaration whose name has been taken, and its semicolon; says whether it is one. -/
def declaration {α : Type} (tail : Reader α) : Reader (Except Offence α) := do
  let verdict ← verdictUpTo (·.isSemicolon) tail
  modify Rest.tail
  return verdict

/-! ### Rules -/

/-- Where a custom property is declared, if the rest starts with that. -/
def customProperty : Reader (Option Place) := do
  skipBlank
  let start ← here
  if ← succeeds (do
    discard dashedName
    token .colon) then return some start
  else return none

/-- Reads a style rule. -/
def styleRule (nested : Blocks) (depth : Nat) (setting : Setting) : Reader Unit := do
  if let some start ← customProperty then fail .invalidRule start
  let form : SelectorForm := if setting = .style then .relative else .list
  let ends (c : Component) : Bool := c.isCurly || (setting = .style && c.isSemicolon)
  let verdict ← verdictUpTo ends (selectors depth form {})
  let block ← expect (blockOf? .curly)
  liftM verdict
  enter block (nested (.items .style))

/-- What the block of an at-rule holds. -/
def blockKind (kind : AtRuleKind) (setting : Setting) (start : Place) : Except Offence BlockKind :=
  match kind with
  | .import | .namespace | .charset =>
    let found : Lexeme := { token := .opening .curly, text := ['\x7b'], start }
    .error ⟨.unexpected found, start⟩
  | .layer (_ + 2) => .error ⟨.invalidBlock, start⟩
  | .layer _ | .group => .ok (.items setting.inGroup)
  | .nest => .ok (.items .style)
  | .declarations => .ok .declarations
  | .page => .ok .page
  | .property => .ok .property
  | .fontFeatures => .ok .fontFeatures
  | .lenient => .ok .lenient
  | .unknown => .ok .unknown

/-- The setting behind a rule with a block. -/
def afterBlock : Setting → Setting
  | .sheet _ => .sheet .rules
  | setting => setting

/-- Reads an at-rule whose name has been taken, and tells the setting behind it. -/
def atRule (nested : Blocks) (depth : Nat) (setting : Setting) (name : Text) :
    Reader Setting := do
  let kind ← readUpTo Component.endsPrelude (do
    let kind ← prelude depth setting name
    if setting = .style && !kind.fitsStyle then fail (.misplacedAtRule name) (← here)
    return kind)
  match (← get).items with
  | [] | .leaf _ :: _ =>
    modify Rest.tail
    match kind.afterStatement? setting with
    | some behind => return behind
    | none =>
      let found : Lexeme := { token := .semicolon, text := [';'], start := ← here }
      fail (.unexpected found) (← here)
  | block :: _ =>
    modify Rest.tail
    enter block (do nested (← liftM (blockKind kind setting (← here))))
    return afterBlock setting

/-! ### Blocks -/

/-- What may stand between the items of a block. -/
def isItemGap (c : Component) : Bool := c.isBlank || c.isSemicolon || c.is (.closing .curly)

/-- Reads an item of a block of rules; tells whether there was one. -/
def item (nested : Blocks) (depth : Nat) (setting : Setting) : Reader Bool := do
  modify (·.past isItemGap)
  let rest ← get
  match rest.items with
  | [] => return false
  | c :: _ =>
    match c.token? with
    | some (.atKeyword name) =>
      set rest.tail
      discard (atRule nested depth setting name)
    | some (.ident name) =>
      if setting = .style then
        set rest.tail
        match ← declaration (declarationTail name) with
        | .ok () => return true
        | .error offence =>
          set rest
          if !(← succeeds (styleRule nested depth setting)) then throw offence
      else styleRule nested depth setting
    | _ => styleRule nested depth setting
    return true

/-- The boxes in the margins of a page. -/
def marginBoxes : List String :=
  ["top-left-corner", "top-left", "top-center", "top-right", "top-right-corner",
   "left-top", "left-middle", "left-bottom", "right-top", "right-middle", "right-bottom",
   "bottom-left-corner", "bottom-left", "bottom-center", "bottom-right", "bottom-right-corner"]

/-- The features of fonts that can be named. -/
def fontFeatureNames : List String :=
  ["stylistic", "historical-forms", "styleset", "character-variant", "swash", "ornaments",
   "annotation"]

/-- The descriptors of a custom property that have been read. -/
structure Descriptors where
  /-- The form of its values. -/
  form : Option Text := none
  inherits : Bool := false
  initial : Bool := false
  deriving DecidableEq, Repr

namespace Descriptors

/-- The form of values that may be anything. -/
def anyForm : Text := ['*']

/-- Whether all that is needed has been read.  Values that may be anything need no first one. -/
def isComplete (d : Descriptors) : Bool :=
  d.inherits && d.form.any fun form => d.initial || Text.trim form = anyForm

end Descriptors

/-- Reads what follows the name of a descriptor of a custom property. -/
def descriptorTail (d : Descriptors) (descriptor : Text) : Reader Descriptors := do
  token .colon
  if isAmong ["syntax"] descriptor then return { d with form := some (← string).stringText }
  else if isAmong ["inherits"] descriptor then
    discard (word ["true", "false"])
    return { d with inherits := true }
  else if isAmong ["initial-value"] descriptor then
    skipAll
    return { d with initial := true }
  else fail .invalidDeclaration (← here)

/-- Reads what follows the name of a feature of fonts. -/
def fontFeatureTail (_name : Text) : Reader Unit := do
  token .colon
  integer
  repeated (succeeds integer)

/-- Reads an item of a block of declarations, in which some at-rules with blocks of their own may
stand; tells whether there was one, and what a declaration makes of what was read so far. -/
def declarationItem {σ : Type} (nested : Blocks) (boxes : List String) (box : BlockKind)
    (tail : σ → Text → Reader σ) (s : σ) : Reader (Bool × σ) := do
  modify (·.past isItemGap)
  let rest ← get
  match rest.items with
  | [] => return (false, s)
  | c :: _ =>
    set rest.tail
    match c.token? with
    | some (.atKeyword name) =>
      readUpTo Component.endsPrelude (do
        if !isAmong boxes name then fail (.misplacedAtRule name) (← here))
      match ← attempt next with
      | some (.block opening content closing stop) =>
        enter (.block opening content closing stop) (nested box)
        return (true, s)
      | _ =>
        let found : Lexeme := { token := .semicolon, text := [';'], start := ← here }
        fail (.unexpected found) (← here)
    | some (.ident name) => return (true, ← liftM (← declaration (tail s name)))
    | _ => fail (.unexpected c.first) c.start

/-- Reads declarations, and at-rules for some boxes. -/
def declarations (nested : Blocks) (boxes : List String) (tail : Text → Reader Unit) :
    Reader Unit :=
  iterate (declarationItem nested boxes .declarations fun _ => tail) ()

/-- Reads the block of a custom property. -/
def propertyBlock (nested : Blocks) : Reader Unit := do
  let d ← iterate (declarationItem nested [] .declarations descriptorTail) {}
  if !d.isComplete then fail .invalidBlock (← here)

/-- Reads a block, with a reader for those within. -/
def blockWith (nested : Blocks) (depth : Nat) : Blocks
  | .items setting => repeated (item nested depth setting)
  | .declarations => declarations nested [] declarationTail
  | .page => declarations nested marginBoxes declarationTail
  | .property => propertyBlock nested
  | .fontFeatures =>
    iterate (declarationItem nested fontFeatureNames .fontFeature fun _ => fontFeatureTail) ()
  | .fontFeature => declarations nested [] fontFeatureTail
  | .lenient => skipAll
  | .unknown => value

/-- Reads blocks that are nested no deeper than `level`. -/
def block (depth : Nat) : (level : Nat) → Blocks
  | 0, _ => pure ()
  | level + 1, kind => blockWith (block depth level) depth kind

/-! ### Stylesheets -/

/-- What may stand between the rules of a stylesheet. -/
def isSheetGap (c : Component) : Bool := c.isBlank || c.is .markupOpen || c.is .markupClose

/-- Reads a rule of a stylesheet; tells whether there was one, and the stage behind it.  `@charset`
as the very first rule is passed over. -/
def sheetRule (depth : Nat) (first : Bool) (setting : Setting) :
    Reader (Bool × Bool × Setting) := do
  modify (·.past isSheetGap)
  let rest ← get
  match rest.items with
  | [] => return (false, false, setting)
  | c :: _ =>
    match c.token? with
    | some (.atKeyword name) =>
      if first && Text.sameLetters name "charset".toList then
        set (rest.tail.since Component.endsPrelude).tail
        return (true, false, setting)
      else
        set rest.tail
        return (true, false, ← atRule (block depth depth) depth setting name)
    | _ =>
      styleRule (block depth depth) depth setting
      return (true, false, .sheet .rules)

/-- The verdict of a strict reader on a stylesheet. -/
def verdict (css : Text) : Except Offence Unit :=
  let lexemes := Lexeme.ofText css
  let stop := ({} : Place).after css
  let depth := lexemes.length + 1
  whole (discard (iterate (fun (first, setting) => sheetRule depth first setting)
    (true, Setting.sheet .start))) ⟨Component.ofLexemes lexemes stop, stop⟩

end StyleSieve.Css.Strict
