import StyleSieve.Selector.Parts
import StyleSieve.Source.Span

/-!
# Stylesheets

A stylesheet is a list of branches and the declaration bodies that they are written for.  A branch
is one selector of a selector list, or a global at-rule such as `@font-face`; a body is shared by
all branches of its rule.  The conditions around a branch are the conditional groups that it stands
in, outermost first.
-/

namespace StyleSieve

/-- A conditional group around a branch: its name without the `@`, and its condition. -/
structure Condition where
  name : Text
  /-- Empty for an anonymous layer. -/
  params : Text
  deriving DecidableEq, Repr

/-- The opening of a group as it is written: `@name params`, or `@name`. -/
def Condition.text (c : Condition) : Text :=
  '@' :: (c.name ++ if c.params.isEmpty then [] else ' ' :: c.params)

/-- The number of a body within its stylesheet, a word of 32 bits.  Bodies are counted from one, and
a stylesheet has no more of them than its tree has nodes. -/
abbrev BodyId := Nat

namespace Stylesheet

/-- A property and its value. -/
structure Setting where
  property : Text
  value : Text
  deriving DecidableEq, Repr

/-- A declaration block with the spans that reach furthest to either side of it. -/
structure Block where
  /-- The settings, in source order. -/
  settings : List Setting
  /-- The span with the first start. -/
  first : Span
  /-- The span with the last stop. -/
  last : Span
  /-- The source text of the block of a global at-rule; none for a statement and for a rule. -/
  source : Option Text
  deriving DecidableEq, Repr

/-- The tightest span over all settings of a block. -/
def Block.span (b : Block) : Span := .between b.first.start b.last.stop

/-- A numbered block. -/
structure Body extends Block where
  id : BodyId
  deriving DecidableEq, Repr

/-- One selector, or one global at-rule, with the body that it is written for. -/
structure Branch where
  /-- The selector, or the at-rule up to its block. -/
  text : Text
  parts : Selector.Parts
  /-- The conditions around it, outermost first. -/
  conditions : List Condition
  /-- A global at-rule, which every page needs. -/
  isGlobal : Bool
  body : BodyId
  deriving DecidableEq, Repr

end Stylesheet

/-- The branches of a stylesheet in source order, and its bodies by increasing number. -/
structure Stylesheet where
  branches : List Stylesheet.Branch := []
  bodies : List Stylesheet.Body := []
  deriving DecidableEq, Repr, Inhabited

namespace Stylesheet

/-- The body with a number. -/
def body? (s : Stylesheet) (id : BodyId) : Option Body := s.bodies.find? (·.id == id)

/-- The branches written for a body, in source order. -/
def branchesOf (s : Stylesheet) (id : BodyId) : List Branch := s.branches.filter (·.body == id)

/-- The global at-rules, in source order. -/
def globals (s : Stylesheet) : List Branch := s.branches.filter (·.isGlobal)

/-- Whether nothing stands in the stylesheet. -/
def isEmpty (s : Stylesheet) : Bool := s.branches.isEmpty

/-- Puts a body at its place among bodies of increasing number, instead of one of its number. -/
def insertBody (b : Body) : List Body → List Body
  | [] => [b]
  | first :: rest =>
    if b.id < first.id then b :: first :: rest
    else if b.id = first.id then b :: rest
    else first :: insertBody b rest

/-- The stylesheet of some branches and bodies.  Of bodies with one number the last counts. -/
def ofParts (branches : List Branch) (bodies : List Body) : Stylesheet :=
  { branches, bodies := bodies.foldl (fun bs b => insertBody b bs) [] }

end Stylesheet

end StyleSieve
