import StyleSieve.Css.AtRule
import StyleSieve.Css.Node
import StyleSieve.Selector.Branches
import StyleSieve.Stylesheet.Basic

/-!
# From nodes to a stylesheet

The nodes of a source are walked in source order.  A style rule gives one branch for each selector
of its list, a conditional group only a condition for what stands in it, and any other at-rule one
global branch.  A block that covers the same span as an earlier one is that block: it gets no body
of its own.  So the branches of a rule share a body, and a block without settings, which covers its
own rule, is shared with no other.
-/

namespace StyleSieve.Stylesheet

open Css (Node Place Declaration)

/-- A place as a location of a file. -/
def locationOf (file : Nat) (p : Place) : Location := ⟨file, p.line, p.column⟩

/-- What a declaration covers. -/
def spanOf (file : Nat) (d : Declaration) : Span :=
  .between (locationOf file d.start) (locationOf file d.stop)

/-- The block of some declarations.  Without declarations it covers the rule they would stand in,
from `start` to `stop`. -/
def Block.ofDeclarations (file : Nat) (declarations : List Declaration) (start stop : Place)
    (source : Option Text) : Block :=
  let spans := declarations.map (spanOf file)
  let whole := Span.between (locationOf file start) (locationOf file stop)
  { settings := declarations.map fun d => ⟨d.property, d.value⟩
    first := if spans.isEmpty then whole else spans.foldl Span.earlierStart (.pastEnd file)
    last := if spans.isEmpty then whole else spans.foldl Span.laterStop (.beforeStart file)
    source }

/-- The number of a block: that of the body with its span, or a new one. -/
def addBlock (s : Stylesheet) (block : Block) : Stylesheet × BodyId :=
  match s.bodies.find? (fun b => b.span.coincides block.span) with
  | some known => (s, known.id)
  | none =>
    let id := s.bodies.length + 1
    ({ s with bodies := s.bodies ++ [{ block with id }] }, id)

/-- Adds a branch for a block. -/
def addBranch (s : Stylesheet) (text : Text) (parts : Selector.Parts)
    (conditions : List Condition) (isGlobal : Bool) (block : Block) : Stylesheet :=
  let (s, body) := s.addBlock block
  { s with branches := s.branches ++ [{ text, parts, conditions, isGlobal, body }] }

/-- Adds a style rule: a branch for each selector of its list. -/
def addRule (s : Stylesheet) (conditions : List Condition) (selector : Text) (block : Block) :
    Stylesheet :=
  (Selector.branches selector).foldl
    (fun s branch => s.addBranch branch (Selector.parts branch) conditions false block) s

/-- All declarations in some nodes, however deep, in source order. -/
def declarationsIn : List Node → List Declaration
  | [] => []
  | .declaration d :: rest => d :: declarationsIn rest
  | .rule _ declarations _ _ :: rest => declarations ++ declarationsIn rest
  | .atRule _ _ _ children _ _ :: rest => declarationsIn (children ++ rest)
termination_by nodes => sizeOf nodes
decreasing_by
  all_goals simp only [List.cons.sizeOf_spec, Node.atRule.sizeOf_spec]
  · omega
  · omega
  · have : ∀ l m : List Node, sizeOf (l ++ m) ≤ sizeOf l + sizeOf m := by
      intro l m
      induction l with
      | nil => simp
      | cons a l ih => simp only [List.cons_append, List.cons.sizeOf_spec]; omega
    have := this children rest
    omega

/-- What a global at-rule is written as, up to its block. -/
def globalText (name params : Text) : Text := Text.trimEnd ('@' :: (name ++ ' ' :: params))

/-- A node that has not been walked yet, with the conditions around it. -/
structure Waiting where
  conditions : List Condition
  node : Node

/-- Some nodes under the same conditions. -/
def Waiting.under (conditions : List Condition) (nodes : List Node) : List Waiting :=
  nodes.map (⟨conditions, ·⟩)

theorem Waiting.foldr_sizeOf_under_le (conditions : List Condition) (nodes : List Node)
    (more : Nat) :
    (under conditions nodes).foldr (fun w n => sizeOf w.node + n) more ≤ sizeOf nodes + more := by
  induction nodes with
  | nil => simp [under]
  | cons n nodes ih =>
    simp only [under, List.map_cons, List.foldr_cons, List.cons.sizeOf_spec] at ih ⊢
    omega

/-- Walks nodes in order and adds what they hold. -/
def walk (file : Nat) : List Waiting → Stylesheet → Stylesheet
  | [], s => s
  | ⟨_, .declaration _⟩ :: rest, s => walk file rest s
  | ⟨conditions, .rule selector declarations start stop⟩ :: rest, s =>
    walk file rest
      (s.addRule conditions selector (.ofDeclarations file declarations start stop none))
  | ⟨conditions, .atRule name params block children start stop⟩ :: rest, s =>
    if block.isSome && Css.AtRule.isGroup name then
      walk file (Waiting.under (conditions ++ [⟨name, params⟩]) children ++ rest) s
    else
      walk file rest <|
        s.addBranch (globalText name params) ⟨[], []⟩ conditions true
          (.ofDeclarations file (declarationsIn children) start stop block)
termination_by waiting => waiting.foldr (fun w n => sizeOf w.node + n) 0
decreasing_by
  all_goals simp only [List.foldr_cons, List.foldr_append, Node.rule.sizeOf_spec,
    Node.declaration.sizeOf_spec, Node.atRule.sizeOf_spec]
  · omega
  · omega
  · have := Waiting.foldr_sizeOf_under_le (conditions ++ [⟨name, params⟩]) children
      (rest.foldr (fun w n => sizeOf w.node + n) 0)
    omega
  · omega

/-- The stylesheet that nodes of a file make. -/
def ofNodes (file : Nat) (nodes : List Node) : Stylesheet :=
  walk file (Waiting.under [] nodes) {}

end StyleSieve.Stylesheet
