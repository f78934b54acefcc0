import StyleSieve.Proofs.Css.Nodes
import StyleSieve.Proofs.Stylesheet.Statements

/-!
# The style rules of a stylesheet

`nodes` reads the block of a style rule as it comes to it.  `rulesIn` finds the same rules, at the
top of a sheet and in conditional groups however deep, and leaves their blocks as they stand, so
that what is read of a block can be held against what is in it.

* `ruleStatementsIn_nodes`: the statements of a sheet that are no at-rules are its style rules, with
  their blocks read.
-/

namespace StyleSieve.Stylesheet

open Css (Component Level Node Place after before nodes sourceText)

/-- A style rule: the conditions around it, outermost first, its selector, and its block. -/
structure StyleRule where
  conditions : List Condition
  selector : Text
  content : List Component
  start : Place
  /-- Where the content of the block ends. -/
  stop : Place

/-- The style rules of a list of components that ends at `stop`. -/
def rulesIn (level : Level) (stop : Place) (conditions : List Condition) :
    List Component → List StyleRule
  | [] => []
  | c :: rest =>
    if level.isGap c then rulesIn level stop conditions rest
    else match c.token? with
      | some (.atKeyword name) =>
        match _eq : rest.dropWhile (fun c => !c.endsPrelude) with
        | [] => []
        | .leaf _ :: more => rulesIn level.next stop conditions more
        | .block _ content _ blockStop :: more =>
          let condition : Condition := ⟨name, sourceText (before Component.endsPrelude rest)⟩
          let inner := if Css.AtRule.isGroup name && !level.dropsAtRule name then
            rulesIn .group blockStop (conditions ++ [condition]) content else []
          inner ++ rulesIn level.next stop conditions more
      | _ =>
        match level.declaration? stop c rest with
        | some _ => rulesIn level.next stop conditions (after Component.isSemicolon rest)
        | none =>
          if Css.startsCustomProperty (c :: rest) then
            rulesIn level.next stop conditions (after level.endsCustomProperty rest)
          else
            match _eq : (c :: rest).dropWhile (fun c => !level.endsSelector c) with
            | [] => []
            | .leaf _ :: more => rulesIn level.next stop conditions more
            | .block _ content _ blockStop :: more =>
              { conditions, selector := sourceText (before level.endsSelector (c :: rest)), content
                start := c.start, stop := blockStop } :: rulesIn level.next stop conditions more
termination_by cs => sizeOf cs
decreasing_by
  · simp only [List.cons.sizeOf_spec]; omega
  · have := Css.sizeOf_dropWhile_le (fun c => !c.endsPrelude) rest
    simp only [_eq, List.cons.sizeOf_spec] at this ⊢; omega
  · have := Css.sizeOf_dropWhile_le (fun c => !c.endsPrelude) rest
    simp only [_eq, List.cons.sizeOf_spec, Component.block.sizeOf_spec] at this ⊢; omega
  · have := Css.sizeOf_dropWhile_le (fun c => !c.endsPrelude) rest
    simp only [_eq, List.cons.sizeOf_spec] at this ⊢; omega
  · have := Css.sizeOf_after_le Component.isSemicolon rest
    simp only [List.cons.sizeOf_spec]; omega
  · have := Css.sizeOf_after_le level.endsCustomProperty rest
    simp only [List.cons.sizeOf_spec]; omega
  · have := Css.sizeOf_dropWhile_le (fun c => !level.endsSelector c) (c :: rest)
    simp only [_eq, List.cons.sizeOf_spec] at this ⊢; omega
  · have := Css.sizeOf_dropWhile_le (fun c => !level.endsSelector c) (c :: rest)
    simp only [_eq, List.cons.sizeOf_spec] at this ⊢; omega

/-- The style rules of a stylesheet. -/
def StyleRule.ofText (t : Text) : List StyleRule :=
  rulesIn (.sheet true) (({} : Place).after t) [] (Component.ofText t)

/-- What is read of a style rule of a file. -/
def StyleRule.statement (file : Nat) (r : StyleRule) : Statement :=
  .rule file r.conditions r.selector (Css.declarations r.stop r.content) r.start r.stop

/-- The statements of some nodes that are no at-rules. -/
def ruleStatementsIn (file : Nat) (conditions : List Condition) (ns : List Node) : List Statement :=
  (statementsIn file conditions ns).filter fun u => !u.isGlobal

section

variable {file : Nat} {conditions : List Condition} {level : Level} {name params : Text}

theorem ruleStatementsIn_append (ns ms : List Node) :
    ruleStatementsIn file conditions (ns ++ ms) =
      ruleStatementsIn file conditions ns ++ ruleStatementsIn file conditions ms := by
  simp only [ruleStatementsIn, statementsIn_eq, List.flatMap_append, List.filter_append]

theorem ruleStatementsIn_declaration (d : Css.Declaration) (ns : List Node) :
    ruleStatementsIn file conditions (.declaration d :: ns) =
      ruleStatementsIn file conditions ns := by
  rw [ruleStatementsIn, statementsIn, statementsOf, List.nil_append, ruleStatementsIn]

theorem ruleStatementsIn_rule (selector : Text) (declarations : List Css.Declaration)
    (start stop : Place) (ns : List Node) :
    ruleStatementsIn file conditions (.rule selector declarations start stop :: ns) =
      .rule file conditions selector declarations start stop ::
        ruleStatementsIn file conditions ns := by
  rw [ruleStatementsIn, statementsIn, statementsOf, List.singleton_append,
    List.filter_cons_of_pos rfl, ruleStatementsIn]

/-- An at-rule that is no group holds no style rules. -/
theorem ruleStatementsIn_keep_none (start stop : Place) :
    ruleStatementsIn file conditions
      (level.keep name (.atRule name params none [] start stop)) = [] := by
  unfold Level.keep
  split
  · rfl
  · rfl

theorem ruleStatementsIn_keep_block (source : Text) (children : List Node) (start stop : Place) :
    ruleStatementsIn file conditions
        (level.keep name (.atRule name params (some source) children start stop)) =
      if Css.AtRule.isGroup name && !level.dropsAtRule name then
        ruleStatementsIn file (conditions ++ [⟨name, params⟩]) children
      else [] := by
  unfold Level.keep
  cases level.dropsAtRule name with
  | true => simp [ruleStatementsIn, statementsIn]
  | false =>
      cases hgroup : Css.AtRule.isGroup name with
      | true => simp [ruleStatementsIn, statementsIn, statementsOf, hgroup]
      | false => simp [ruleStatementsIn, statementsIn, statementsOf, hgroup, Statement.atRule]

end

theorem ruleStatementsIn_nodes (file : Nat) (level : Level) (stop : Place)
    (conditions : List Condition) (cs : List Component) :
    ruleStatementsIn file conditions (nodes level stop cs) =
      (rulesIn level stop conditions cs).map (StyleRule.statement file) := by
  -- a style rule starts where no gap, at-rule or declaration does
  have hrule {level : Level} {stop : Place} {c : Component} {rest : List Component}
      (hgap : ¬level.isGap c = true) (hat : ∀ name, c.token? = some (.atKeyword name) → False)
      (hd : level.declaration? stop c rest = none)
      (hcustom : ¬Css.startsCustomProperty (c :: rest) = true) : level.StartsRule stop c rest :=
    ⟨Bool.eq_false_iff.2 hgap, hat, hd, Bool.eq_false_iff.2 hcustom⟩
  fun_induction rulesIn level stop conditions cs with
  | case1 =>
      rw [nodes]
      rfl
  | case2 level stop conditions c rest hgap ih => rw [Css.nodes_cons_gap hgap, ih]
  | case3 level stop conditions c rest _ name hc hend =>
      rw [Css.nodes_cons_atRule_open hc hend, ruleStatementsIn_keep_none, List.map_nil]
  | case4 level stop conditions c rest _ name hc lexeme more hend ih =>
      rw [Css.nodes_cons_atRule_leaf hc hend, ruleStatementsIn_append, ruleStatementsIn_keep_none,
        List.nil_append, ih]
  | case5 level stop conditions c rest _ name hc opening content closing blockStop more hend
      condition inner ih ih' =>
      rw [Css.nodes_cons_atRule_block hc hend, ruleStatementsIn_append,
        ruleStatementsIn_keep_block, ih', List.map_append]
      refine congrArg (· ++ _) ?_
      by_cases hgroup : (Css.AtRule.isGroup name && !level.dropsAtRule name) = true
      · rw [if_pos hgroup, ih]
        simp only [inner, hgroup, dite_true]
      · rw [if_neg hgroup]
        simp [inner, hgroup]
  | case6 level stop conditions c rest hgap d hd hat ih =>
      rw [Css.nodes_cons_declaration (Bool.eq_false_iff.2 hgap) hat hd,
        ruleStatementsIn_declaration, ih]
  | case7 level stop conditions c rest hgap hd hcustom hat ih =>
      rw [Css.nodes_cons_custom (Bool.eq_false_iff.2 hgap) hat hd hcustom, ih]
  | case8 level stop conditions c rest hgap hd hcustom hend hat =>
      rw [Css.nodes_cons_rule_open (hrule hgap hat hd hcustom) hend]
      rfl
  | case9 level stop conditions c rest hgap hd hcustom lexeme more hend hat ih =>
      rw [Css.nodes_cons_rule_leaf (hrule hgap hat hd hcustom) hend, ih]
  | case10 level stop conditions c rest hgap hd hcustom opening content closing blockStop more hend
      hat ih =>
      rw [Css.nodes_cons_rule_block (hrule hgap hat hd hcustom) hend, ruleStatementsIn_rule, ih]
      rfl

end StyleSieve.Stylesheet
