import StyleSieve.Css.Component
import StyleSieve.Text.Blank

/-!
# Statements of a stylesheet

`Node.ofText` reads a stylesheet as a tree of style rules, at-rules and declarations, with the
places where each starts and stops.  Nothing is refused: what has none of these forms is passed
over.

The grammar is that of statements and declarations.  The block of an at-rule holds statements and
declarations, that of a style rule declarations only.  In the block of an at-rule an identifier
starts a declaration if a colon follows and no block in curly brackets stands before the semicolon;
otherwise it starts a style rule.
-/

namespace StyleSieve.Css

/-- A property and its value, the value as it stands in the source. -/
structure Declaration where
  property : Text
  value : Text
  start : Place
  stop : Place
  deriving DecidableEq, Repr

/-- A statement or a declaration. -/
inductive Node where
  | rule (selector : Text) (declarations : List Declaration) (start stop : Place)
  /-- An at-rule: its name without the `@`, what stands before its block, and the source text of
  the block, if it has one, with the nodes in it. -/
  | atRule (name params : Text) (block : Option Text) (children : List Node) (start stop : Place)
  | declaration (declaration : Declaration)
  deriving Repr

open Component in
/-- The source text of some components, without blank characters at either end. -/
def sourceText (cs : List Component) : Text := Text.trim (textOf cs)

/-- The components after the first that ends a stretch. -/
def after (ends : Component → Bool) (cs : List Component) : List Component :=
  (cs.dropWhile (fun c => !ends c)).drop 1

/-- The components before the first that ends a stretch. -/
def before (ends : Component → Bool) (cs : List Component) : List Component :=
  cs.takeWhile (fun c => !ends c)

theorem sizeOf_dropWhile_le (p : Component → Bool) (cs : List Component) :
    sizeOf (cs.dropWhile p) ≤ sizeOf cs := by
  induction cs with
  | nil => simp
  | cons c cs ih =>
    rw [List.dropWhile_cons]
    split
    · simp only [List.cons.sizeOf_spec]; omega
    · exact Nat.le_refl _

theorem sizeOf_drop_le (n : Nat) (cs : List Component) : sizeOf (cs.drop n) ≤ sizeOf cs := by
  induction cs generalizing n with
  | nil => simp
  | cons c cs ih =>
    cases n with
    | zero => simp
    | succ n =>
      have := ih n
      simp only [List.drop_succ_cons, List.cons.sizeOf_spec]; omega

theorem sizeOf_after_le (ends : Component → Bool) (cs : List Component) :
    sizeOf (after ends cs) ≤ sizeOf cs :=
  Nat.le_trans (sizeOf_drop_le _ _) (sizeOf_dropWhile_le _ _)

/-- The declaration that starts with an identifier, given what follows it: a colon, then the value
up to the next semicolon. -/
def Declaration.read? (name : Text) (start stop : Place) (rest : List Component) :
    Option Declaration :=
  match Component.skipBlank rest with
  | colon :: value =>
    if colon.is .colon then
      some { property := name
             value := sourceText (before Component.isSemicolon value)
             start
             stop := Component.startOf (value.dropWhile (fun c => !c.isSemicolon)) stop }
    else none
  | [] => none

/-- The declarations of the block of a style rule.  An item of any other form is passed over. -/
def declarations (stop : Place) : List Component → List Declaration
  | [] => []
  | c :: rest =>
    match c.token? with
    | some (.atKeyword _) => declarations stop (after Component.endsPrelude rest)
    | some (.ident name) =>
      (Declaration.read? name c.start stop rest).toList ++
        declarations stop (after Component.isSemicolon rest)
    | some .space | some .comment | some .semicolon => declarations stop rest
    | _ => declarations stop (after Component.isSemicolon rest)
termination_by cs => sizeOf cs
decreasing_by
  all_goals
    have h₁ := sizeOf_after_le Component.endsPrelude rest
    have h₂ := sizeOf_after_le Component.isSemicolon rest
    simp only [List.cons.sizeOf_spec]
    omega

/-- Where statements stand. -/
inductive Level where
  /-- In no block.  `first` holds until a statement has been read. -/
  | sheet (first : Bool)
  /-- In the block of an at-rule. -/
  | group
  deriving DecidableEq, Repr

namespace Level

/-- The level after a statement. -/
def next : Level → Level
  | .sheet _ => .sheet false
  | .group => .group

/-- What may stand between statements. -/
def isGap : Level → Component → Bool
  | .sheet _, c => c.isBlank || c.is .markupOpen || c.is .markupClose
  | .group, c => c.isBlank || c.isSemicolon

/-- Whether an at-rule is passed over: `@charset`, as the very first statement. -/
def dropsAtRule (level : Level) (name : Text) : Bool :=
  level == .sheet true && Text.sameLetters name "charset".toList

/-- Ends the selector of a style rule.  In no block a semicolon is a part of the selector. -/
def endsSelector : Level → Component → Bool
  | .sheet _, c => c.isCurly
  | .group, c => c.endsPrelude

/-- Ends a declaration of a custom property where a style rule is expected. -/
def endsCustomProperty : Level → Component → Bool
  | .sheet _, c => c.isCurly
  | .group, c => c.isSemicolon

/-- The declaration that starts with `c`, where one may stand.  A value with a block in curly
brackets makes none. -/
def declaration? (level : Level) (stop : Place) (c : Component) (rest : List Component) :
    Option Declaration :=
  match level, c.token? with
  | .group, some (.ident name) =>
    if (before Component.isSemicolon rest).any Component.isCurly then none
    else Declaration.read? name c.start stop rest
  | _, _ => none

end Level

/-- Whether components start as a declaration of a custom property does: with a name that starts
with two hyphens, and a colon. -/
def startsCustomProperty : List Component → Bool
  | [] => false
  | c :: rest =>
    match c.token? with
    | some (.ident name) =>
      "--".toList.isPrefixOf name && (Component.skipBlank rest).head?.any (·.is .colon)
    | _ => false

/-- The nodes of a list of components that ends at `stop`. -/
def nodes (level : Level) (stop : Place) : List Component → List Node
  | [] => []
  | c :: rest =>
    if level.isGap c then nodes level stop rest
    else match c.token? with
      | some (.atKeyword name) =>
        let params := sourceText (before Component.endsPrelude rest)
        let keep (n : Node) := if level.dropsAtRule name then [] else [n]
        match _eq : rest.dropWhile (fun c => !c.endsPrelude) with
        | [] => keep (.atRule name params none [] c.start c.start)
        | .leaf _ :: more =>
          keep (.atRule name params none [] c.start c.start) ++ nodes level.next stop more
        | .block _ content _ blockStop :: more =>
          keep (.atRule name params (some (sourceText content)) (nodes .group blockStop content)
            c.start blockStop) ++ nodes level.next stop more
      | _ =>
        match level.declaration? stop c rest with
        | some d => .declaration d :: nodes level.next stop (after Component.isSemicolon rest)
        | none =>
          if startsCustomProperty (c :: rest) then
            nodes level.next stop (after level.endsCustomProperty rest)
          else
            match _eq : (c :: rest).dropWhile (fun c => !level.endsSelector c) with
            | [] => []
            | .leaf _ :: more => nodes level.next stop more
            | .block _ content _ blockStop :: more =>
              .rule (sourceText (before level.endsSelector (c :: rest)))
                (declarations blockStop content) c.start blockStop ::
              nodes level.next stop more
termination_by cs => sizeOf cs
decreasing_by
  · simp only [List.cons.sizeOf_spec]; omega
  · have := sizeOf_dropWhile_le (fun c => !c.endsPrelude) rest
    simp only [_eq, List.cons.sizeOf_spec] at this ⊢; omega
  · have := sizeOf_dropWhile_le (fun c => !c.endsPrelude) rest
    simp only [_eq, List.cons.sizeOf_spec, Component.block.sizeOf_spec] at this ⊢; omega
  · have := sizeOf_dropWhile_le (fun c => !c.endsPrelude) rest
    simp only [_eq, List.cons.sizeOf_spec] at this ⊢; omega
  · have := sizeOf_after_le Component.isSemicolon rest
    simp only [List.cons.sizeOf_spec]; omega
  · have := sizeOf_after_le level.endsCustomProperty rest
    simp only [List.cons.sizeOf_spec]; omega
  · have := sizeOf_dropWhile_le (fun c => !level.endsSelector c) (c :: rest)
    simp only [_eq, List.cons.sizeOf_spec] at this ⊢; omega
  · have := sizeOf_dropWhile_le (fun c => !level.endsSelector c) (c :: rest)
    simp only [_eq, List.cons.sizeOf_spec] at this ⊢; omega

namespace Node

/-- The statements of a stylesheet. -/
def ofText (t : Text) : List Node :=
  nodes (.sheet true) (({} : Place).after t) (Component.ofText t)

end Node

end StyleSieve.Css
