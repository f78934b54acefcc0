import Mathlib.Logic.Basic
import StyleSieve.Proofs.Css.Nodes

/-!
# Stylesheets without places

Nothing that is read depends on where it stands.  So what is read of a text, the places left out
(`bare`), can be computed without them.

* `Lexeme.bareOf_cons`: the first lexeme of a text, and the others.
* `Component.bareOf_ofText`: the components of a text.
* `Node.bareOf_nodes`: the nodes of some components.
-/

namespace StyleSieve.Css

/-! ### Lexemes -/

namespace Lexeme

/-- A lexeme without its place. -/
def bare (l : Lexeme) : Lexeme := { l with start := {} }

/-- The lexemes of a text without their places. -/
def bareOf (t : Text) : List Lexeme := (ofText t).map bare

theorem ofTextFrom_skip (skip : Nat) (place : Place) (t : Text) :
    ofTextFrom skip place t = ofTextFrom 0 place (t.drop skip) := by
  induction t generalizing skip with
  | nil => simp [ofTextFrom]
  | cons c t ih =>
      cases skip with
      | zero => rfl
      | succ skip => exact ih skip

theorem ofTextFrom_cons (place : Place) (c : Char) (t : Text) :
    ofTextFrom 0 place (c :: t) =
      ⟨(Token.tokenAt c t).1, c :: t.take (Token.tokenAt c t).2, place⟩ ::
        ofTextFrom 0 (place.after (c :: t.take (Token.tokenAt c t).2))
          (t.drop (Token.tokenAt c t).2) := by
  rw [ofTextFrom, ← ofTextFrom_skip]

/-- Induction over a text lexeme by lexeme. -/
theorem textInduction {P : Text → Prop} (nil : P [])
    (cons : ∀ c t, P (t.drop (Token.tokenAt c t).2) → P (c :: t)) (t : Text) : P t := by
  induction hn : t.length using Nat.strongRecOn generalizing t with
  | ind n ih =>
      subst hn
      cases t with
      | nil => exact nil
      | cons c t =>
          exact cons c t (ih _ (by rw [List.length_drop, List.length_cons]; omega) _ rfl)

/-- Where a text starts does not matter for its lexemes. -/
theorem map_bare_ofTextFrom (place : Place) (t : Text) :
    (ofTextFrom 0 place t).map bare = bareOf t := by
  induction t using textInduction generalizing place with
  | nil => rfl
  | cons c t ih =>
      rw [bareOf, ofText, ofTextFrom_cons, ofTextFrom_cons, List.map_cons, List.map_cons, ih, ih]
      rfl

@[simp] theorem bareOf_nil : bareOf [] = [] := rfl

theorem bareOf_cons (c : Char) (t : Text) :
    bareOf (c :: t) =
      ⟨(Token.tokenAt c t).1, c :: t.take (Token.tokenAt c t).2, {}⟩ ::
        bareOf (t.drop (Token.tokenAt c t).2) := by
  rw [bareOf, ofText, ofTextFrom_cons, List.map_cons, map_bare_ofTextFrom]
  rfl

end Lexeme

/-! ### Components -/

namespace Component

mutual

/-- A component without places. -/
def bare : Component → Component
  | .leaf lexeme => .leaf lexeme.bare
  | .block opening content closing _ =>
    .block opening.bare (bareOf content) (closing.map Lexeme.bare) {}

/-- Some components without places. -/
def bareOf : List Component → List Component
  | [] => []
  | c :: rest => c.bare :: bareOf rest

end

theorem bareOf_eq (cs : List Component) : bareOf cs = cs.map bare := by
  induction cs with
  | nil => rfl
  | cons c cs ih => rw [bareOf, ih, List.map_cons]

mutual

theorem textOnto_bare (behind : Text) : (c : Component) → c.bare.textOnto behind = c.textOnto behind
  | .leaf lexeme => rfl
  | .block opening content closing stop => by
    rw [bare, textOnto, textOnto, textOfOnto_bareOf, Option.map_map]
    rfl

theorem textOfOnto_bareOf (behind : Text) :
    (cs : List Component) → textOfOnto (bareOf cs) behind = textOfOnto cs behind
  | [] => rfl
  | c :: rest => by
    rw [bareOf, textOfOnto, textOfOnto, textOnto_bare, textOfOnto_bareOf]

end

theorem textOf_bareOf (cs : List Component) : textOf (bareOf cs) = textOf cs :=
  textOfOnto_bareOf [] cs

variable (c : Component)

@[simp] theorem token?_bare : c.bare.token? = c.token? := by cases c <;> rfl

@[simp] theorem is_bare (token : Token) : c.bare.is token = c.is token := by
  rw [is, is, token?_bare]

@[simp] theorem isBlank_bare : c.bare.isBlank = c.isBlank := by simp [isBlank]

@[simp] theorem isCurly_bare : c.bare.isCurly = c.isCurly := by cases c <;> rfl

@[simp] theorem isSemicolon_bare : c.bare.isSemicolon = c.isSemicolon := by simp [isSemicolon]

@[simp] theorem endsPrelude_bare : c.bare.endsPrelude = c.endsPrelude := by simp [endsPrelude]

@[simp] theorem start_bare : c.bare.start = {} := by cases c <;> rfl

/-- The end of the innermost level reached so far. -/
def Pending.bare (p : Pending) : Pending := ⟨p.opening.bare, bareOf p.before⟩

/-- What has been read, without places. -/
def Nesting.bare (n : Nesting) : Nesting := ⟨bareOf n.level, n.outer.map Pending.bare⟩

theorem bareOf_reverse (cs : List Component) : bareOf cs.reverse = (bareOf cs).reverse := by
  rw [bareOf_eq, bareOf_eq, List.map_reverse]

theorem Nesting.step_bare (n : Nesting) (lexeme : Lexeme) :
    (n.step lexeme).bare = n.bare.step lexeme.bare := by
  obtain ⟨level, outer⟩ := n
  obtain ⟨token, text, start⟩ := lexeme
  cases token with
  | closing bracket =>
      cases outer with
      | nil => rfl
      | cons p outer =>
          obtain ⟨opening, before⟩ := p
          simp only [step, Nesting.bare, List.map_cons, Pending.bare, Lexeme.bare]
          split
          · simp only [Component.bareOf, Component.bare, bareOf_reverse]
            rfl
          · rfl
  | opening => rfl
  | _ => rfl

theorem Nesting.close_bare (stop : Place) (level : List Component) (outer : List Pending) :
    bareOf (close stop level outer) = close {} (bareOf level) (outer.map Pending.bare) := by
  induction outer generalizing level with
  | nil => exact bareOf_reverse level
  | cons p outer ih =>
      simp only [close, ih, List.map_cons, Pending.bare, Component.bareOf, Component.bare,
        bareOf_reverse, Option.map_none]

theorem bareOf_ofLexemes (lexemes : List Lexeme) (stop : Place) :
    bareOf (ofLexemes lexemes stop) = ofLexemes (lexemes.map Lexeme.bare) {} := by
  have hfold (n : Nesting) :
      (lexemes.foldl Nesting.step n).bare =
        (lexemes.map Lexeme.bare).foldl Nesting.step n.bare := by
    induction lexemes generalizing n with
    | nil => rfl
    | cons l lexemes ih => rw [List.foldl_cons, ih, Nesting.step_bare]; rfl
  have hend := hfold {}
  rw [ofLexemes, ofLexemes, Nesting.close_bare]
  exact congrArg₂ (Nesting.close {}) (congrArg Nesting.level hend) (congrArg Nesting.outer hend)

/-- The components of a text without places are those of its lexemes without places. -/
theorem bareOf_ofText (t : Text) : bareOf (ofText t) = ofLexemes (Lexeme.bareOf t) {} :=
  bareOf_ofLexemes _ _

/-! ### Lists of components -/

variable {p : Component → Bool} {cs : List Component}

theorem takeWhile_bareOf (h : ∀ c, p (bare c) = p c) :
    (bareOf cs).takeWhile p = bareOf (cs.takeWhile p) := by
  rw [bareOf_eq, bareOf_eq, List.takeWhile_map]
  exact congrArg (fun q => (cs.takeWhile q).map bare) (funext h)

theorem dropWhile_bareOf (h : ∀ c, p (bare c) = p c) :
    (bareOf cs).dropWhile p = bareOf (cs.dropWhile p) := by
  rw [bareOf_eq, bareOf_eq, List.dropWhile_map]
  exact congrArg (fun q => (cs.dropWhile q).map bare) (funext h)

end Component

open Component in
theorem before_bareOf {ends : Component → Bool} (h : ∀ c, ends (bare c) = ends c)
    (cs : List Component) : before ends (bareOf cs) = bareOf (before ends cs) :=
  takeWhile_bareOf fun c => by rw [h]

open Component in
theorem after_bareOf {ends : Component → Bool} (h : ∀ c, ends (bare c) = ends c)
    (cs : List Component) : after ends (bareOf cs) = bareOf (after ends cs) := by
  rw [after, after, dropWhile_bareOf fun c => by rw [h], bareOf_eq, bareOf_eq, List.map_drop]

theorem sourceText_bareOf (cs : List Component) :
    sourceText (Component.bareOf cs) = sourceText cs := by
  rw [sourceText, sourceText, Component.textOf_bareOf]

/-! ### Nodes -/

/-- A declaration without places. -/
def Declaration.bare (d : Declaration) : Declaration := { d with start := {}, stop := {} }

namespace Node

mutual

/-- A node without places. -/
def bare : Node → Node
  | .rule selector declarations _ _ => .rule selector (declarations.map Declaration.bare) {} {}
  | .atRule name params block children _ _ => .atRule name params block (bareOf children) {} {}
  | .declaration d => .declaration d.bare

/-- Some nodes without places. -/
def bareOf : List Node → List Node
  | [] => []
  | n :: nodes => n.bare :: bareOf nodes

end

theorem bareOf_append (ns ms : List Node) : bareOf (ns ++ ms) = bareOf ns ++ bareOf ms := by
  induction ns with
  | nil => rfl
  | cons n ns ih => rw [List.cons_append, bareOf, ih, bareOf, List.cons_append]

end Node

open Component in
theorem startOf_bareOf (cs : List Component) : startOf (bareOf cs) {} = {} := by
  cases cs with
  | nil => rfl
  | cons c cs => exact start_bare c

theorem read?_bareOf (name : Text) (start stop : Place) (rest : List Component) :
    Declaration.read? name {} {} (Component.bareOf rest) =
      (Declaration.read? name start stop rest).map Declaration.bare := by
  unfold Declaration.read?
  rw [Component.skipBlank, Component.dropWhile_bareOf Component.isBlank_bare, ← Component.skipBlank]
  cases Component.skipBlank rest with
  | nil => rfl
  | cons colon value =>
      simp only [Component.bareOf, Component.is_bare]
      split
      · rw [before_bareOf Component.isSemicolon_bare, sourceText_bareOf,
          Component.dropWhile_bareOf (by simp), startOf_bareOf]
        rfl
      · rfl

/-- Where a list of components stands does not matter for its declarations. -/
theorem declarations_bareOf (stop : Place) (cs : List Component) :
    declarations {} (Component.bareOf cs) = (declarations stop cs).map Declaration.bare := by
  have hafter (rest : List Component) : after Component.endsPrelude (Component.bareOf rest) =
      Component.bareOf (after Component.endsPrelude rest) :=
    after_bareOf Component.endsPrelude_bare rest
  have hafter' (rest : List Component) : after Component.isSemicolon (Component.bareOf rest) =
      Component.bareOf (after Component.isSemicolon rest) :=
    after_bareOf Component.isSemicolon_bare rest
  fun_induction declarations stop cs with
  | case1 => simp [declarations, Component.bareOf]
  | case2 c rest name hc ih =>
      simp only [Component.bareOf, declarations, Component.token?_bare, hc, hafter, ih]
  | case3 c rest name hc ih =>
      simp only [Component.bareOf, declarations, Component.token?_bare, hc, hafter', ih,
        Component.start_bare, read?_bareOf name c.start stop, List.map_append]
      cases Declaration.read? name c.start stop rest <;> rfl
  | case4 c rest hc ih | case5 c rest hc ih | case6 c rest hc ih =>
      simp only [Component.bareOf, declarations, Component.token?_bare, hc, ih]
  | case7 c rest h₁ h₂ h₃ h₄ h₅ ih =>
      rw [Component.bareOf, declarations, Component.token?_bare]
      split
      case h_1 name e => exact absurd e (h₁ name)
      case h_2 name e => exact absurd e (h₂ name)
      case h_3 e => exact absurd e h₃
      case h_4 e => exact absurd e h₄
      case h_5 e => exact absurd e h₅
      case h_6 => rw [hafter', ih]

namespace Level

variable (level : Level)

@[simp] theorem isGap_bare (c : Component) : level.isGap c.bare = level.isGap c := by
  cases level <;> simp [isGap]

@[simp] theorem endsSelector_bare (c : Component) :
    level.endsSelector c.bare = level.endsSelector c := by
  cases level <;> simp [endsSelector]

@[simp] theorem endsCustomProperty_bare (c : Component) :
    level.endsCustomProperty c.bare = level.endsCustomProperty c := by
  cases level <;> simp [endsCustomProperty]

theorem declaration?_bareOf (stop : Place) (c : Component) (rest : List Component) :
    level.declaration? {} c.bare (Component.bareOf rest) =
      (level.declaration? stop c rest).map Declaration.bare := by
  have hcurly : (before Component.isSemicolon (Component.bareOf rest)).any Component.isCurly =
      (before Component.isSemicolon rest).any Component.isCurly := by
    rw [before_bareOf Component.isSemicolon_bare, Component.bareOf_eq, List.any_map]
    exact congrArg (List.any _) (funext Component.isCurly_bare)
  unfold declaration?
  rw [Component.token?_bare]
  cases level with
  | sheet first => rfl
  | group =>
      split
      case h_1 name _ _ =>
        rw [hcurly, Component.start_bare, read?_bareOf name c.start stop]
        split <;> rfl
      case h_2 => rfl

end Level

theorem startsCustomProperty_bareOf (cs : List Component) :
    startsCustomProperty (Component.bareOf cs) = startsCustomProperty cs := by
  cases cs with
  | nil => rfl
  | cons c rest =>
      have hcolon : (Component.skipBlank (Component.bareOf rest)).head?.any (·.is .colon) =
          (Component.skipBlank rest).head?.any (·.is .colon) := by
        rw [Component.skipBlank, Component.dropWhile_bareOf Component.isBlank_bare,
          ← Component.skipBlank]
        cases Component.skipBlank rest with
        | nil => rfl
        | cons colon _ => exact Component.is_bare colon .colon
      simp only [Component.bareOf, startsCustomProperty, Component.token?_bare, hcolon]

theorem Component.NotAt.bare {c : Component} (h : c.NotAt) : c.bare.NotAt := by
  simpa [NotAt] using h

theorem Level.StartsRule.bare {level : Level} {stop : Place} {c : Component}
    {rest : List Component} (h : level.StartsRule stop c rest) :
    level.StartsRule {} c.bare (Component.bareOf rest) where
  notGap := by rw [isGap_bare, h.notGap]
  notAt := h.notAt.bare
  notDeclaration := by rw [level.declaration?_bareOf stop, h.notDeclaration, Option.map_none]
  notCustom := by rw [← Component.bareOf, startsCustomProperty_bareOf, h.notCustom]

theorem Level.bareOf_keep (level : Level) (name : Text) (n : Node) :
    Node.bareOf (level.keep name n) = level.keep name n.bare := by
  unfold keep
  split <;> rfl

namespace Node

/-- Where a list of components stands does not matter for its nodes. -/
theorem bareOf_nodes (level : Level) (stop : Place) (cs : List Component) :
    bareOf (nodes level stop cs) = nodes level {} (Component.bareOf cs) := by
  have hprelude {rest ended : List Component}
      (h : rest.dropWhile (fun c => !c.endsPrelude) = ended) :
      (Component.bareOf rest).dropWhile (fun c => !c.endsPrelude) = Component.bareOf ended := by
    rw [Component.dropWhile_bareOf (by simp), h]
  have hselector {level : Level} {rest ended : List Component}
      (h : rest.dropWhile (fun c => !level.endsSelector c) = ended) :
      (Component.bareOf rest).dropWhile (fun c => !level.endsSelector c) =
        Component.bareOf ended := by
    rw [Component.dropWhile_bareOf (by simp), h]
  fun_induction nodes level stop cs with
  | case1 => simp [nodes, Component.bareOf, bareOf]
  | case2 level stop c rest hgap ih =>
      rw [ih, Component.bareOf, nodes_cons_gap (by simpa using hgap)]
  | case3 level stop c rest hgap name hc params keep h =>
      have hname : c.bare.token? = some (.atKeyword name) := by rw [Component.token?_bare, hc]
      rw [Component.bareOf, nodes_cons_atRule_open hname (hprelude h),
        before_bareOf Component.endsPrelude_bare, sourceText_bareOf, Component.start_bare]
      exact level.bareOf_keep name _
  | case4 level stop c rest hgap name hc params keep lexeme more h ih =>
      have hname : c.bare.token? = some (.atKeyword name) := by rw [Component.token?_bare, hc]
      rw [Component.bareOf, nodes_cons_atRule_leaf hname (hprelude h), bareOf_append, ih,
        before_bareOf Component.endsPrelude_bare, sourceText_bareOf, Component.start_bare]
      exact congrArg (· ++ _) (level.bareOf_keep name _)
  | case5 level stop c rest _ name hc _ _ opening content closing blockStop more h ih ih' =>
      have hname : c.bare.token? = some (.atKeyword name) := by rw [Component.token?_bare, hc]
      rw [Component.bareOf, nodes_cons_atRule_block hname (hprelude h), bareOf_append, ih',
        before_bareOf Component.endsPrelude_bare, sourceText_bareOf, sourceText_bareOf,
        Component.start_bare, ← ih]
      exact congrArg (· ++ _) (level.bareOf_keep name _)
  | case6 level stop c rest hgap d hd hat ih =>
      have hd' : level.declaration? {} c.bare (Component.bareOf rest) = some d.bare := by
        rw [level.declaration?_bareOf stop, hd, Option.map_some]
      rw [Component.bareOf, nodes_cons_declaration (by simpa using hgap) (Component.NotAt.bare hat)
        hd', after_bareOf Component.isSemicolon_bare, ← ih]
      rfl
  | case7 level stop c rest hgap hd hcustom hat ih =>
      have hd' : level.declaration? {} c.bare (Component.bareOf rest) = none := by
        rw [level.declaration?_bareOf stop, hd, Option.map_none]
      have hcustom' : startsCustomProperty (Component.bareOf (c :: rest)) = true := by
        rw [startsCustomProperty_bareOf, hcustom]
      rw [Component.bareOf] at hcustom' ⊢
      rw [nodes_cons_custom (by simpa using hgap) (Component.NotAt.bare hat) hd' hcustom', ih,
        after_bareOf level.endsCustomProperty_bare]
  | case8 level stop c rest hgap hd hcustom h hat =>
      have hrule : level.StartsRule stop c rest :=
        ⟨by simpa using hgap, hat, hd, by simpa using hcustom⟩
      rw [Component.bareOf, nodes_cons_rule_open hrule.bare (hselector h)]
      rfl
  | case9 level stop c rest hgap hd hcustom lexeme more h hat ih =>
      have hrule : level.StartsRule stop c rest :=
        ⟨by simpa using hgap, hat, hd, by simpa using hcustom⟩
      rw [Component.bareOf, nodes_cons_rule_leaf hrule.bare (hselector h), ih]
  | case10 level stop c rest hgap hd hcustom opening content closing blockStop more h hat ih =>
      have hrule : level.StartsRule stop c rest :=
        ⟨by simpa using hgap, hat, hd, by simpa using hcustom⟩
      rw [Component.bareOf, nodes_cons_rule_block hrule.bare (hselector h), ← Component.bareOf,
        before_bareOf level.endsSelector_bare, sourceText_bareOf, Component.start_bare,
        declarations_bareOf blockStop, ← ih]
      rfl

end Node

end StyleSieve.Css
