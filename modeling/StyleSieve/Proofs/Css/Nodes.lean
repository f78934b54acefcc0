import StyleSieve.Css.Node
import StyleSieve.Proofs.Text.Blank

/-!
# What a list of components starts with

`nodes` reads a statement, a declaration or a gap, then what is left.  There is one equation for
each, by the first component and by the component that ends the statement.

* `nodes_cons_gap`: what may stand between statements.
* `nodes_cons_atRule_open`, `nodes_cons_atRule_leaf`, `nodes_cons_atRule_block`: an at-rule.
* `nodes_cons_declaration`, `nodes_cons_custom`: a declaration, and one that is passed over.
* `nodes_cons_rule_open`, `nodes_cons_rule_leaf`, `nodes_cons_rule_block`: a style rule.
* `Node.areTidy_ofText`: what nodes hold is trimmed.
-/

namespace StyleSieve.Css

/-- A declaration starts with its name, and its value is trimmed source text. -/
theorem Declaration.read?_spec {name : Text} {start stop : Place} {rest : List Component}
    {d : Declaration} (h : Declaration.read? name start stop rest = some d) :
    d.start = start ∧ ∃ cs, d.value = sourceText cs := by
  unfold read? at h
  split at h
  case h_1 colon value _ =>
    split at h
    · obtain rfl := Option.some.inj h
      exact ⟨rfl, _, rfl⟩
    · cases h
  case h_2 => cases h

theorem Declaration.read?_colon {colon : Component} (h : colon.is .colon = true) (name : Text)
    (start stop : Place) (value : List Component) :
    Declaration.read? name start stop (colon :: value) =
      some { property := name
             value := sourceText (before Component.isSemicolon value)
             start
             stop := Component.startOf (value.dropWhile (fun c => !c.isSemicolon)) stop } := by
  have hblank : colon.isBlank = false := by
    have htoken : colon.token? = some .colon := by simpa [Component.is] using h
    simp [Component.isBlank, Component.is, htoken]
  have hskip : Component.skipBlank (colon :: value) = colon :: value :=
    List.dropWhile_cons_of_neg (by simp [hblank])
  rw [read?, hskip]
  exact if_pos h

theorem Level.declaration?_spec {level : Level} {stop : Place} {c : Component}
    {rest : List Component} {d : Declaration} (h : level.declaration? stop c rest = some d) :
    d.start = c.start ∧ ∃ cs, d.value = sourceText cs := by
  unfold declaration? at h
  split at h
  case h_1 =>
    split at h
    · cases h
    · exact Declaration.read?_spec h
  case h_2 => cases h

theorem declarations_cons_space {stop : Place} {c : Component} {rest : List Component}
    (h : c.token? = some .space) : declarations stop (c :: rest) = declarations stop rest := by
  rw [declarations, h]

theorem declarations_cons_ident {stop : Place} {c : Component} {rest : List Component}
    {name : Text} (h : c.token? = some (.ident name)) :
    declarations stop (c :: rest) =
      (Declaration.read? name c.start stop rest).toList ++
        declarations stop (after Component.isSemicolon rest) := by
  rw [declarations, h]

/-- An at-rule, unless it is passed over. -/
def Level.keep (level : Level) (name : Text) (n : Node) : List Node :=
  if level.dropsAtRule name then [] else [n]

/-- No at-rule starts with the component. -/
def Component.NotAt (c : Component) : Prop := ∀ name, c.token? ≠ some (.atKeyword name)

/-- A style rule starts where a statement may: no at-rule does, nor a declaration. -/
structure Level.StartsRule (level : Level) (stop : Place) (c : Component) (rest : List Component) :
    Prop where
  notGap : level.isGap c = false
  notAt : c.NotAt
  notDeclaration : level.declaration? stop c rest = none
  notCustom : startsCustomProperty (c :: rest) = false

variable {level : Level} {stop : Place} {c : Component} {rest : List Component}

theorem Level.isGap_of_atKeyword {name : Text} (hc : c.token? = some (.atKeyword name)) :
    level.isGap c = false := by
  cases level <;> simp [isGap, Component.isBlank, Component.isSemicolon, Component.is, hc]

theorem nodes_cons_gap (h : level.isGap c = true) :
    nodes level stop (c :: rest) = nodes level stop rest := by
  rw [nodes, if_pos h]

section AtRule

variable {name : Text} (hc : c.token? = some (.atKeyword name))
include hc

/-- An at-rule that nothing ends. -/
theorem nodes_cons_atRule_open (h : rest.dropWhile (fun c => !c.endsPrelude) = []) :
    nodes level stop (c :: rest) =
      level.keep name (.atRule name (sourceText (before Component.endsPrelude rest)) none []
        c.start c.start) := by
  rw [nodes, if_neg (by simp [Level.isGap_of_atKeyword hc])]
  simp only [hc]
  split
  case h_1 => rfl
  all_goals simp_all

/-- An at-rule that a semicolon ends. -/
theorem nodes_cons_atRule_leaf {lexeme : Lexeme} {more : List Component}
    (h : rest.dropWhile (fun c => !c.endsPrelude) = .leaf lexeme :: more) :
    nodes level stop (c :: rest) =
      level.keep name
          (.atRule name (sourceText (before Component.endsPrelude rest)) none [] c.start c.start) ++
        nodes level.next stop more := by
  rw [nodes, if_neg (by simp [Level.isGap_of_atKeyword hc])]
  simp only [hc]
  split
  case h_2 => simp_all [Level.keep]
  all_goals simp_all

/-- An at-rule that its block ends. -/
theorem nodes_cons_atRule_block {opening : Lexeme} {content : List Component}
    {closing : Option Lexeme} {blockStop : Place} {more : List Component}
    (h : rest.dropWhile (fun c => !c.endsPrelude) =
      .block opening content closing blockStop :: more) :
    nodes level stop (c :: rest) =
      level.keep name
          (.atRule name (sourceText (before Component.endsPrelude rest)) (some (sourceText content))
            (nodes .group blockStop content) c.start blockStop) ++
        nodes level.next stop more := by
  rw [nodes, if_neg (by simp [Level.isGap_of_atKeyword hc])]
  simp only [hc]
  split
  case h_3 => simp_all [Level.keep]
  all_goals simp_all

end AtRule

/-- Where no at-rule starts, a declaration does, or a custom property that is passed over, or a
style rule. -/
theorem nodes_cons_other (hgap : level.isGap c = false) (hat : c.NotAt) :
    nodes level stop (c :: rest) =
      match level.declaration? stop c rest with
      | some d => .declaration d :: nodes level.next stop (after Component.isSemicolon rest)
      | none =>
        if startsCustomProperty (c :: rest) then
          nodes level.next stop (after level.endsCustomProperty rest)
        else
          match (c :: rest).dropWhile (fun c => !level.endsSelector c) with
          | [] => []
          | .leaf _ :: more => nodes level.next stop more
          | .block _ content _ blockStop :: more =>
            .rule (sourceText (before level.endsSelector (c :: rest)))
              (declarations blockStop content) c.start blockStop :: nodes level.next stop more := by
  rw [nodes, if_neg (by simp [hgap])]
  split
  case h_1 name hc => exact absurd hc (hat name)
  case h_2 =>
    cases level.declaration? stop c rest with
    | some d => rfl
    | none =>
        refine ite_congr rfl (fun _ => rfl) fun _ => ?_
        split
        case h_1 hend => rw [hend]
        case h_2 hend => rw [hend]
        case h_3 hend => rw [hend]

theorem nodes_cons_declaration {d : Declaration} (hgap : level.isGap c = false) (hat : c.NotAt)
    (hd : level.declaration? stop c rest = some d) :
    nodes level stop (c :: rest) =
      .declaration d :: nodes level.next stop (after Component.isSemicolon rest) := by
  rw [nodes_cons_other hgap hat, hd]

theorem nodes_cons_custom (hgap : level.isGap c = false) (hat : c.NotAt)
    (hd : level.declaration? stop c rest = none)
    (hcustom : startsCustomProperty (c :: rest) = true) :
    nodes level stop (c :: rest) = nodes level.next stop (after level.endsCustomProperty rest) := by
  rw [nodes_cons_other hgap hat, hd]
  exact if_pos hcustom

section Rule

variable (hrule : level.StartsRule stop c rest)
include hrule

/-- A style rule that nothing ends. -/
theorem nodes_cons_rule_open (h : (c :: rest).dropWhile (fun c => !level.endsSelector c) = []) :
    nodes level stop (c :: rest) = [] := by
  rw [nodes_cons_other hrule.notGap hrule.notAt, hrule.notDeclaration, hrule.notCustom, h]
  rfl

/-- A style rule that a semicolon ends. -/
theorem nodes_cons_rule_leaf {lexeme : Lexeme} {more : List Component}
    (h : (c :: rest).dropWhile (fun c => !level.endsSelector c) = .leaf lexeme :: more) :
    nodes level stop (c :: rest) = nodes level.next stop more := by
  rw [nodes_cons_other hrule.notGap hrule.notAt, hrule.notDeclaration, hrule.notCustom, h]
  rfl

/-- A style rule that its block ends. -/
theorem nodes_cons_rule_block {opening : Lexeme} {content : List Component}
    {closing : Option Lexeme} {blockStop : Place} {more : List Component}
    (h : (c :: rest).dropWhile (fun c => !level.endsSelector c) =
      .block opening content closing blockStop :: more) :
    nodes level stop (c :: rest) =
      .rule (sourceText (before level.endsSelector (c :: rest))) (declarations blockStop content)
          c.start blockStop :: nodes level.next stop more := by
  rw [nodes_cons_other hrule.notGap hrule.notAt, hrule.notDeclaration, hrule.notCustom, h]
  rfl

end Rule

/-! ### What nodes hold -/

mutual

/-- The texts that a node holds are trimmed, and without a block it holds no nodes. -/
def Node.IsTidy : Node → Prop
  | .declaration d => d.value.IsTrimmed
  | .rule selector declarations _ _ => selector.IsTrimmed ∧ ∀ d ∈ declarations, d.value.IsTrimmed
  | .atRule _ params block children _ _ =>
    params.IsTrimmed ∧ (∀ source ∈ block, Text.IsTrimmed source) ∧ (block = none → children = []) ∧
      Node.AreTidy children

/-- Some nodes are tidy. -/
def Node.AreTidy : List Node → Prop
  | [] => True
  | n :: nodes => n.IsTidy ∧ Node.AreTidy nodes

end

theorem Node.areTidy_iff {ns : List Node} : AreTidy ns ↔ ∀ n ∈ ns, n.IsTidy := by
  induction ns with
  | nil => simp [AreTidy]
  | cons n ns ih => rw [AreTidy, ih, List.forall_mem_cons]

theorem isTrimmed_sourceText (cs : List Component) : (sourceText cs).IsTrimmed :=
  Text.isTrimmed_trim _

theorem Node.AreTidy.append {ns ms : List Node} (hns : AreTidy ns) (hms : AreTidy ms) :
    AreTidy (ns ++ ms) :=
  areTidy_iff.2 (List.forall_mem_append.2 ⟨areTidy_iff.1 hns, areTidy_iff.1 hms⟩)

theorem Node.areTidy_keep (level : Level) (name : Text) (prelude : List Component)
    {block : Option Text} {children : List Node} (start stop : Place)
    (hblock : ∀ source ∈ block, Text.IsTrimmed source) (hnone : block = none → children = [])
    (hchildren : AreTidy children) :
    AreTidy
      (level.keep name (.atRule name (sourceText prelude) block children start stop)) := by
  unfold Level.keep
  split
  · exact trivial
  · exact ⟨⟨isTrimmed_sourceText prelude, hblock, hnone, hchildren⟩, trivial⟩

theorem Node.areTidy_keep_none (level : Level) (name : Text) (prelude : List Component)
    (start stop : Place) :
    AreTidy (level.keep name (.atRule name (sourceText prelude) none [] start stop)) :=
  areTidy_keep level name prelude start stop (fun _ h => nomatch h) (fun _ => rfl) trivial

theorem isTrimmed_declarations (stop : Place) (cs : List Component) :
    ∀ d ∈ declarations stop cs, d.value.IsTrimmed := by
  fun_induction declarations stop cs with
  | case1 => exact fun _ h => nomatch h
  | case3 c rest name _ ih =>
      intro d hd
      rcases List.mem_append.1 hd with hd | hd
      · obtain ⟨-, cs, hvalue⟩ := Declaration.read?_spec (Option.mem_toList.1 hd)
        exact hvalue ▸ isTrimmed_sourceText cs
      · exact ih d hd
  | case2 _ _ _ _ ih | case4 _ _ _ ih | case5 _ _ _ ih | case6 _ _ _ ih
  | case7 _ _ _ _ _ _ _ ih => exact ih

theorem areTidy_nodes (level : Level) (stop : Place) (cs : List Component) :
    Node.AreTidy (nodes level stop cs) := by
  fun_induction nodes level stop cs with
  | case1 => exact trivial
  | case2 _ _ _ _ _ ih => exact ih
  | case3 level => exact Node.areTidy_keep_none level _ _ _ _
  | case4 level _ _ _ _ _ _ _ _ _ _ _ ih =>
      exact (Node.areTidy_keep_none level _ _ _ _).append ih
  | case5 level _ _ _ _ _ _ _ _ _ content _ _ _ _ ih ih' =>
      refine (Node.areTidy_keep level _ _ _ _ ?_ ?_ ih).append ih'
      · rintro source hsource
        exact Option.some.inj hsource ▸ isTrimmed_sourceText content
      · exact fun h => nomatch h
  | case6 _ _ _ _ _ d hd _ ih =>
      obtain ⟨-, cs, hvalue⟩ := Level.declaration?_spec hd
      have htrimmed : d.value.IsTrimmed := hvalue ▸ isTrimmed_sourceText cs
      exact ⟨htrimmed, ih⟩
  | case7 _ _ _ _ _ _ _ _ ih => exact ih
  | case8 => exact trivial
  | case9 _ _ _ _ _ _ _ _ _ _ _ ih => exact ih
  | case10 _ _ _ _ _ _ _ _ _ _ _ _ _ _ ih =>
      exact ⟨⟨isTrimmed_sourceText _, isTrimmed_declarations _ _⟩, ih⟩

/-- The nodes of a text are tidy. -/
theorem Node.areTidy_ofText (t : Text) : AreTidy (ofText t) := areTidy_nodes _ _ _

end StyleSieve.Css
