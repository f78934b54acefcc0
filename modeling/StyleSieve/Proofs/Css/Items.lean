import StyleSieve.Proofs.Css.Nodes

/-!
# What the block of a style rule holds

`items` reads the block of a style rule as nesting has it: declarations, rules and at-rules, with
what stands in their blocks, however deep.  An identifier with a colon starts a declaration, unless
a block in curly brackets and something else stand in its value; then it starts a nested rule.

* `items_cons_atRule`, `items_cons_declaration`, `items_cons_rule`: what a block starts with.
* `behind_items`: passing over items up to a semicolon, and reading on after it.
-/

namespace StyleSieve.Css

open Component (isSemicolon isCurly endsPrelude skipBlank)

/-! ### The items of a block -/

/-- What stands in the block of a style rule. -/
inductive Item where
  | declaration (declaration : Declaration)
  /-- A nested rule: what stands before its block, and the items of the block. -/
  | rule (prelude : List Component) (items : List Item) (start stop : Place)
  /-- An at-rule: its name without the `@`, what stands before its block, and the source text of
  the block, if it has one, with the items in it. -/
  | atRule (name params : Text) (block : Option Text) (items : List Item) (start stop : Place)
  /-- A semicolon that ends none of these. -/
  | semicolon

/-- The property that components start a declaration of: an identifier with a colon behind it. -/
def property? : List Component → Option Text
  | [] => none
  | c :: rest =>
    match c.token? with
    | some (.ident name) => if (skipBlank rest).head?.any (·.is .colon) then some name else none
    | _ => none

/-- Components without `!important` at their end. -/
def withoutImportant (cs : List Component) : List Component :=
  match cs.reverse with
  | word :: mark :: rest =>
    match word.token? with
    | some (.ident name) =>
      if mark.is (.delim '!') && Text.sameLetters name "important".toList then rest.reverse else cs
    | _ => cs
  | _ => cs

/-- Whether components can be the value of a property.  A block in curly brackets is the whole value
or none of it. -/
def isValue (cs : List Component) : Bool :=
  !cs.any isCurly || (withoutImportant (cs.filter fun c => !c.isBlank)).length == 1

/-- The declaration that starts with `c`, where a nested rule may stand instead.  A custom property
takes any value. -/
def Item.declaration? (stop : Place) (c : Component) (rest : List Component) : Option Declaration :=
  match c.token? with
  | some (.ident name) =>
    if "--".toList.isPrefixOf name || isValue (before isSemicolon ((skipBlank rest).drop 1)) then
      Declaration.read? name c.start stop rest
    else none
  | _ => none

/-- The items of a list of components that ends at `stop`. -/
def items (stop : Place) : List Component → List Item
  | [] => []
  | c :: rest =>
    if c.isBlank then items stop rest
    else if c.isSemicolon then .semicolon :: items stop rest
    else match c.token? with
      | some (.atKeyword name) =>
        let params := sourceText (before endsPrelude rest)
        match _eq : rest.dropWhile (fun c => !c.endsPrelude) with
        | [] => [.atRule name params none [] c.start c.start]
        | .leaf _ :: more => .atRule name params none [] c.start c.start :: items stop more
        | .block _ content _ blockStop :: more =>
          .atRule name params (some (sourceText content)) (items blockStop content) c.start
            blockStop :: items stop more
      | _ =>
        match Item.declaration? stop c rest with
        | some d => .declaration d :: items stop (after isSemicolon rest)
        | none =>
          match _eq : (c :: rest).dropWhile (fun c => !c.endsPrelude) with
          | [] => []
          | .leaf _ :: more => .semicolon :: items stop more
          | .block _ content _ blockStop :: more =>
            .rule (before endsPrelude (c :: rest)) (items blockStop content) c.start blockStop ::
              items stop more
termination_by cs => sizeOf cs
decreasing_by
  · simp only [List.cons.sizeOf_spec]; omega
  · simp only [List.cons.sizeOf_spec]; omega
  · have := sizeOf_dropWhile_le (fun c => !c.endsPrelude) rest
    simp only [_eq, List.cons.sizeOf_spec] at this ⊢; omega
  · have := sizeOf_dropWhile_le (fun c => !c.endsPrelude) rest
    simp only [_eq, List.cons.sizeOf_spec, Component.block.sizeOf_spec] at this ⊢; omega
  · have := sizeOf_dropWhile_le (fun c => !c.endsPrelude) rest
    simp only [_eq, List.cons.sizeOf_spec] at this ⊢; omega
  · have := sizeOf_after_le isSemicolon rest
    simp only [List.cons.sizeOf_spec]; omega
  · have := sizeOf_dropWhile_le (fun c => !c.endsPrelude) (c :: rest)
    simp only [_eq, List.cons.sizeOf_spec] at this ⊢; omega
  · have := sizeOf_dropWhile_le (fun c => !c.endsPrelude) (c :: rest)
    simp only [_eq, List.cons.sizeOf_spec, Component.block.sizeOf_spec] at this ⊢; omega
  · have := sizeOf_dropWhile_le (fun c => !c.endsPrelude) (c :: rest)
    simp only [_eq, List.cons.sizeOf_spec] at this ⊢; omega

namespace Item

/-- A semicolon ends the item, or would if one stood there. -/
def endsWithSemicolon : Item → Bool
  | .declaration _ | .semicolon => true
  | .rule .. => false
  | .atRule _ _ block _ _ _ => block.isNone

/-- A nested rule. -/
def isRule : Item → Bool
  | .rule .. => true
  | _ => false

/-- The declaration of an item that is one. -/
def declared? : Item → Option Declaration
  | .declaration d => some d
  | _ => none

mutual

/-- The declarations in an item, however deep. -/
def allDeclared : Item → List Declaration
  | .declaration d => [d]
  | .rule _ items _ _ => allDeclaredIn items
  | .atRule _ _ _ items _ _ => allDeclaredIn items
  | .semicolon => []

/-- The declarations in some items, however deep. -/
def allDeclaredIn : List Item → List Declaration
  | [] => []
  | i :: is => i.allDeclared ++ allDeclaredIn is

end

end Item

/-- The declarations among some items, nested rules and at-rules left aside. -/
def declaredIn (is : List Item) : List Declaration := is.filterMap Item.declared?

/-- The items after the first that ends with a semicolon. -/
def behind : List Item → List Item
  | [] => []
  | i :: is => if i.endsWithSemicolon then is else behind is

/-- The declarations that no nested rule stands before, back to the nearest semicolon or the start.
`clear` says whether none stands before the first item. -/
def settled : (clear : Bool) → List Item → List Declaration
  | _, [] => []
  | clear, i :: is =>
    (if clear then i.declared?.toList else []) ++
      settled (i.endsWithSemicolon || clear && !i.isRule) is

theorem behind_cons_of {i : Item} {is : List Item} (h : i.endsWithSemicolon = true) :
    behind (i :: is) = is := by
  rw [behind, if_pos h]

theorem behind_cons_of_not {i : Item} {is : List Item} (h : i.endsWithSemicolon = false) :
    behind (i :: is) = behind is := by
  rw [behind, if_neg (by simp [h])]

theorem settled_false (is : List Item) : settled false is = settled true (behind is) := by
  induction is with
  | nil => rfl
  | cons i is ih =>
      rw [settled]
      cases hends : i.endsWithSemicolon with
      | true => simp [behind_cons_of hends]
      | false => simpa [behind_cons_of_not hends] using ih

/-! ### Where a reader goes on -/

variable {stop : Place} {c : Component} {rest cs more : List Component} {name : Text}

theorem after_cons_of_not {ends : Component → Bool} (h : ends c = false) :
    after ends (c :: rest) = after ends rest := by
  rw [after, after, List.dropWhile_cons_of_pos (by simp [h])]

theorem after_cons_of {ends : Component → Bool} (h : ends c = true) :
    after ends (c :: rest) = rest := by
  rw [after, List.dropWhile_cons_of_neg (by simp [h])]
  rfl

/-- No semicolon stands before the end of a prelude. -/
theorem after_dropWhile (cs : List Component) :
    after isSemicolon (cs.dropWhile fun c => !c.endsPrelude) = after isSemicolon cs := by
  induction cs with
  | nil => rfl
  | cons c cs ih =>
      by_cases hends : c.endsPrelude = true
      · rw [List.dropWhile_cons_of_neg (by simp [hends])]
      · rw [List.dropWhile_cons_of_pos (by simpa using hends), ih]
        refine (after_cons_of_not ?_).symm
        rw [endsPrelude, Bool.or_eq_true, not_or] at hends
        exact Bool.eq_false_iff.2 hends.1

theorem after_of_open (h : (cs.dropWhile fun c => !c.endsPrelude) = []) :
    after isSemicolon cs = [] := by
  rw [← after_dropWhile, h]
  rfl

theorem after_of_leaf {lexeme : Lexeme}
    (h : (cs.dropWhile fun c => !c.endsPrelude) = .leaf lexeme :: more) :
    after isSemicolon cs = more := by
  have hends : (Component.leaf lexeme).endsPrelude = true := by
    have hhead := List.head?_dropWhile_not (fun c : Component => !c.endsPrelude) cs
    rw [h] at hhead
    simpa using hhead
  rw [endsPrelude, isCurly, Bool.or_false] at hends
  rw [← after_dropWhile, h, after_cons_of hends]

theorem after_of_block {opening : Lexeme} {content : List Component} {closing : Option Lexeme}
    {blockStop : Place}
    (h : (cs.dropWhile fun c => !c.endsPrelude) =
      .block opening content closing blockStop :: more) :
    after isSemicolon cs = after isSemicolon more := by
  rw [← after_dropWhile, h]
  exact after_cons_of_not rfl

/-! ### What a list of components starts with -/

/-- A nested rule starts where neither a gap, an at-rule nor a declaration does. -/
structure Item.StartsRule (stop : Place) (c : Component) (rest : List Component) : Prop where
  notBlank : c.isBlank = false
  notSemicolon : c.isSemicolon = false
  notAt : c.NotAt
  notDeclaration : Item.declaration? stop c rest = none

theorem isBlank_of_token {token : Token} (hc : c.token? = some token) (hspace : token ≠ .space)
    (hcomment : token ≠ .comment) : c.isBlank = false := by
  simp [Component.isBlank, Component.is, hc, hspace, hcomment]

theorem isSemicolon_of_token {token : Token} (hc : c.token? = some token)
    (h : token ≠ .semicolon) : c.isSemicolon = false := by
  simp [isSemicolon, Component.is, hc, h]

theorem token?_of_isBlank (h : c.isBlank = true) :
    c.token? = some .space ∨ c.token? = some .comment := by
  simpa [Component.isBlank, Component.is] using h

theorem isSemicolon_of_isBlank (h : c.isBlank = true) : c.isSemicolon = false := by
  rcases token?_of_isBlank h with h | h
  · exact isSemicolon_of_token h (by simp)
  · exact isSemicolon_of_token h (by simp)

theorem items_nil (stop : Place) : items stop [] = [] := by
  rw [items]

theorem items_cons_blank (h : c.isBlank = true) : items stop (c :: rest) = items stop rest := by
  rw [items, if_pos h]

theorem items_cons_semicolon (h : c.isSemicolon = true) :
    items stop (c :: rest) = .semicolon :: items stop rest := by
  have hc : c.token? = some .semicolon := by simpa [isSemicolon, Component.is] using h
  rw [items, if_neg (by simp [isBlank_of_token hc]), if_pos h]

/-- An at-rule is an item up to where its prelude or its block ends. -/
theorem items_cons_atRule (hc : c.token? = some (.atKeyword name)) (stop : Place)
    (rest : List Component) :
    ∃ params block nested atStop, items stop (c :: rest) =
      .atRule name params block nested c.start atStop :: items stop (after endsPrelude rest) := by
  rw [items, if_neg (by simp [isBlank_of_token hc]), if_neg (by simp [isSemicolon_of_token hc])]
  simp only [hc]
  split
  case h_1 h => exact ⟨_, _, _, _, by rw [after, h, List.drop_nil, items_nil]⟩
  case h_2 h => exact ⟨_, _, _, _, by rw [after, h]; rfl⟩
  case h_3 h => exact ⟨_, _, _, _, by rw [after, h]; rfl⟩

theorem items_cons_declaration {d : Declaration} (hd : Item.declaration? stop c rest = some d) :
    items stop (c :: rest) = .declaration d :: items stop (after isSemicolon rest) := by
  have hc : ∃ name, c.token? = some (.ident name) := by
    unfold Item.declaration? at hd
    split at hd
    case h_1 name h => exact ⟨name, h⟩
    case h_2 => cases hd
  obtain ⟨name, hc⟩ := hc
  rw [items, if_neg (by simp [isBlank_of_token hc]), if_neg (by simp [isSemicolon_of_token hc])]
  simp only [hc]
  split
  case h_1 d' h => rw [Option.some.inj (h.symm.trans hd)]
  case h_2 h => exact nomatch hd.symm.trans h

theorem items_cons_rule (hrule : Item.StartsRule stop c rest) :
    items stop (c :: rest) =
      match (c :: rest).dropWhile (fun c => !c.endsPrelude) with
      | [] => []
      | .leaf _ :: more => .semicolon :: items stop more
      | .block _ content _ blockStop :: more =>
        .rule (before endsPrelude (c :: rest)) (items blockStop content) c.start blockStop ::
          items stop more := by
  rw [items, if_neg (by simp [hrule.notBlank]), if_neg (by simp [hrule.notSemicolon])]
  split
  case h_1 name hc => exact absurd hc (hrule.notAt name)
  case h_2 =>
    split
    case h_1 h => exact nomatch h.symm.trans hrule.notDeclaration
    case h_2 =>
      split
      case h_1 h => rw [h]
      case h_2 h => rw [h]
      case h_3 h => rw [h]

/-- A reader that passes over items up to a semicolon goes on where one does that passes over
components up to a semicolon. -/
theorem behind_items (stop : Place) (cs : List Component) :
    behind (items stop cs) = items stop (after isSemicolon cs) := by
  have hnext {c : Component} {rest : List Component} (h : ¬c.isSemicolon = true) :
      after isSemicolon (c :: rest) = after isSemicolon rest :=
    after_cons_of_not (Bool.eq_false_iff.2 h)
  fun_induction items stop cs with
  | case1 stop => exact (items_nil stop).symm
  | case2 stop c rest hblank ih =>
      rw [ih, after_cons_of_not (isSemicolon_of_isBlank hblank)]
  | case3 stop c rest _ hsemicolon ih => rw [behind_cons_of rfl, after_cons_of hsemicolon]
  | case4 stop c rest _ hsemicolon name _ params hend =>
      rw [behind_cons_of rfl, hnext hsemicolon, after_of_open hend, items_nil]
  | case5 stop c rest _ hsemicolon name _ params lexeme more hend ih =>
      rw [behind_cons_of rfl, hnext hsemicolon, after_of_leaf hend]
  | case6 stop c rest _ hsemicolon name _ params opening content closing blockStop more hend _ ih =>
      rw [behind_cons_of_not rfl, ih, hnext hsemicolon, after_of_block hend]
  | case7 stop c rest _ hsemicolon d _ _ ih => rw [behind_cons_of rfl, hnext hsemicolon]
  | case8 stop c rest _ _ _ hend _ => rw [after_of_open hend, items_nil, behind]
  | case9 stop c rest _ _ _ lexeme more hend _ ih => rw [behind_cons_of rfl, after_of_leaf hend]
  | case10 stop c rest _ _ _ opening content closing blockStop more hend _ _ ih =>
      rw [behind_cons_of_not rfl, ih, after_of_block hend]

end StyleSieve.Css
