import StyleSieve.Proofs.Css.Items

/-!
# What is read of a block

`declarations` knows no nested rules.  Where one stands it reads a declaration, or none, and goes on
after the next semicolon.

* `yields_declarations`: the declarations of a block, item by item.
* `carries_declarations`: every declaration is there that no nested rule stands before; without
  nested rules the declarations are those of the block; and what else is there starts where a
  nested rule does.
-/

namespace StyleSieve.Css

open Component (isSemicolon isCurly endsPrelude skipBlank)

variable {stop : Place} {c : Component} {rest cs : List Component} {name : Text}

/-! ### What starts as a declaration does -/

section Blank

variable {p : Component → Bool} (hp : ∀ c, c.isBlank = true → p c = true)
include hp

theorem skipBlank_takeWhile (cs : List Component) :
    skipBlank (cs.takeWhile p) = (skipBlank cs).takeWhile p := by
  induction cs with
  | nil => rfl
  | cons c cs ih =>
      by_cases hblank : c.isBlank = true
      · rw [List.takeWhile_cons_of_pos (hp c hblank), skipBlank, skipBlank,
          List.dropWhile_cons_of_pos hblank, List.dropWhile_cons_of_pos hblank]
        exact ih
      · have hskip (ds : List Component) : skipBlank (c :: ds) = c :: ds :=
          List.dropWhile_cons_of_neg hblank
        rw [hskip]
        by_cases hc : p c = true
        · rw [List.takeWhile_cons_of_pos hc, hskip]
        · rw [List.takeWhile_cons_of_neg hc]
          rfl

theorem dropWhile_skipBlank (cs : List Component) :
    (skipBlank cs).dropWhile p = cs.dropWhile p := by
  induction cs with
  | nil => rfl
  | cons c cs ih =>
      by_cases hblank : c.isBlank = true
      · rw [skipBlank, List.dropWhile_cons_of_pos hblank, List.dropWhile_cons_of_pos (hp c hblank)]
        exact ih
      · rw [skipBlank, List.dropWhile_cons_of_neg hblank]

end Blank

theorem not_endsPrelude_of_token {token : Token} (hc : c.token? = some token)
    (h : token ≠ .semicolon) : c.endsPrelude = false := by
  cases c with
  | leaf lexeme => rw [endsPrelude, isSemicolon_of_token hc h, isCurly, Bool.or_false]
  | block => cases hc

theorem not_endsPrelude_of_isBlank (h : c.isBlank = true) : (!c.endsPrelude) = true := by
  rcases token?_of_isBlank h with h | h
  · rw [not_endsPrelude_of_token h (by simp), Bool.not_false]
  · rw [not_endsPrelude_of_token h (by simp), Bool.not_false]

/-- An identifier starts a declaration if there is a colon behind it. -/
theorem property?_of_ident (hc : c.token? = some (.ident name)) (start stop : Place) :
    property? (c :: rest) = (Declaration.read? name start stop rest).map Declaration.property := by
  simp only [property?, hc]
  rw [Declaration.read?]
  cases skipBlank rest with
  | nil => rfl
  | cons colon value =>
      by_cases hcolon : colon.is .colon = true
      · simp [hcolon]
      · simp [hcolon]

theorem property?_of_not (hc : ∀ name, c.token? ≠ some (.ident name)) :
    property? (c :: rest) = none := by
  rw [property?]
  split
  case h_1 name h => exact absurd h (hc name)
  case h_2 => rfl

/-- What stands before the block of a rule says whether it starts as a declaration does. -/
theorem property?_before (cs : List Component) :
    property? (before endsPrelude cs) = property? cs := by
  have hnot {c : Component} {token : Token} (hends : c.endsPrelude = true)
      (h : token ≠ .semicolon) : c.token? ≠ some token := by
    intro hc
    rw [not_endsPrelude_of_token hc h] at hends
    cases hends
  have hcolon (cs : List Component) :
      (cs.takeWhile fun c => !c.endsPrelude).head?.any (·.is .colon) =
        cs.head?.any (·.is .colon) := by
    cases cs with
    | nil => rfl
    | cons c cs =>
        by_cases hends : c.endsPrelude = true
        · rw [List.takeWhile_cons_of_neg (by simp [hends])]
          simp [Component.is, hnot hends]
        · rw [List.takeWhile_cons_of_pos (by simpa using hends)]
          rfl
  cases cs with
  | nil => rfl
  | cons c rest =>
      by_cases hends : c.endsPrelude = true
      · rw [before, List.takeWhile_cons_of_neg (by simp [hends]),
          property?_of_not fun name => hnot hends (by simp)]
        rfl
      · rw [before, List.takeWhile_cons_of_pos (by simpa using hends)]
        simp only [property?, skipBlank_takeWhile fun c => not_endsPrelude_of_isBlank, hcolon]

theorem Item.declaration?_of_ident (hc : c.token? = some (.ident name)) :
    Item.declaration? stop c rest =
      if "--".toList.isPrefixOf name || isValue (before isSemicolon ((skipBlank rest).drop 1)) then
        Declaration.read? name c.start stop rest
      else none := by
  simp only [declaration?, hc]

theorem Item.declaration?_of_not (hc : ∀ name, c.token? ≠ some (.ident name)) :
    Item.declaration? stop c rest = none := by
  unfold declaration?
  split
  case h_1 name h => exact absurd h (hc name)
  case h_2 => rfl

/-- A block in curly brackets ends the prelude that some components start with. -/
def EndsInBlock (cs : List Component) : Prop :=
  ∃ opening content closing blockStop more, (cs.dropWhile fun c => !c.endsPrelude) =
    .block opening content closing blockStop :: more

theorem endsInBlock_of_any (h : (before isSemicolon cs).any isCurly = true) : EndsInBlock cs := by
  induction cs with
  | nil => cases h
  | cons c cs ih =>
      by_cases hcurly : c.isCurly = true
      · have hends : c.endsPrelude = true := by rw [endsPrelude, hcurly, Bool.or_true]
        rw [EndsInBlock, List.dropWhile_cons_of_neg (by simp [hends])]
        cases c with
        | leaf => cases hcurly
        | block opening content closing blockStop => exact ⟨_, _, _, _, _, rfl⟩
      · by_cases hsemicolon : c.isSemicolon = true
        · rw [before, List.takeWhile_cons_of_neg (by simp [hsemicolon])] at h
          cases h
        · rw [before, List.takeWhile_cons_of_pos (by simpa using hsemicolon), List.any_cons,
            Bool.eq_false_iff.2 hcurly, Bool.false_or] at h
          rw [EndsInBlock, List.dropWhile_cons_of_pos (by simp [endsPrelude, hcurly, hsemicolon])]
          exact ih h

/-- A declaration that is taken for a nested rule has the block of one. -/
theorem endsInBlock_of_read? {d : Declaration} (hc : c.token? = some (.ident name))
    (hnone : Item.declaration? stop c rest = none)
    (hread : Declaration.read? name c.start stop rest = some d) : EndsInBlock (c :: rest) := by
  rw [Item.declaration?_of_ident hc, hread] at hnone
  unfold Declaration.read? at hread
  split at hread
  case h_1 colon value hskip =>
    split at hread
    case isTrue hcolon =>
      -- the value holds a block, for it is none
      have hvalue : (before isSemicolon value).any isCurly = true := by
        rw [hskip, List.drop_one, List.tail_cons] at hnone
        cases h : (before isSemicolon value).any isCurly with
        | true => rfl
        | false => simp [isValue, h] at hnone
      have hends : colon.endsPrelude = false :=
        not_endsPrelude_of_token (by simpa [Component.is] using hcolon) (by simp)
      rw [EndsInBlock, List.dropWhile_cons_of_pos (by simp [not_endsPrelude_of_token hc]),
        ← dropWhile_skipBlank fun c => not_endsPrelude_of_isBlank, hskip,
        List.dropWhile_cons_of_pos (by simp [hends])]
      exact endsInBlock_of_any hvalue
    case isFalse => cases hread
  case h_2 => cases hread

/-! ### Declarations, item by item -/

/-- What is read of some items.  A nested rule that starts as a declaration does is read as one, any
other not at all, and both take what stands behind them up to a semicolon. -/
inductive Yields : List Item → List Declaration → Prop where
  | nil : Yields [] []
  | declaration {d : Declaration} {is : List Item} {ds : List Declaration} :
      Yields is ds → Yields (.declaration d :: is) (d :: ds)
  | other {i : Item} {is : List Item} {ds : List Declaration} :
      i.isRule = false → i.declared? = none → Yields is ds → Yields (i :: is) ds
  | passed {prelude : List Component} {nested is : List Item} {start stop : Place}
      {ds : List Declaration} :
      property? prelude = none → Yields (behind is) ds →
        Yields (.rule prelude nested start stop :: is) ds
  | misread {prelude : List Component} {nested is : List Item} {start stop : Place}
      {d : Declaration} {ds : List Declaration} :
      property? prelude = some d.property → d.start = start → Yields (behind is) ds →
        Yields (.rule prelude nested start stop :: is) (d :: ds)

/-- A nested rule is read as the declaration that it starts as, if it does, and what stands behind
it is read from the next semicolon on.  Without a block it is no rule, and nothing is read. -/
theorem yields_rule (hrule : Item.StartsRule stop c rest) {o : Option Declaration}
    (hproperty : property? (c :: rest) = o.map Declaration.property)
    (hstart : ∀ d ∈ o, d.start = c.start)
    (hblock : ∀ d ∈ o, EndsInBlock (c :: rest)) {ds : List Declaration}
    (ih : Yields (items stop (after isSemicolon rest)) ds) :
    Yields (items stop (c :: rest)) (o.toList ++ ds) := by
  have hnone (h : ¬EndsInBlock (c :: rest)) : o = none := by
    cases o with
    | none => rfl
    | some d => exact absurd (hblock d rfl) h
  rw [← after_cons_of_not (c := c) hrule.notSemicolon] at ih
  rw [items_cons_rule hrule]
  split
  case h_1 h =>
    rw [after_of_open h, items_nil] at ih
    rw [hnone (by simp [EndsInBlock, h])]
    exact ih
  case h_2 lexeme more h =>
    rw [after_of_leaf h] at ih
    rw [hnone (by simp [EndsInBlock, h])]
    exact .other rfl rfl ih
  case h_3 opening content closing blockStop more h =>
    rw [after_of_block h, ← behind_items] at ih
    rw [← property?_before] at hproperty
    cases o with
    | none => exact .passed hproperty ih
    | some d => exact .misread hproperty (hstart d rfl) ih

theorem yields_declarations (stop : Place) (cs : List Component) :
    Yields (items stop cs) (declarations stop cs) := by
  fun_induction declarations stop cs with
  | case1 =>
      rw [items_nil]
      exact .nil
  | case2 c rest name hc ih =>
      obtain ⟨params, block, nested, atStop, h⟩ := items_cons_atRule hc stop rest
      rw [h]
      exact .other rfl rfl ih
  | case3 c rest name hc ih =>
      cases hd : Item.declaration? stop c rest with
      | some d =>
          have hread : Declaration.read? name c.start stop rest = some d := by
            rw [Item.declaration?_of_ident hc] at hd
            split at hd
            · exact hd
            · cases hd
          rw [items_cons_declaration hd, hread]
          exact .declaration ih
      | none =>
          have hat : c.NotAt := by
            intro other h
            rw [hc] at h
            cases h
          have hrule : Item.StartsRule stop c rest :=
            ⟨isBlank_of_token hc (by simp) (by simp), isSemicolon_of_token hc (by simp), hat, hd⟩
          exact yields_rule hrule (property?_of_ident hc _ _)
            (fun d hread => (Declaration.read?_spec hread).1)
            (fun d hread => endsInBlock_of_read? hc hd hread) ih
  | case4 c rest hc ih | case5 c rest hc ih =>
      rw [items_cons_blank (by simp [Component.isBlank, Component.is, hc])]
      exact ih
  | case6 c rest hc ih =>
      rw [items_cons_semicolon (by simp [isSemicolon, Component.is, hc])]
      exact .other rfl rfl ih
  | case7 c rest hat hident hspace hcomment hsemicolon ih =>
      have hrule : Item.StartsRule stop c rest :=
        ⟨by simpa [Component.isBlank, Component.is] using ⟨hspace, hcomment⟩,
          by simpa [isSemicolon, Component.is] using hsemicolon, hat,
          Item.declaration?_of_not hident⟩
      exact yields_rule hrule (o := none) (property?_of_not hident) (by simp) (by simp) ih

/-! ### What the declarations are to the items -/

/-- A nested rule among the items starts as the declaration does, at the same place. -/
def StartsAs (is : List Item) (d : Declaration) : Prop :=
  ∃ prelude nested stop,
    Item.rule prelude nested d.start stop ∈ is ∧ property? prelude = some d.property

/-- What the declarations of a block are to its items. -/
structure Carries (is : List Item) (ds : List Declaration) : Prop where
  /-- No declaration is lost but behind a nested rule, and none changes its place. -/
  kept : (settled true is).Sublist ds
  /-- Without nested rules there are those of the block and no others. -/
  exact : (∀ i ∈ is, i.isRule = false) → ds = declaredIn is
  /-- What is no declaration of the block is what a nested rule was taken for. -/
  only : ∀ d ∈ ds, d ∈ declaredIn is ∨ StartsAs is d

theorem mem_of_mem_behind {i : Item} {is : List Item} (h : i ∈ behind is) : i ∈ is := by
  induction is with
  | nil => cases h
  | cons j is ih =>
      rw [behind] at h
      split at h
      · exact List.mem_cons_of_mem _ h
      · exact List.mem_cons_of_mem _ (ih h)

theorem Carries.only_mono {is js : List Item} {ds : List Declaration} (h : Carries is ds)
    (hsub : ∀ i ∈ is, i ∈ js) :
    ∀ d ∈ ds, d ∈ declaredIn js ∨ StartsAs js d := by
  intro d hd
  rcases h.only d hd with hmem | ⟨prelude, nested, stop, hmem, hproperty⟩
  · obtain ⟨i, hi, hdeclared⟩ := List.mem_filterMap.1 hmem
    exact .inl (List.mem_filterMap.2 ⟨i, hsub i hi, hdeclared⟩)
  · exact .inr ⟨prelude, nested, stop, hsub _ hmem, hproperty⟩

theorem Item.not_forall_isRule {prelude : List Component} {nested is : List Item}
    {start stop : Place} :
    ¬∀ i ∈ Item.rule prelude nested start stop :: is, i.isRule = false := by
  intro h
  have hfirst := h _ List.mem_cons_self
  rw [isRule] at hfirst
  cases hfirst

theorem Yields.carries {is : List Item} {ds : List Declaration} (h : Yields is ds) :
    Carries is ds := by
  induction h with
  | nil => exact ⟨List.nil_sublist _, fun _ => rfl, fun _ hd => absurd hd List.not_mem_nil⟩
  | @declaration d is ds _ ih =>
      refine ⟨ih.kept.cons_cons d, fun h => ?_, fun e he => ?_⟩
      · rw [ih.exact fun i hi => h i (List.mem_cons_of_mem _ hi)]
        rfl
      · rcases List.mem_cons.1 he with rfl | he
        · exact .inl List.mem_cons_self
        · exact ih.only_mono (fun _ => List.mem_cons_of_mem _) e he
  | @other i is ds hrule hdeclared _ ih =>
      refine ⟨?_, fun h => ?_, ih.only_mono fun _ => List.mem_cons_of_mem _⟩
      · simpa [settled, hrule, hdeclared] using ih.kept
      · rw [ih.exact fun i hi => h i (List.mem_cons_of_mem _ hi), declaredIn, declaredIn,
          List.filterMap_cons_none hdeclared]
  | @passed prelude nested is start stop ds _ _ ih =>
      refine ⟨?_, fun h => absurd h Item.not_forall_isRule,
        ih.only_mono fun _ hi => List.mem_cons_of_mem _ (mem_of_mem_behind hi)⟩
      simpa [settled, Item.endsWithSemicolon, Item.isRule, Item.declared?, settled_false]
        using ih.kept
  | @misread prelude nested is start stop d ds hproperty hstart _ ih =>
      refine ⟨?_, fun h => absurd h Item.not_forall_isRule, fun e he => ?_⟩
      · refine List.Sublist.cons d ?_
        simpa [settled, Item.endsWithSemicolon, Item.isRule, Item.declared?, settled_false]
          using ih.kept
      · rcases List.mem_cons.1 he with rfl | he
        · exact .inr ⟨prelude, nested, stop, by rw [hstart]; exact List.mem_cons_self, hproperty⟩
        · exact ih.only_mono (fun _ hi => List.mem_cons_of_mem _ (mem_of_mem_behind hi)) e he

theorem carries_declarations (stop : Place) (cs : List Component) :
    Carries (items stop cs) (declarations stop cs) :=
  (yields_declarations stop cs).carries

/-- The nested rule is taken for a declaration, and the declaration behind it for a part of that. -/
example :
    let content := Component.ofText
      "color: red; b:hover \x7b top: 0 \x7d left: 0; margin: 0".toList
    let names (ds : List Declaration) := ds.map (String.ofList ·.property)
    names (declaredIn (items {} content)) = ["color", "left", "margin"] ∧
      names (settled true (items {} content)) = ["color", "margin"] ∧
      names (declarations {} content) = ["color", "b", "margin"] := by
  decide +kernel

end StyleSieve.Css
