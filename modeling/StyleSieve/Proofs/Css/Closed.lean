import Mathlib.Data.List.TakeWhile
import StyleSieve.Proofs.Css.Written

/-!
# Stylesheets one behind the other

A stylesheet is closed if it ends with a semicolon or a closed block, and space (`isClosed`).  It
stands alone if besides a statement behind it is read as one, and its own first statement is one
anywhere (`standsAlone`).  Stylesheets that stand alone are read one by one.

* `Component.closed_spec`: what a closed stylesheet is read as.
* `Component.bareOf_ofText_append`: the components of two stylesheets.
* `separates_or_swallows`: what follows some components is read as it is alone, or a statement that
  follows them is not read as one.
* `bareOf_ofText_flatten`: the nodes of stylesheets that stand alone.
-/

namespace StyleSieve.Css

/-! ### Lexemes -/

namespace Lexeme

/-- A space is nothing but spaces. -/
theorem exists_of_space {t : Text} {l : Lexeme} (h : l ∈ bareOf t) (htoken : l.token = .space) :
    ∃ c s, l = ⟨.space, c :: s, {}⟩ ∧ isSpace c = true ∧ ∀ d ∈ s, isSpace d = true := by
  obtain ⟨c, rest, rfl⟩ := exists_of_mem_bareOf h
  dsimp only at htoken
  have hc : isSpace c = true := by
    have hstart := Token.startsWith_tokenAt c rest
    rwa [htoken] at hstart
  have hextent : (Token.tokenAt c rest).2 = (rest.takeWhile isSpace).length := by
    unfold Token.tokenAt
    rw [if_pos hc]
  have htake : rest.take (rest.takeWhile isSpace).length = rest.takeWhile isSpace :=
    (List.prefix_iff_eq_take.1 (List.takeWhile_prefix isSpace)).symm
  rw [htoken, hextent, htake]
  exact ⟨c, _, rfl, hc, List.all_eq_true.1 List.all_takeWhile⟩

/-- Spaces that no space follows are one space. -/
theorem bareOf_space {c : Char} {s rest : Text} (hc : isSpace c = true)
    (hs : ∀ d ∈ s, isSpace d = true) (hrest : NoSpaceNext rest) :
    bareOf (c :: (s ++ rest)) = ⟨.space, c :: s, {}⟩ :: bareOf rest := by
  rw [bareOf_cons, Token.tokenAt_space hc hs hrest, List.take_left, List.drop_left]

end Lexeme

/-! ### Components -/

namespace Component

/-- The stylesheet ends with a semicolon or a closed block, and space. -/
def isClosed (t : Text) : Bool :=
  match (bareOf (ofText t)).reverse with
  | space :: last :: _ => space.is .space && last.endsPrelude
  | _ => false

/-- What follows a level that is in no block is read as it is alone. -/
theorem Nesting.On.close {n own all : Nesting} (h : n.On own all) (hn : n.outer = []) :
    Nesting.close {} all.level all.outer =
      n.level.reverse ++ Nesting.close {} own.level own.outer := by
  obtain ⟨level, outer⟩ := own
  induction outer generalizing level all with
  | nil =>
      cases h
      simp [Nesting.close, hn]
  | cons p outer ih =>
      cases h with
      | block opening cs h =>
          rw [Nesting.close, Nesting.close]
          exact ih _ (h.push (.block opening level.reverse none {}))

/-- A block or a semicolon that ends a prelude is read last, outside blocks: its last lexeme is a
stop. -/
theorem Nesting.stop_of_step {t : Text} {n : Nesting} {l : Lexeme} {c : Component}
    {cs : List Component} (hl : l ∈ Lexeme.bareOf t) (h : n.step l = ⟨c :: cs, []⟩)
    (hc : c.endsPrelude = true) :
    ∃ b, isStop b = true ∧ l.text = [b] ∧
      ∀ rest, Lexeme.bareOf (b :: rest) = l :: Lexeme.bareOf rest := by
  rcases eq_of_step h with ⟨-, rfl⟩ | ⟨opening, bracket, rfl, hopening, hclosing⟩
  · have htoken : l.token = .semicolon := by
      simpa [endsPrelude, isSemicolon, isCurly, is, token?] using hc
    obtain rfl := Lexeme.eq_semicolon hl htoken
    exact ⟨';', rfl, rfl, fun rest => Lexeme.bareOf_cons ';' rest⟩
  · have hcurly : bracket = .curly := by
      simpa [endsPrelude, isSemicolon, isCurly, is, token?, hopening] using hc
    obtain rfl := Lexeme.eq_closing hl (hcurly ▸ hclosing)
    exact ⟨'}', rfl, rfl, fun rest => Lexeme.bareOf_cons '}' rest⟩

/-- A closed stylesheet leaves no block open, and what it is read as does not depend on what stands
behind it. -/
theorem closed_spec {t : Text} (h : isClosed t = true) :
    (∀ rest, NoSpaceNext rest →
        Lexeme.bareOf (t ++ rest) = Lexeme.bareOf t ++ Lexeme.bareOf rest) ∧
      (Lexeme.bareOf t).foldl Nesting.step {} = ⟨(bareOf (ofText t)).reverse, []⟩ := by
  unfold isClosed at h
  split at h
  case h_2 => cases h
  case h_1 w e cs heq =>
    obtain ⟨hw, he⟩ := Bool.and_eq_true_iff.1 h
    have hcs : bareOf (ofText t) = ofLexemes (Lexeme.bareOf t) {} := bareOf_ofText t
    have hw' : (ofLexemes (Lexeme.bareOf t) {}).getLast? = some w := by
      rw [← hcs, ← List.head?_reverse, heq]
      rfl
    have hfold := Nesting.fold_of_getLast? hw' (by rintro opening cs rfl; cases hw)
    rw [← hcs] at hfold
    refine ⟨fun rest hrest => ?_, hfold⟩
    -- the last lexeme is the space, and the one before it a stop
    rw [heq] at hfold
    obtain ⟨ms, lw, hls, hstep⟩ := Nesting.exists_of_fold hfold
    obtain ⟨hms, rfl⟩ : ms.foldl Nesting.step {} = ⟨e :: cs, []⟩ ∧ w = .leaf lw := by
      rcases Nesting.eq_of_step hstep with h | ⟨opening, bracket, rfl, -⟩
      · exact h
      · cases hw
    obtain ⟨ls, le, rfl, hlast⟩ := Nesting.exists_of_fold hms
    have hmem : ∀ l ∈ ls ++ [le] ++ [lw], l ∈ Lexeme.bareOf t := fun l => hls ▸ id
    obtain ⟨b, hb, htext, hread⟩ := Nesting.stop_of_step (hmem le (by simp)) hlast he
    obtain ⟨c, s, rfl, hc, hs⟩ :=
      Lexeme.exists_of_space (hmem lw (by simp)) (by simpa [is, token?] using hw)
    have hspace : Lexeme.bareOf (c :: s) = [⟨.space, c :: s, {}⟩] := by
      have hnone : NoSpaceNext [] := rfl
      simpa using Lexeme.bareOf_space hc hs hnone
    have ht : t = ls.flatMap Lexeme.text ++ b :: c :: s := by
      rw [← Lexeme.flatMap_text_bareOf t, hls]
      simp [htext]
    have hstop : Lexeme.bareOf (ls.flatMap Lexeme.text ++ b :: c :: s) =
        ls ++ Lexeme.bareOf (b :: c :: s) := by
      rw [← ht, hls, hread, hspace, List.append_assoc]
      rfl
    rw [hls, ht, List.append_assoc, List.cons_append, List.cons_append,
      Lexeme.bareOf_append_stop hb hb hstop, hread, Lexeme.bareOf_space hc hs hrest]
    simp

/-- The components of two stylesheets, the first one closed. -/
theorem bareOf_ofText_append {t rest : Text} (h : isClosed t = true) (hrest : NoSpaceNext rest) :
    bareOf (ofText (t ++ rest)) = bareOf (ofText t) ++ bareOf (ofText rest) := by
  obtain ⟨hlex, hfold⟩ := closed_spec h
  have hon : Nesting.On ⟨(bareOf (ofText t)).reverse, []⟩
      ((Lexeme.bareOf rest).foldl Nesting.step {})
      ((Lexeme.bareOf rest).foldl Nesting.step ⟨(bareOf (ofText t)).reverse, []⟩) :=
    (Nesting.On.level []).foldl (by simp [Nesting.InCurly]) fun h => absurd rfl h
  have hclose := hon.close rfl
  rw [List.reverse_reverse] at hclose
  rw [bareOf_ofText (t ++ rest), hlex rest hrest, ofLexemes, List.foldl_append, hfold, hclose,
    bareOf_ofText rest, ofLexemes]

end Component

/-! ### Nodes -/

open Component (mark)

/-- A statement. -/
def probe : Text := ['@', 'x', ';']

/-- The components of the statement. -/
def probeComponents : List Component :=
  [.leaf ⟨.atKeyword ['x'], ['@', 'x'], {}⟩, mark .semicolon ';']

theorem bareOf_ofText_probe : Component.bareOf (Component.ofText probe) = probeComponents :=
  ((Reads.atKeyword (t := ['x']) rfl).append .semicolon fun rest _ =>
    ⟨';', rest, rfl, .inr (.inr rfl)⟩).bareOf_ofText trivial

/-- What follows some components is read as it is alone. -/
def Separates (level : Level) (stop : Place) (cs : List Component) : Prop :=
  ∃ last, ∀ more,
    nodes level stop (cs ++ more) = nodes level stop cs ++ nodes (.sheet last) stop more

/-- A statement that follows some components is not read as one. -/
def Swallows (level : Level) (stop : Place) (cs : List Component) : Prop :=
  (nodes level stop (cs ++ probeComponents)).length = (nodes level stop cs).length

section Nodes

variable {first : Bool} {level : Level} {stop : Place} {c : Component} {cs rest : List Component}

/-- Up to the first component that ends a stretch, nothing does. -/
theorem eq_before_append {ends : Component → Bool} {d : Component} {more : List Component}
    (h : cs.dropWhile (fun c => !ends c) = d :: more) :
    cs = before ends cs ++ d :: more ∧ (∀ c ∈ before ends cs, ends c = false) ∧ ends d = true := by
  refine ⟨?_, fun c hc => ?_, ?_⟩
  · rw [before, ← h, List.takeWhile_append_dropWhile]
  · simpa using List.all_eq_true.1 List.all_takeWhile c hc
  · have hhead := List.head?_dropWhile_not (fun c => !ends c) cs
    rw [h] at hhead
    simpa using hhead

/-- Some nodes, and then what comes next. -/
theorem separates_or_swallows_of_next {next : Level} {ns : List Node} {tail : List Component}
    (hcs : ∀ more, nodes level stop (cs ++ more) = ns ++ nodes next stop (tail ++ more))
    (h : Separates next stop tail ∨ Swallows next stop tail) :
    Separates level stop cs ∨ Swallows level stop cs := by
  have hnil : nodes level stop cs = ns ++ nodes next stop tail := by simpa using hcs []
  rcases h with ⟨last, htail⟩ | htail
  · exact .inl ⟨last, fun more => by rw [hcs, hnil, htail, List.append_assoc]⟩
  · refine .inr ?_
    rw [Swallows, hcs, hnil, List.length_append, List.length_append, htail]

theorem notAt_or (c : Component) :
    c.NotAt ∨ ∃ name, c.token? = some (.atKeyword name) := by
  by_cases hat : c.NotAt
  · exact .inl hat
  · exact .inr (by simpa [Component.NotAt] using hat)

/-- Without a block in curly brackets no style rule is read. -/
theorem nodes_sheet_of_not_curly (hgap : Level.isGap (.sheet first) c = false) (hat : c.NotAt)
    (h : ∀ d ∈ c :: rest, d.isCurly = false) : nodes (.sheet first) stop (c :: rest) = [] := by
  have hnone (cs : List Component) (h : ∀ d ∈ cs, d.isCurly = false) :
      cs.dropWhile (fun c => !Level.endsSelector (.sheet first) c) = [] :=
    List.dropWhile_eq_nil_iff.2 fun d hd => by simpa [Level.endsSelector] using h d hd
  have hafter : after (Level.endsCustomProperty (.sheet first)) rest = [] := by
    rw [after]
    exact congrArg (List.drop 1) (hnone rest (List.forall_mem_cons.1 h).2)
  rw [nodes_cons_other hgap hat, hnone _ h, hafter]
  have hdeclaration : Level.declaration? (.sheet first) stop c rest = none := rfl
  rw [hdeclaration]
  dsimp only
  split
  · rw [nodes]
  · rfl

/-- Whether a custom property starts is decided where the blanks behind its name end. -/
theorem startsCustomProperty_cons_append {d : Component} (hd : d.isBlank = false)
    (ds more : List Component) :
    startsCustomProperty (c :: (ds ++ d :: more)) = startsCustomProperty (c :: (ds ++ [d])) := by
  have hhead (more : List Component) : (Component.skipBlank (ds ++ d :: more)).head? =
      (Component.skipBlank (ds ++ [d])).head? := by
    induction ds with
    | nil => simp [Component.skipBlank, hd]
    | cons e ds ih =>
        unfold Component.skipBlank at ih ⊢
        rw [List.cons_append, List.cons_append, List.dropWhile_cons, List.dropWhile_cons]
        split
        · exact ih
        · rfl
  simp only [startsCustomProperty, hhead more]

theorem isBlank_of_isCurly (h : c.isCurly = true) : c.isBlank = false := by
  cases c with
  | leaf lexeme => cases h
  | block => rfl

/-- Whether a custom property starts, and what follows its end, with some components behind the
block in curly brackets. -/
theorem customProperty_append {ds more : List Component} {d : Component}
    (hsplit : c :: rest = ds ++ d :: more) (hds : ∀ c ∈ ds, c.isCurly = false)
    (hd : d.isCurly = true) (tail : List Component) :
    startsCustomProperty (c :: (rest ++ tail)) = startsCustomProperty (c :: rest) ∧
      (startsCustomProperty (c :: rest) = true →
        after Component.isCurly (rest ++ tail) = more ++ tail) := by
  cases ds with
  | nil =>
      -- a block is no name
      obtain ⟨rfl, rfl⟩ := List.cons.inj hsplit
      cases c with
      | leaf lexeme => cases hd
      | block => exact ⟨rfl, fun h => nomatch h⟩
  | cons e ds =>
      rw [List.cons_append] at hsplit
      obtain ⟨rfl, rfl⟩ := List.cons.inj hsplit
      have hblank := isBlank_of_isCurly hd
      rw [List.append_assoc, List.cons_append, startsCustomProperty_cons_append hblank,
        startsCustomProperty_cons_append hblank ds more]
      exact ⟨rfl, fun _ => after_append _ (List.forall_mem_cons.1 hds).2 hd⟩

/-- A style rule or a custom property, up to its block. -/
theorem exists_nodes_sheet_curly {d : Component} {more : List Component}
    (hgap : Level.isGap (.sheet first) c = false) (hat : c.NotAt)
    (h : (c :: rest).dropWhile (fun c => !c.isCurly) = d :: more) :
    ∃ ns, ∀ tail, nodes (.sheet first) stop (c :: rest ++ tail) =
      ns ++ nodes (.sheet false) stop (more ++ tail) := by
  obtain ⟨hsplit, hbefore, hd⟩ := eq_before_append h
  have hdeclaration (rest : List Component) :
      Level.declaration? (.sheet first) stop c rest = none := rfl
  have hcustom := customProperty_append hsplit hbefore hd
  cases hstarts : startsCustomProperty (c :: rest) with
  | true =>
      refine ⟨[], fun tail => ?_⟩
      rw [List.cons_append, nodes_cons_custom hgap hat (hdeclaration _)
        ((hcustom tail).1.trans hstarts)]
      exact congrArg (nodes _ _) ((hcustom tail).2 hstarts)
  | false =>
      have hrule (tail : List Component) : Level.StartsRule (.sheet first) stop c (rest ++ tail) :=
        ⟨hgap, hat, hdeclaration _, (hcustom tail).1.trans hstarts⟩
      cases d with
      | leaf lexeme => cases hd
      | block opening content closing blockStop =>
          refine ⟨[.rule (sourceText (before Component.isCurly (c :: rest)))
            (declarations blockStop content) c.start blockStop], fun tail => ?_⟩
          have hends : (c :: rest ++ tail).dropWhile
              (fun c => !Level.endsSelector (.sheet first) c) =
                .block opening content closing blockStop :: (more ++ tail) := by
            rw [hsplit, List.append_assoc]
            exact dropWhile_append _ hbefore hd
          have hfront : before (Level.endsSelector (.sheet first)) (c :: rest ++ tail) =
              before Component.isCurly (c :: rest) := by
            conv_lhs => rw [hsplit, List.append_assoc]
            exact before_append _ hbefore hd
          rw [List.cons_append] at hends hfront ⊢
          rw [nodes_cons_rule_block (hrule tail) hends, hfront]
          rfl

/-- An at-rule, up to its end. -/
theorem exists_nodes_sheet_atRule {name : Text} {d : Component} {more : List Component}
    (hc : c.token? = some (.atKeyword name))
    (h : rest.dropWhile (fun c => !c.endsPrelude) = d :: more) :
    ∃ ns, ∀ tail, nodes (.sheet first) stop (c :: rest ++ tail) =
      ns ++ nodes (.sheet false) stop (more ++ tail) := by
  obtain ⟨hsplit, hbefore, hd⟩ := eq_before_append h
  have hends (tail : List Component) :
      (rest ++ tail).dropWhile (fun c => !c.endsPrelude) = d :: (more ++ tail) := by
    rw [hsplit, List.append_assoc]
    exact dropWhile_append _ hbefore hd
  have hfront (tail : List Component) :
      before Component.endsPrelude (rest ++ tail) = before Component.endsPrelude rest := by
    conv_lhs => rw [hsplit, List.append_assoc]
    exact before_append _ hbefore hd
  cases d with
  | leaf lexeme =>
      refine ⟨Level.keep (.sheet first) name (.atRule name
        (sourceText (before Component.endsPrelude rest)) none [] c.start c.start), fun tail => ?_⟩
      rw [List.cons_append, nodes_cons_atRule_leaf hc (hends tail), hfront]
      rfl
  | block opening content closing blockStop =>
      refine ⟨Level.keep (.sheet first) name (.atRule name
        (sourceText (before Component.endsPrelude rest)) (some (sourceText content))
        (nodes .group blockStop content) c.start blockStop), fun tail => ?_⟩
      rw [List.cons_append, nodes_cons_atRule_block hc (hends tail), hfront]
      rfl

/-- An at-rule that nothing ends swallows what follows it. -/
theorem swallows_atRule {name : Text} (hc : c.token? = some (.atKeyword name))
    (h : rest.dropWhile (fun c => !c.endsPrelude) = []) :
    Swallows (.sheet first) stop (c :: rest) := by
  have hnot : ∀ d ∈ rest ++ probeComponents.take 1, d.endsPrelude = false := by
    refine List.forall_mem_append.2 ⟨?_, List.forall_mem_singleton.2 rfl⟩
    simpa using List.dropWhile_eq_nil_iff.1 h
  have hends : (mark .semicolon ';').endsPrelude = true := rfl
  have hend : (rest ++ probeComponents).dropWhile (fun c => !c.endsPrelude) =
      [mark .semicolon ';'] := by
    have hsplit : rest ++ probeComponents =
        rest ++ probeComponents.take 1 ++ [mark .semicolon ';'] := by
      rw [List.append_assoc]
      rfl
    rw [hsplit]
    exact dropWhile_append _ hnot hends
  rw [Swallows, List.cons_append, nodes_cons_atRule_leaf hc hend, nodes_cons_atRule_open hc h,
    nodes, List.append_nil]
  unfold Level.keep
  split <;> rfl

/-- What follows some components is read as it is alone, or a statement that follows them is not
read as one. -/
theorem separates_or_swallows (first : Bool) (stop : Place) (cs : List Component) :
    Separates (.sheet first) stop cs ∨ Swallows (.sheet first) stop cs := by
  induction hn : cs.length using Nat.strongRecOn generalizing first cs with
  | ind n ih =>
      subst hn
      cases cs with
      | nil => exact .inl ⟨first, fun more => by rw [nodes]; rfl⟩
      | cons c rest =>
          have hshorter {p : Component → Bool} {cs more : List Component} {d : Component}
              (h : cs.dropWhile p = d :: more) : more.length < cs.length := by
            have hle := (List.dropWhile_suffix p (l := cs)).length_le
            rwa [h] at hle
          cases hgap : Level.isGap (.sheet first) c with
          | true =>
              have hrest (more : List Component) : nodes (.sheet first) stop (c :: rest ++ more) =
                  [] ++ nodes (.sheet first) stop (rest ++ more) := nodes_cons_gap hgap
              exact separates_or_swallows_of_next hrest
                (ih rest.length (Nat.lt_succ_self _) first rest rfl)
          | false =>
              rcases notAt_or c with hat | ⟨name, hname⟩
              · cases hend : (c :: rest).dropWhile (fun c => !c.isCurly) with
                | nil =>
                    have hnot : ∀ d ∈ c :: rest, d.isCurly = false := by
                      simpa using List.dropWhile_eq_nil_iff.1 hend
                    refine .inr ?_
                    rw [Swallows, nodes_sheet_of_not_curly hgap hat hnot, List.cons_append,
                      nodes_sheet_of_not_curly hgap hat]
                    rw [← List.cons_append]
                    exact List.forall_mem_append.2
                      ⟨hnot, List.forall_mem_cons.2 ⟨rfl, List.forall_mem_singleton.2 rfl⟩⟩
                | cons d more =>
                    obtain ⟨ns, hns⟩ := exists_nodes_sheet_curly hgap hat hend
                    exact separates_or_swallows_of_next hns
                      (ih more.length (hshorter hend) false more rfl)
              · cases hend : rest.dropWhile (fun c => !c.endsPrelude) with
                | nil => exact .inr (swallows_atRule hname hend)
                | cons d more =>
                    obtain ⟨ns, hns⟩ := exists_nodes_sheet_atRule hname hend
                    exact separates_or_swallows_of_next hns
                      (ih more.length ((hshorter hend).trans (Nat.lt_succ_self _)) false more rfl)

/-! ### Stylesheets that stand alone -/

/-- The first statement is an at-rule that is passed over there. -/
def startsCharset (cs : List Component) : Bool :=
  (cs.dropWhile (Level.isGap (.sheet true))).head?.any fun c =>
    c.token?.any fun
      | .atKeyword name => !isKept name
      | _ => false

/-- A first statement that is read as any other. -/
theorem nodes_sheet (h : startsCharset cs = false) (first : Bool) (stop : Place) :
    nodes (.sheet first) stop cs = nodes (.sheet true) stop cs := by
  induction cs with
  | nil => rw [nodes, nodes]
  | cons c rest ih =>
      have hsame : Level.isGap (.sheet first) c = Level.isGap (.sheet true) c := rfl
      cases hgap : Level.isGap (.sheet true) c with
      | true =>
          rw [nodes_cons_gap hgap, nodes_cons_gap (hsame.trans hgap)]
          rw [startsCharset, List.dropWhile_cons_of_pos hgap] at h
          exact ih h
      | false =>
          rcases notAt_or c with hat | ⟨name, hname⟩
          · rw [nodes_cons_other hgap hat, nodes_cons_other (hsame.trans hgap) hat]
            rfl
          · have hkept : isKept name = true := by
              rw [startsCharset, List.dropWhile_cons_of_neg (by simp [hgap])] at h
              simpa [hname] using h
            cases hend : rest.dropWhile (fun c => !c.endsPrelude) with
            | nil =>
                rw [nodes_cons_atRule_open hname hend, nodes_cons_atRule_open hname hend,
                  Level.keep_of_isKept hkept, Level.keep_of_isKept hkept]
            | cons d more =>
                cases d with
                | leaf lexeme =>
                    rw [nodes_cons_atRule_leaf hname hend, nodes_cons_atRule_leaf hname hend,
                      Level.keep_of_isKept hkept, Level.keep_of_isKept hkept]
                    rfl
                | block opening content closing blockStop =>
                    rw [nodes_cons_atRule_block hname hend, nodes_cons_atRule_block hname hend,
                      Level.keep_of_isKept hkept, Level.keep_of_isKept hkept]
                    rfl

theorem startsCharset_append_probe (h : startsCharset cs = false) :
    startsCharset (cs ++ probeComponents) = false := by
  unfold startsCharset at h ⊢
  rw [List.dropWhile_append]
  split
  · rfl
  · cases hcs : cs.dropWhile (Level.isGap (.sheet true)) with
    | nil => simp [hcs] at *
    | cons c rest => rwa [hcs] at h

end Nodes

/-- A closed stylesheet that starts with no `@charset`, and behind which a statement is read as
one. -/
def standsAlone (t : Text) : Bool :=
  Component.isClosed t && !startsCharset (Component.bareOf (Component.ofText t)) &&
    (Node.ofText (t ++ probe)).length == (Node.ofText t).length + 1

theorem length_bareOf (ns : List Node) : (Node.bareOf ns).length = ns.length := by
  induction ns with
  | nil => rfl
  | cons n ns ih => rw [Node.bareOf, List.length_cons, List.length_cons, ih]

theorem bareOf_ofText_eq (t : Text) :
    Node.bareOf (Node.ofText t) =
      nodes (.sheet true) {} (Component.bareOf (Component.ofText t)) := by
  rw [Node.ofText, Node.bareOf_nodes]

/-- A stylesheet that stands alone is read at any place as it is, and then what comes next. -/
theorem separates_of_standsAlone {t : Text} (h : standsAlone t = true) (first : Bool) :
    nodes (.sheet first) {} (Component.bareOf (Component.ofText t)) = Node.bareOf (Node.ofText t) ∧
      Separates (.sheet first) {} (Component.bareOf (Component.ofText t)) := by
  simp only [standsAlone, Bool.and_eq_true, Bool.not_eq_true', beq_iff_eq] at h
  obtain ⟨⟨hclosed, hcharset⟩, hlength⟩ := h
  refine ⟨by rw [bareOf_ofText_eq, nodes_sheet hcharset], ?_⟩
  refine (separates_or_swallows first {} _).resolve_right fun hswallows => ?_
  have hprobe : NoSpaceNext probe := rfl
  rw [← length_bareOf, ← length_bareOf (Node.ofText t), bareOf_ofText_eq, bareOf_ofText_eq,
    Component.bareOf_ofText_append hclosed hprobe, bareOf_ofText_probe] at hlength
  rw [Swallows, nodes_sheet hcharset,
    nodes_sheet (startsCharset_append_probe hcharset)] at hswallows
  omega

/-- Stylesheets that stand alone are read one by one. -/
theorem bareOf_ofText_flatten {ts : List Text} (hspace : ∀ t ∈ ts, NoSpaceNext t)
    (h : ∀ t ∈ ts, t = [] ∨ standsAlone t = true) :
    Node.bareOf (Node.ofText ts.flatten) = ts.flatMap fun t => Node.bareOf (Node.ofText t) := by
  have hnext (ts : List Text) (hspace : ∀ t ∈ ts, NoSpaceNext t) : NoSpaceNext ts.flatten := by
    induction ts with
    | nil => rfl
    | cons t ts ih =>
        obtain ⟨ht, hts⟩ := List.forall_mem_cons.1 hspace
        cases t with
        | nil => exact ih hts
        | cons c t => exact ht
  rw [bareOf_ofText_eq]
  generalize true = first
  induction ts generalizing first with
  | nil => rw [List.flatten_nil, List.flatMap_nil]; exact nodes.eq_1 _ _
  | cons t ts ih =>
      obtain ⟨ht, hts⟩ := List.forall_mem_cons.1 h
      obtain ⟨-, hspaces⟩ := List.forall_mem_cons.1 hspace
      rw [List.flatten_cons, List.flatMap_cons]
      rcases ht with rfl | ht
      · have hnone : Node.bareOf (Node.ofText []) = [] := by
          rw [bareOf_ofText_eq]
          exact nodes.eq_1 _ _
        rw [hnone]
        exact ih hspaces hts first
      · have hclosed : Component.isClosed t = true := by
          simp only [standsAlone, Bool.and_eq_true] at ht
          exact ht.1.1
        obtain ⟨hnodes, last, hlast⟩ := separates_of_standsAlone ht first
        rw [Component.bareOf_ofText_append hclosed (hnext ts hspaces), hlast, hnodes,
          ih hspaces hts last]

end StyleSieve.Css
