import StyleSieve.Proofs.Css.Bare

/-!
# Nothing is lost

The lexemes of a text make up the text, and its components hold its lexemes in order (`flatOf`).

* `Component.flatOf_ofLexemes`: brackets lose no lexeme.
* `Component.textOf_ofText`: the components of a text make up the text.
-/

namespace StyleSieve.Css

theorem Lexeme.flatMap_text_bareOf (t : Text) : (bareOf t).flatMap Lexeme.text = t := by
  induction t using textInduction with
  | nil => rfl
  | cons c t ih =>
      rw [bareOf_cons, List.flatMap_cons, ih, List.cons_append, List.take_append_drop]

namespace Component

mutual

/-- The lexemes of a component. -/
def flat : Component → List Lexeme
  | .leaf lexeme => [lexeme]
  | .block opening content closing _ => opening :: (flatOf content ++ closing.toList)

/-- The lexemes of some components. -/
def flatOf : List Component → List Lexeme
  | [] => []
  | c :: rest => c.flat ++ flatOf rest

end

theorem flatOf_append (cs ds : List Component) : flatOf (cs ++ ds) = flatOf cs ++ flatOf ds := by
  induction cs with
  | nil => rfl
  | cons c cs ih => rw [List.cons_append, flatOf, ih, flatOf, List.append_assoc]

@[simp] theorem flatOf_singleton (c : Component) : flatOf [c] = c.flat := by
  rw [flatOf, flatOf, List.append_nil]

mutual

theorem textOnto_eq_flat (behind : Text) :
    (c : Component) → c.textOnto behind = c.flat.flatMap Lexeme.text ++ behind
  | .leaf lexeme => by simp [textOnto, flat]
  | .block opening content closing stop => by
    rw [textOnto, flat, textOfOnto_eq_flat]
    cases closing <;> simp

theorem textOfOnto_eq_flat (behind : Text) :
    (cs : List Component) → textOfOnto cs behind = (flatOf cs).flatMap Lexeme.text ++ behind
  | [] => rfl
  | c :: rest => by
    rw [textOfOnto, flatOf, textOnto_eq_flat, textOfOnto_eq_flat, List.flatMap_append,
      List.append_assoc]

end

theorem textOf_eq_flat (cs : List Component) : textOf cs = (flatOf cs).flatMap Lexeme.text := by
  rw [textOf, textOfOnto_eq_flat, List.append_nil]

theorem textOf_append (cs ds : List Component) : textOf (cs ++ ds) = textOf cs ++ textOf ds := by
  simp only [textOf_eq_flat, flatOf_append, List.flatMap_append]

/-- The lexemes of the blocks that are open, up to the innermost level. -/
def Pending.flatOf : List Pending → List Lexeme
  | [] => []
  | p :: outer => flatOf outer ++ (Component.flatOf p.before.reverse ++ [p.opening])

/-- The lexemes that have been read. -/
def Nesting.flat (n : Nesting) : List Lexeme :=
  Pending.flatOf n.outer ++ Component.flatOf n.level.reverse

theorem Nesting.flat_push (n : Nesting) (c : Component) : (n.push c).flat = n.flat ++ c.flat := by
  simp [push, flat, flatOf_append]

theorem Nesting.flat_step (n : Nesting) (l : Lexeme) : (n.step l).flat = n.flat ++ [l] := by
  have hleaf : (n.push (.leaf l)).flat = n.flat ++ [l] := by rw [flat_push, Component.flat]
  unfold step
  split
  case h_1 => simp [flat, Pending.flatOf, Component.flatOf]
  case h_2 =>
    split
    case h_1 opening before outer houter =>
      split
      · simp [flat, Pending.flatOf, houter, flatOf_append, Component.flat]
      · exact hleaf
    case h_2 => exact hleaf
  case h_3 => exact hleaf

theorem Nesting.flatOf_close (stop : Place) (level : List Component) (outer : List Pending) :
    flatOf (close stop level outer) = Pending.flatOf outer ++ flatOf level.reverse := by
  induction outer generalizing level with
  | nil => rfl
  | cons p outer ih =>
      rw [close, ih]
      simp [Pending.flatOf, flatOf_append, Component.flat]

/-- Brackets lose no lexeme. -/
theorem flatOf_ofLexemes (lexemes : List Lexeme) (stop : Place) :
    flatOf (ofLexemes lexemes stop) = lexemes := by
  have hfold (n : Nesting) : (lexemes.foldl Nesting.step n).flat = n.flat ++ lexemes := by
    induction lexemes generalizing n with
    | nil => simp
    | cons l lexemes ih => rw [List.foldl_cons, ih, Nesting.flat_step]; simp
  rw [ofLexemes, Nesting.flatOf_close]
  exact hfold {}

/-- The components of a text make up the text. -/
theorem textOf_ofText (t : Text) : textOf (ofText t) = t := by
  rw [← textOf_bareOf, bareOf_ofText, textOf_eq_flat, flatOf_ofLexemes, Lexeme.flatMap_text_bareOf]

end Component

end StyleSieve.Css
