import Mathlib.Data.List.TakeWhile
import StyleSieve.Proofs.Selector.Balanced
import StyleSieve.Proofs.Selector.Plain
import StyleSieve.Usage

/-!
# Strings and arguments hold no pieces

A compound selector with attributes that have values and pseudo-classes that have arguments.  What
stands in a value or in arguments is no piece of it, where the reader of the pieces finds their
ends: where the quotes of a value pair up as they come, and the parentheses of arguments wherever
they stand (`Member.Sealed`).

* `Member.read`: what is read of a class, an id, an attribute or a pseudo-class.
* `parts_nested`: the pieces of a compound are those in front of the break that stand outside
  arguments; pseudo-classes alone have none.
* `parts_nested_differs`: a parenthesis in a string, and an escaped quote.
-/

namespace StyleSieve.Selector

open Name (Ends Spells isPlain)

/-- An attribute in brackets: blanks, its name, and what follows the name, an operator and a value
say. -/
structure Attribute where
  blanks : Text
  word : Word
  value : Text
  spaces : ∀ c ∈ blanks, Text.isSpace c = true
  ends : Ends value
  balanced : Balanced value

/-- A pseudo-class, or a pseudo-element with two colons, and its arguments in parentheses if it has
any. -/
structure Pseudo where
  isElement : Bool
  word : Word
  arguments : Option Text
  balanced : ∀ a ∈ arguments, Balanced a

namespace Pseudo

/-- The parentheses with the arguments. -/
def argumentText (p : Pseudo) : Text := p.arguments.elim [] fun a => '(' :: (a ++ [')'])

/-- What stands behind the first colon. -/
def rest (p : Pseudo) : Text :=
  (if p.isElement then [':'] else []) ++ (p.word.spelling ++ p.argumentText)

end Pseudo

/-- A simple selector. -/
inductive Member where
  | className (w : Word)
  | id (w : Word)
  | attr (a : Attribute)
  | pseudo (p : Pseudo)

namespace Member

/-- What stands in the selector. -/
def text : Member → Text
  | className w => '.' :: w.spelling
  | id w => '#' :: w.spelling
  | attr a => '[' :: (a.blanks ++ (a.word.spelling ++ (a.value ++ [']'])))
  | pseudo p => ':' :: p.rest

/-- The piece that it is.  A pseudo-class is none, whatever its arguments. -/
def piece : Member → Option Piece
  | className w => some (.className w.name)
  | id w => some (.id w.name)
  | attr a => some (.attr (Text.lower a.word.name))
  | pseudo _ => none

def isPseudo : Member → Bool
  | pseudo _ => true
  | className _ | id _ | attr _ => false

/-- Its end is found: the quotes of a value pair up as they come, the parentheses in arguments
close wherever they stand, and the name of an attribute starts with no blank. -/
def Sealed : Member → Prop
  | attr a => (∀ c ∈ a.word.spelling.head?, Text.isBlank c = false) ∧
      pairsQuotes none a.value = true
  | pseudo p => ∀ a ∈ p.arguments, nests 0 a = true
  | className _ | id _ => True

variable {xs : List Member} {t : Text}

theorem isPseudo_iff {x : Member} : x.isPseudo = true ↔ x.piece = none := by
  cases x <;> simp [isPseudo, piece]

/-- Where a member starts, a name ends, and no arguments do. -/
theorem ends_flatMap (xs : List Member) :
    Ends (xs.flatMap text) ∧ (xs.flatMap text).head? ≠ some '(' := by
  cases xs with
  | nil => exact ⟨.nil, nofun⟩
  | cons x xs =>
      cases x with
      | className | id | attr | pseudo =>
          refine ⟨?_, by rw [List.flatMap_cons]; nofun⟩
          rintro c ⟨⟩
          decide

end Member

/-! ### Up to the break -/

namespace Cursor

variable {t u : Text}

/-- In `t` nothing but colons is active, and nothing is left open. -/
structure Calm (t : Text) : Prop where
  kinds : ∀ k ∈ Cursor.kinds {} t, k = none ∨ k = some .pseudo
  after : ({} : Cursor).after t = {}

theorem Calm.of_passes (h : Passes 0 t) : Calm t := ⟨fun k hk => .inl (h.kinds k hk), h.after⟩

theorem calm_colon : Calm [':'] := ⟨List.forall_mem_singleton.2 (.inr rfl), rfl⟩

theorem Calm.append (h : Calm t) (h' : Calm u) : Calm (t ++ u) := by
  refine ⟨?_, ?_⟩
  · rw [kinds_append, h.after]
    exact List.forall_mem_append.2 ⟨h.kinds, h'.kinds⟩
  · rw [Cursor.after, List.foldl_append]
    exact (congrArg (fun s => Cursor.after s u) h.after).trans h'.after

end Cursor

namespace Member

open Cursor (Calm Passes)

variable {xs : List Member} {t : Text}

theorem passes {x : Member} (h : x.isPseudo = false) : Passes 0 x.text := by
  cases x with
  | className w | id w => exact .cons rfl (Cursor.passes_spells w.spells 0)
  | attr a =>
      obtain ⟨s, hs, hvalue⟩ := a.balanced.keeps 0 _ (Cursor.settled_plain none 1)
      have hblanks : Passes 1 a.blanks :=
        Cursor.passes_blanks (fun c hc => isBlank_of_isSpace (a.spaces c hc)) 0
      exact .cons rfl (hblanks.append ((Cursor.passes_spells a.word.spells 1).append
        (hvalue.append (.cons (hs.step_special rfl) (.nil _)))))
  | pseudo => cases h

theorem calm (x : Member) : Calm x.text := by
  cases hpseudo : x.isPseudo with
  | false => exact .of_passes (passes hpseudo)
  | true =>
      cases x with
      | className | id | attr => cases hpseudo
      | pseudo p =>
          have hcolon : Calm (if p.isElement then [':'] else []) := by
            split
            · exact Cursor.calm_colon
            · exact .of_passes (.nil _)
          have hname : Calm p.word.spelling := .of_passes (Cursor.passes_spells p.word.spells 0)
          have harguments : Calm p.argumentText := by
            unfold Pseudo.argumentText
            cases h : p.arguments with
            | none => exact .of_passes (.nil _)
            | some a =>
                exact .of_passes (((p.balanced a h).keeps 0).leads rfl rfl rfl rfl
                  (Cursor.settled_plain none 0))
          exact Cursor.calm_colon.append (hcolon.append (hname.append harguments))

theorem passes_flatMap (h : ∀ x ∈ xs, x.isPseudo = false) : Passes 0 (xs.flatMap text) := by
  induction xs with
  | nil => exact .nil _
  | cons x xs ih =>
      obtain ⟨hx, hxs⟩ := List.forall_mem_cons.1 h
      exact (passes hx).append (ih hxs)

theorem calm_flatMap (xs : List Member) : Calm (xs.flatMap text) := by
  induction xs with
  | nil => exact .of_passes (.nil _)
  | cons x xs ih => exact x.calm.append ih

end Member

/-! ### What is read -/

/-- A spelling starts with a character of a name or with a backslash. -/
theorem Name.Spells.head {name s : Text} (h : Spells name s) :
    ∀ c ∈ s.head?, isPlain c = true ∨ c = '\\' := by
  cases h with
  | nil => exact fun _ h => nomatch h
  | plain hc _ =>
      rintro d ⟨⟩
      exact .inl hc
  | escape | hex =>
      rintro d ⟨⟩
      exact .inr rfl

/-- A pseudo-class is passed over up to the end of its name, or of its arguments. -/
theorem Pseudo.extent_rest {p : Pseudo} {t : Text} (h : ∀ a ∈ p.arguments, nests 0 a = true)
    (ht : Ends t) (hparen : t.head? ≠ some '(') :
    pseudoExtent (p.rest ++ t) = p.rest.length := by
  -- at most one more colon stands in front of the name
  have hcolons : (p.rest ++ t).takeWhile (· == ':') = if p.isElement then [':'] else [] := by
    have hname : (p.word.spelling ++ (p.argumentText ++ t)).takeWhile (· == ':') = [] := by
      cases hs : p.word.spelling with
      | nil => exact absurd (p.word.spells.eq_nil_iff.2 hs) p.word.named
      | cons c s =>
          have hc : (c == ':') = false := by
            have hhead := p.word.spells.head c (by rw [hs]; rfl)
            rw [beq_eq_false_iff_ne]
            rintro rfl
            revert hhead
            decide
          rw [List.cons_append, List.takeWhile_cons_of_neg (by simp [hc])]
    rw [Pseudo.rest, List.append_assoc, List.append_assoc]
    split
    · rw [List.singleton_append, List.takeWhile_cons_of_pos rfl, hname]
    · exact hname
  -- the name ends at the arguments, or with them
  have hends : Ends (p.argumentText ++ t) := by
    unfold Pseudo.argumentText
    cases p.arguments with
    | none => exact ht
    | some a =>
        rintro c ⟨⟩
        decide
  have harguments : (if (p.argumentText ++ t).head? = some '(' then
      argumentExtent 0 (p.argumentText ++ t) else 0) = p.argumentText.length := by
    unfold Pseudo.argumentText
    cases ha : p.arguments with
    | none => exact if_neg hparen
    | some a =>
        have hopen : argumentExtent 0 ('(' :: (a ++ ')' :: t)) =
            argumentExtent 1 (a ++ ')' :: t) + 1 := rfl
        simp [hopen, argumentExtent_of_nests (h a ha) t]
  have hdrop : p.rest ++ t = (if p.isElement then [':'] else []) ++
      (p.word.spelling ++ (p.argumentText ++ t)) := by
    rw [Pseudo.rest, List.append_assoc, List.append_assoc]
  unfold pseudoExtent
  simp only [hcolons, ← List.drop_drop]
  rw [hdrop, List.drop_left, Name.extent_spells p.word.spells hends, List.drop_left, harguments,
    Pseudo.rest, List.length_append, List.length_append, Nat.add_assoc]

namespace Member

variable {t : Text}

theorem read {x : Member} (h : x.Sealed) (ht : Ends t) (hparen : t.head? ≠ some '(') :
    piecesFrom 0 (x.text ++ t) = x.piece.toList ++ piecesFrom 0 t := by
  cases x with
  | className w => exact (Simple.className w.spells w.named).read ht
  | id w => exact (Simple.id w.spells w.named).read ht
  | attr a =>
      obtain ⟨hbare, hquotes⟩ := h
      have hhead : ∀ c ∈ (a.word.spelling ++ (a.value ++ ']' :: t)).head?,
          Text.isBlank c = false := by
        cases hs : a.word.spelling with
        | nil => exact absurd (a.word.spells.eq_nil_iff.2 hs) a.word.named
        | cons c s =>
            rw [hs] at hbare
            exact hbare
      have hends : Ends (a.value ++ ']' :: t) := by
        have hvalue := a.ends
        cases hv : a.value with
        | nil =>
            rintro c ⟨⟩
            decide
        | cons c v =>
            rw [hv] at hvalue
            exact hvalue
      have htext : (attr a).text ++ t =
          '[' :: (a.blanks ++ (a.word.spelling ++ (a.value ++ ']' :: t))) := by simp [text]
      rw [htext, read_attr (fun c hc => isBlank_of_isSpace (a.spaces c hc)) a.word.spells hhead
        hends (closingExtent_of_pairsQuotes hquotes t),
        named_of_ne_nil _ (by simpa [Text.lower] using a.word.named)]
      rfl
  | pseudo p =>
      have htext : (pseudo p).text ++ t = ':' :: (p.rest ++ t) := rfl
      rw [htext, piecesFrom, pieceAt, if_neg (by decide), if_neg (by decide), if_neg (by decide),
        if_neg (by decide), if_pos rfl, p.extent_rest h ht hparen, piecesFrom_skip]
      rfl

theorem read_flatMap {xs : List Member} (h : ∀ x ∈ xs, x.Sealed) :
    piecesFrom 0 (xs.flatMap text) = xs.filterMap piece := by
  induction xs with
  | nil => rfl
  | cons x xs ih =>
      obtain ⟨hx, hxs⟩ := List.forall_mem_cons.1 h
      obtain ⟨hends, hparen⟩ := ends_flatMap xs
      rw [List.flatMap_cons, read hx hends hparen, ih hxs, List.filterMap_eq_flatMap_toList,
        List.filterMap_eq_flatMap_toList, List.flatMap_cons]

end Member

/-! ### The parts of a compound -/

/-- What may follow a compound that starts with a pseudo-class: nothing, or a combinator with all
after it. -/
def Combines (rest : Text) : Prop :=
  ∀ c ∈ rest.head?, (BreakKind.of? c).isSome = true ∧ BreakKind.of? c ≠ some .pseudo

/-- The members of a compound in front of its break.  A pseudo-class ends it, but behind a
pseudo-class at its start no other does. -/
def matched (leading : Text) (xs : List Member) : List Member :=
  if leading.isEmpty && xs.head?.any Member.isPseudo then xs
  else xs.takeWhile fun x => !x.isPseudo

/-- The members behind the break. -/
def unmatched (leading : Text) (xs : List Member) : List Member :=
  if leading.isEmpty && xs.head?.any Member.isPseudo then []
  else xs.dropWhile fun x => !x.isPseudo

variable {ps : List Piece} {s rest : Text} {xs : List Member}

theorem Combines.follows (h : Combines rest) : Follows rest := fun c hc => (h c hc).1

theorem matched_append_unmatched (s : Text) (xs : List Member) :
    matched s xs ++ unmatched s xs = xs := by
  unfold matched unmatched
  split
  · exact List.append_nil xs
  · exact List.takeWhile_append_dropWhile

/-- A compound that starts with a pseudo-class has its break behind it. -/
theorem breakLength_pseudo (h : xs.head?.any Member.isPseudo = true) (hrest : Combines rest) :
    breakLength (xs.flatMap Member.text ++ rest) = (xs.flatMap Member.text).length := by
  have hcalm := Member.calm_flatMap xs
  cases xs with
  | nil => cases h
  | cons x xs =>
      cases x with
      | className | id | attr => cases h
      | pseudo p =>
          refine breakLength_of_kinds rfl hcalm.after hcalm.kinds ?_
          cases rest with
          | nil => exact fun _ h => nomatch h
          | cons c rest =>
              rw [Cursor.kinds, Cursor.step_active (hrest c rfl).1]
              rintro k ⟨⟩
              exact hrest c rfl

/-- Behind members that are no pseudo-classes, and in front of one, a compound has its break. -/
theorem breakLength_members {ys : List Member} (hs : Leading ps s)
    (hxs : ∀ x ∈ xs, x.isPseudo = false) (hys : ∀ y ∈ ys.head?, y.isPseudo = true)
    (hne : s ++ xs.flatMap Member.text ≠ []) (hrest : Combines rest) :
    breakLength (s ++ xs.flatMap Member.text ++ (ys.flatMap Member.text ++ rest)) =
      (s ++ xs.flatMap Member.text).length := by
  refine breakLength_append (hs.passes.append (Member.passes_flatMap hxs)) hne ?_
  cases ys with
  | nil => exact hrest.follows
  | cons y ys =>
      have hy := hys y rfl
      cases y with
      | className | id | attr => cases hy
      | pseudo p =>
          rintro c ⟨⟩
          rfl

/-- A compound has its break behind its matched members. -/
theorem breakLength_matched (hs : Leading ps s) (hne : s ++ xs.flatMap Member.text ≠ [])
    (hrest : Combines rest) :
    breakLength (s ++ (matched s xs).flatMap Member.text ++
        ((unmatched s xs).flatMap Member.text ++ rest)) =
      (s ++ (matched s xs).flatMap Member.text).length := by
  cases h : s.isEmpty && xs.head?.any Member.isPseudo with
  | true =>
      rw [matched, unmatched, if_pos h, if_pos h]
      obtain ⟨hempty, hhead⟩ := Bool.and_eq_true_iff.1 h
      obtain rfl := List.isEmpty_iff.1 hempty
      exact breakLength_pseudo hhead hrest
  | false =>
      have hnot : ¬ (s.isEmpty && xs.head?.any Member.isPseudo) = true := by simp [h]
      rw [matched, unmatched, if_neg hnot, if_neg hnot]
      have hfront : s ++ (xs.takeWhile fun x => !x.isPseudo).flatMap Member.text ≠ [] := by
        cases s with
        | cons c s => exact List.cons_ne_nil _ _
        | nil =>
            cases xs with
            | nil => exact absurd rfl hne
            | cons x xs =>
                have hx : x.isPseudo = false := by simpa using h
                rw [List.takeWhile_cons_of_pos (by simp [hx])]
                cases x <;> exact List.cons_ne_nil _ _
      refine breakLength_members hs (fun x hx => ?_) (fun y hy => ?_) hfront hrest
      · simpa using List.mem_takeWhile_imp hx
      · have hhead := List.head?_dropWhile_not (fun x : Member => !x.isPseudo) xs
        rw [Option.mem_def.1 hy] at hhead
        simpa using hhead

/-- **Strings and arguments hold no pieces.**  A selector starts with a compound, and behind it
stands nothing more, or a combinator.  Where the ends of its matched members are found, its pieces
are those of the type and of these members, of which a pseudo-class has none; a compound of
pseudo-classes alone has no pieces, and every usage admits it. -/
theorem parts_nested (hs : Leading ps s) (xs : List Member)
    (hne : s ++ xs.flatMap Member.text ≠ []) (hrest : Combines rest)
    (hsealed : ∀ x ∈ matched s xs, x.Sealed) :
    parts (s ++ xs.flatMap Member.text ++ rest) =
        ⟨ps ++ (matched s xs).filterMap Member.piece,
          Text.trim ((unmatched s xs).flatMap Member.text ++ rest)⟩ ∧
      (s = [] → (∀ x ∈ xs, x.isPseudo = true) →
        ∀ usage : Usage,
          usage.admits (parts (s ++ xs.flatMap Member.text ++ rest)).pieces = true) := by
  have hparts : parts (s ++ xs.flatMap Member.text ++ rest) =
      ⟨ps ++ (matched s xs).filterMap Member.piece,
        Text.trim ((unmatched s xs).flatMap Member.text ++ rest)⟩ := by
    have hsplit : s ++ xs.flatMap Member.text ++ rest =
        s ++ (matched s xs).flatMap Member.text ++
          ((unmatched s xs).flatMap Member.text ++ rest) := by
      rw [List.append_assoc, List.append_assoc, ← List.append_assoc (List.flatMap _ _),
        ← List.flatMap_append, matched_append_unmatched]
    rw [hsplit, parts, breakLength_matched hs hne hrest, List.take_left, List.drop_left, pieces,
      hs.read (Member.ends_flatMap _).1, Member.read_flatMap hsealed]
  refine ⟨hparts, ?_⟩
  rintro rfl hpseudo usage
  have hps : ps = [] := by
    cases hs
    rfl
  have hnone : (matched [] xs).filterMap Member.piece = [] := by
    rw [List.filterMap_eq_nil_iff]
    intro x hx
    have hmem : x ∈ xs := by
      rw [← matched_append_unmatched [] xs]
      exact List.mem_append_left _ hx
    exact Member.isPseudo_iff.1 (hpseudo x hmem)
  rw [hparts, hps, hnone]
  rfl

/-- `:is(.d,"\"(e)")`, with an escaped quote and with parentheses in the string. -/
def sealedPseudo : Pseudo where
  isElement := false
  word := { name := "is".toList, spelling := "is".toList, named := by decide,
            spells := .plain (by decide) (.plain (by decide) .nil) }
  arguments := some ".d,\"\\\"(e)\"".toList
  balanced := by
    rintro a ⟨⟩
    have hbody : StringBody '\x22' "\\\"(e)".toList :=
      .escape (.char (by decide) (by decide) (.char (by decide) (by decide)
        (.char (by decide) (by decide) .nil)))
    exact .char rfl (.char rfl (.char rfl (.string rfl hbody .nil)))

/-- `[ \52 ef="]'"]`, with a bracket and a quote in the string. -/
def sealedAttribute : Attribute where
  blanks := [' ']
  word := refWord
  value := "=\"]'\"".toList
  spaces := List.forall_mem_singleton.2 rfl
  ends := by
    rintro c ⟨⟩
    decide
  balanced := by
    have hbody : StringBody '\x22' "]'".toList :=
      .char (by decide) (by decide) (.char (by decide) (by decide) .nil)
    exact .char rfl (.string rfl hbody .nil)

/-- A class and an attribute between two pseudo-classes, and a child behind them. -/
theorem parts_nested_ref :
    let xs := [.pseudo sealedPseudo, .className flexWord, .attr sealedAttribute,
      Member.pseudo sealedPseudo]
    let rest := "> p".toList
    (∀ x ∈ matched [] xs, x.Sealed) ∧
      parts ([] ++ xs.flatMap Member.text ++ rest) =
        ⟨[] ++ (matched [] xs).filterMap Member.piece,
          Text.trim ((unmatched [] xs).flatMap Member.text ++ rest)⟩ ∧
      (matched [] xs).filterMap Member.piece =
        [.className "md:flex".toList, .attr "ref".toList] := by
  intro xs rest
  have hpseudo : (Member.pseudo sealedPseudo).Sealed := by
    rintro a ⟨⟩
    decide
  have hattribute : (Member.attr sealedAttribute).Sealed := by
    refine ⟨?_, by decide⟩
    rintro c ⟨⟩
    decide
  have hsealed : ∀ x ∈ matched [] xs, x.Sealed :=
    List.forall_mem_cons.2 ⟨hpseudo, List.forall_mem_cons.2 ⟨trivial,
      List.forall_mem_cons.2 ⟨hattribute, List.forall_mem_singleton.2 hpseudo⟩⟩⟩
  have hrest : Combines rest := by
    rintro c ⟨⟩
    decide
  exact ⟨hsealed, (parts_nested .none xs (List.cons_ne_nil _ _) hrest hsealed).1, by decide⟩

/-- `:not([a=")"].b)`, with a parenthesis in a string. -/
def openPseudo : Pseudo where
  isElement := false
  word := { name := "not".toList, spelling := "not".toList, named := by decide,
            spells := .plain (by decide) (.plain (by decide) (.plain (by decide) .nil)) }
  arguments := some "[a=\")\"].b".toList
  balanced := by
    rintro a ⟨⟩
    have hbody : StringBody '\x22' [')'] := .char (by decide) (by decide) .nil
    have hvalue : Balanced "a=\")\"".toList := .char rfl (.char rfl (.string rfl hbody .nil))
    exact .square hvalue (.char rfl (.char rfl .nil))

/-- `[a="x\"].b"]`, with an escaped quote in a string. -/
def openAttribute : Attribute where
  blanks := []
  word := { name := ['a'], spelling := ['a'], named := by decide,
            spells := .plain (by decide) .nil }
  value := "=\"x\\\"].b\"".toList
  spaces := nofun
  ends := by
    rintro c ⟨⟩
    decide
  balanced := by
    have hbody : StringBody '\x22' "x\\\"].b".toList :=
      .char (by decide) (by decide) (.escape (.char (by decide) (by decide)
        (.char (by decide) (by decide) (.char (by decide) (by decide) .nil))))
    exact .char rfl (.string rfl hbody .nil)

/-- A parenthesis in a string ends the arguments around it, and an escaped quote the string it
stands in: what is behind it becomes a piece.  A usage then needs that class. -/
theorem parts_nested_differs :
    let negation := Member.pseudo openPseudo
    let quoted := Member.attr openAttribute
    negation.text = ":not([a=\")\"].b)".toList ∧
      parts negation.text = ⟨[.className ['b']], []⟩ ∧
      Usage.empty.admits (parts negation.text).pieces = false ∧
      quoted.text = "[a=\"x\\\"].b\"]".toList ∧
      parts quoted.text = ⟨[.attr ['a'], .className ['b']], []⟩ := by
  decide

end StyleSieve.Selector
