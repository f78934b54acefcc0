import Mathlib.Data.List.Basic
import StyleSieve.Proofs.Selector.Compound

/-!
# Plain compounds

A plain compound is a type or `*`, or neither, and behind it classes, ids and attributes without a
value.  Names are spelled in any way, and a name may hold any character.  Each piece is read under
the name that its spelling stands for, but for one: blanks behind the bracket of an attribute are
passed over, and there are blanks outside ASCII that are characters of a name.

* `Plain.read`: what is read of a class, an id or an attribute.
* `parts_plain_iff`: a plain compound has the pieces that it is spelled for if and only if no
  attribute starts with such a blank.
* `parts_plain_differs`: one that does.
-/

namespace StyleSieve.Selector

open Name (Ends Spells isPlain)

/-- A name and a spelling of it. -/
structure Word where
  name : Text
  spelling : Text
  spells : Spells name spelling
  named : name ≠ []

/-- A simple selector that can stand behind others: a class, an id, or an attribute in brackets. -/
inductive Plain where
  | className (w : Word)
  | id (w : Word)
  | attr (w : Word)

namespace Plain

/-- What stands in the selector. -/
def text : Plain → Text
  | className w => '.' :: w.spelling
  | id w => '#' :: w.spelling
  | attr w => '[' :: (w.spelling ++ [']'])

/-- What it is spelled for. -/
def piece : Plain → Piece
  | className w => .className w.name
  | id w => .id w.name
  | attr w => .attr (Text.lower w.name)

/-- It is no attribute that starts with a blank. -/
def StartsBare : Plain → Prop
  | attr w => ∀ c ∈ w.spelling.head?, Text.isBlank c = false
  | className _ | id _ => True

/-- What is read of it: of an attribute, the name behind the blanks. -/
def readPiece : Plain → Option Piece
  | className w => some (.className w.name)
  | id w => some (.id w.name)
  | attr w =>
    named .attr (Text.lower (w.name.drop (w.spelling.takeWhile Text.isBlank).length))

variable {xs : List Plain} {t : Text}

/-! ### Up to the break -/

theorem passes (x : Plain) : Cursor.Passes 0 x.text := by
  cases x with
  | className w | id w => exact .cons rfl (Cursor.passes_spells w.spells 0)
  | attr w => exact .cons rfl ((Cursor.passes_spells w.spells 1).append (.cons rfl (.nil _)))

theorem passes_flatMap (xs : List Plain) : Cursor.Passes 0 (xs.flatMap text) := by
  induction xs with
  | nil => exact .nil _
  | cons x xs ih => exact x.passes.append ih

/-! ### What is read -/

/-- A name ends where a simple selector starts. -/
theorem ends_flatMap (xs : List Plain) : Ends (xs.flatMap text) := by
  cases xs with
  | nil => exact .nil
  | cons x xs =>
      cases x with
      | className | id | attr =>
          rintro c ⟨⟩
          decide

/-- Without the blanks in front a spelling is that of a name with as many characters less. -/
theorem spells_dropWhile {name s : Text} (h : Spells name s) :
    Spells (name.drop (s.takeWhile Text.isBlank).length) (s.dropWhile Text.isBlank) := by
  induction h with
  | nil => exact .nil
  | @plain c name s hc h ih =>
      cases hblank : Text.isBlank c with
      | true =>
          rw [List.takeWhile_cons_of_pos hblank, List.dropWhile_cons_of_pos hblank]
          exact ih
      | false =>
          have hnot : ¬ Text.isBlank c = true := by simp [hblank]
          rw [List.takeWhile_cons_of_neg hnot, List.dropWhile_cons_of_neg hnot]
          exact .plain hc h
  | escape hc h _ => exact .escape hc h
  | hex hne hlen hdigits hcode hb h _ => exact .hex hne hlen hdigits hcode hb h

theorem read (x : Plain) (ht : Ends t) :
    piecesFrom 0 (x.text ++ t) = x.readPiece.toList ++ piecesFrom 0 t := by
  cases x with
  | className w => exact (Simple.className w.spells w.named).read ht
  | id w => exact (Simple.id w.spells w.named).read ht
  | attr w =>
      have htext : (attr w).text ++ t = '[' :: (w.spelling.takeWhile Text.isBlank ++
          (w.spelling.dropWhile Text.isBlank ++ ([] ++ ']' :: t))) := by
        rw [← List.append_assoc (w.spelling.takeWhile _), List.takeWhile_append_dropWhile]
        simp [text]
      have hhead : ∀ c ∈ (w.spelling.dropWhile Text.isBlank ++ ([] ++ ']' :: t)).head?,
          Text.isBlank c = false := by
        have hdrop := List.head?_dropWhile_not Text.isBlank w.spelling
        cases h : w.spelling.dropWhile Text.isBlank with
        | nil =>
            rintro c ⟨⟩
            decide
        | cons d rest =>
            rw [h] at hdrop
            rintro c ⟨⟩
            simpa using hdrop
      have hends : Ends ([] ++ ']' :: t) := by
        rintro c ⟨⟩
        decide
      rw [htext, read_attr (List.all_eq_true.1 List.all_takeWhile) (spells_dropWhile w.spells)
        hhead hends rfl]
      rfl

theorem read_flatMap (xs : List Plain) :
    piecesFrom 0 (xs.flatMap text) = xs.filterMap readPiece := by
  induction xs with
  | nil => rfl
  | cons x xs ih =>
      rw [List.flatMap_cons, x.read (ends_flatMap xs), ih, List.filterMap_eq_flatMap_toList,
        List.filterMap_eq_flatMap_toList, List.flatMap_cons]

/-! ### What is read and what is spelled -/

theorem readPiece_eq_iff (x : Plain) : x.readPiece = some x.piece ↔ x.StartsBare := by
  cases x with
  | className | id => exact ⟨fun _ => trivial, fun _ => rfl⟩
  | attr w =>
      obtain ⟨name, s, hs, hne⟩ := w
      cases s with
      | nil => exact absurd (hs.eq_nil_iff.2 rfl) hne
      | cons c s =>
          have hbare : (attr ⟨name, c :: s, hs, hne⟩).StartsBare ↔ Text.isBlank c = false := by
            simp [StartsBare]
          rw [hbare, readPiece, piece]
          cases hblank : Text.isBlank c with
          | false =>
              rw [List.takeWhile_cons_of_neg (by simp [hblank])]
              exact ⟨fun _ => rfl, fun _ => named_of_ne_nil _ (by simpa [Text.lower] using hne)⟩
          | true =>
              -- the name that is read has a character less
              refine ⟨fun h => ?_, fun h => by cases h⟩
              rw [named] at h
              split at h
              · cases h
              · have hlen := congrArg List.length (Piece.attr.inj (Option.some.inj h))
                rw [List.takeWhile_cons_of_pos hblank] at hlen
                simp only [Text.lower, List.length_map, List.length_drop, List.length_cons] at hlen
                have hpos := List.length_pos_iff.2 hne
                omega

/-- Of a list of plain selectors the pieces are read if and only if each is. -/
theorem filterMap_readPiece_iff (xs : List Plain) :
    xs.filterMap readPiece = xs.map piece ↔ ∀ x ∈ xs, x.StartsBare := by
  induction xs with
  | nil => simp
  | cons x xs ih =>
      rw [List.forall_mem_cons, ← ih, ← x.readPiece_eq_iff, List.map_cons]
      cases h : x.readPiece with
      | none =>
          rw [List.filterMap_cons_none h]
          refine ⟨fun e => ?_, fun e => nomatch e.1⟩
          -- too few pieces are read
          have hlen := congrArg List.length e
          have hle := List.length_filterMap_le readPiece xs
          rw [List.length_cons, List.length_map] at hlen
          omega
      | some p => rw [List.filterMap_cons_some h, List.cons.injEq, Option.some.injEq]

end Plain

open Plain in
/-- **Plain compounds are read as they are spelled.**  A selector starts with a plain compound, and
behind it stands nothing more, or a combinator or pseudo-class.  It is cut behind the compound, and
its pieces are those that the compound is spelled for if and only if no attribute of it starts with
a blank. -/
theorem parts_plain_iff {ps : List Piece} {s rest : Text} (hs : Leading ps s) (xs : List Plain)
    (hne : s ++ xs.flatMap text ≠ []) (hrest : Follows rest) :
    parts (s ++ xs.flatMap text ++ rest) = ⟨ps ++ xs.map piece, Text.trim rest⟩ ↔
      ∀ x ∈ xs, x.StartsBare := by
  have hpasses : Cursor.Passes 0 (s ++ xs.flatMap text) := hs.passes.append (passes_flatMap xs)
  rw [parts, breakLength_append hpasses hne hrest, List.take_left, List.drop_left, pieces,
    hs.read (ends_flatMap xs), read_flatMap, ← filterMap_readPiece_iff, Parts.mk.injEq,
    and_iff_left rfl, List.append_cancel_left_eq]

/-- `md:flex`, the colon behind a backslash. -/
def flexWord : Word where
  name := "md:flex".toList
  spelling := "md\\:flex".toList
  spells := .plain (by decide) (.plain (by decide) (.escape (by decide) (.plain (by decide)
    (.plain (by decide) (.plain (by decide) (.plain (by decide) .nil))))))
  named := by decide

/-- `Ref`, its first letter as a number. -/
def refWord : Word where
  name := "Ref".toList
  spelling := "\\52 ef".toList
  spells :=
    have hdigits : ∀ d ∈ "52".toList, Text.isHexDigit d = true :=
      List.forall_mem_cons.2 ⟨rfl, List.forall_mem_singleton.2 rfl⟩
    .hex (by decide) (by decide) hdigits (by decide) (by decide)
      (.plain (by decide) (.plain (by decide) .nil))
  named := by decide

/-- A type, a class and an attribute, with a pseudo-class behind them. -/
theorem parts_plain_flex :
    let xs := [Plain.className flexWord, .attr refWord]
    let t := "DIV".toList ++ xs.flatMap Plain.text ++ ":hover".toList
    t = "DIV.md\\:flex[\\52 ef]:hover".toList ∧ (∀ x ∈ xs, x.StartsBare) ∧
      parts t = ⟨[.element (Text.lower "DIV".toList)] ++ xs.map Plain.piece,
        Text.trim ":hover".toList⟩ := by
  intro xs t
  have hdiv : Leading [.element (Text.lower "DIV".toList)] "DIV".toList :=
    .element (.plain (by decide) (.plain (by decide) (.plain (by decide) .nil))) (by decide)
  have hfollows : Follows ":hover".toList := by
    rintro c ⟨⟩
    decide
  have hbare : ∀ x ∈ xs, x.StartsBare := by
    refine List.forall_mem_cons.2 ⟨trivial, List.forall_mem_singleton.2 ?_⟩
    rintro c ⟨⟩
    decide
  exact ⟨by decide, hbare, (parts_plain_iff hdiv xs (by decide) hfollows).2 hbare⟩

/-- A no-break space and `x`, as they stand. -/
def noBreakWord : Word where
  name := "\u00a0x".toList
  spelling := "\u00a0x".toList
  spells := .plain (by decide) (.plain (by decide) .nil)
  named := by decide

/-- A no-break space is a character of a name.  It is read as such in a class, but in front of the
name of an attribute it is passed over. -/
theorem parts_plain_differs :
    parts (Plain.text (.className noBreakWord)) = ⟨[Plain.piece (.className noBreakWord)], []⟩ ∧
      parts (Plain.text (.attr noBreakWord)) ≠ ⟨[Plain.piece (.attr noBreakWord)], []⟩ ∧
        parts (Plain.text (.attr noBreakWord)) = parts "[x]".toList := by
  decide

end StyleSieve.Selector
