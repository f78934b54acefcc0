import StyleSieve.Proofs.Selector.Break
import StyleSieve.Selector.Parts

/-!
# Compound selectors

The grammar of a compound selector without pseudo-classes: a type or `*` first, if any, and then
classes, ids and attributes without a value.  Names may be spelled in any way.

* `parts_of_compound`: a selector that starts with a compound has its pieces.
-/

namespace StyleSieve.Selector

open Name (Ends Spells isPlain)

/-- A simple selector that can stand behind others: a class, an id, or an attribute in brackets,
perhaps with blanks around it. -/
inductive Simple : Piece → (s : Text) → Prop where
  | className {name s : Text} :
      Spells name s → name ≠ [] → Simple (.className name) ('.' :: s)
  | id {name s : Text} : Spells name s → name ≠ [] → Simple (.id name) ('#' :: s)
  | attr {name w s w' : Text} :
      (∀ c ∈ w, Text.isBlank c = true) → (∀ c ∈ s.head?, Text.isBlank c = false) →
        Spells name s → name ≠ [] → (∀ c ∈ w', Text.isSpace c = true) →
          Simple (.attr (Text.lower name)) ('[' :: (w ++ (s ++ (w' ++ [']']))))

/-- What can stand first in a compound: a type, `*`, or neither. -/
inductive Leading : List Piece → (s : Text) → Prop where
  | none : Leading [] []
  | universal : Leading [.universal] ['*']
  | element {name s : Text} {c : Char} :
      Spells name (c :: s) → Name.isStart c = true →
        Leading [.element (Text.lower name)] (c :: s)

/-- Simple selectors in a row. -/
inductive Simples : List Piece → (s : Text) → Prop where
  | nil : Simples [] []
  | cons {p : Piece} {ps : List Piece} {s t : Text} :
      Simple p s → Simples ps t → Simples (p :: ps) (s ++ t)

/-- `s` is a compound of the given pieces. -/
inductive Compound : List Piece → (s : Text) → Prop where
  | intro {ps qs : List Piece} {s t : Text} :
      Leading ps s → Simples qs t → s ++ t ≠ [] → Compound (ps ++ qs) (s ++ t)

variable {p : Piece} {ps : List Piece} {s t : Text}

/-- A name ends where a simple selector starts. -/
theorem Simples.ends (h : Simples ps t) : Ends t := by
  cases h with
  | nil => exact .nil
  | cons hp _ =>
      cases hp with
      | className | id | attr =>
          rintro c ⟨⟩
          decide

/-! ### Up to the break -/

theorem Cursor.passes_blanks {w : Text} (hw : ∀ c ∈ w, Text.isBlank c = true) (depth : Nat) :
    Cursor.Passes (depth + 1) w := by
  induction w with
  | nil => exact .nil _
  | cons c w ih =>
      obtain ⟨hc, hw⟩ := List.forall_mem_cons.1 hw
      exact .cons (Cursor.step_blank hc fun h => nomatch h) (ih hw)

theorem isBlank_of_isSpace {c : Char} (h : Text.isSpace c = true) : Text.isBlank c = true := by
  simp only [Text.isSpace, Bool.or_eq_true, beq_iff_eq] at h
  rcases h with (((rfl | rfl) | rfl) | rfl) | rfl
  all_goals decide

theorem Simple.passes (h : Simple p s) : Cursor.Passes 0 s := by
  cases h with
  | className hs _ => exact .cons rfl (Cursor.passes_spells hs 0)
  | id hs _ => exact .cons rfl (Cursor.passes_spells hs 0)
  | attr hw _ hs _ hw' =>
      have hw' := Cursor.passes_blanks (fun c hc => isBlank_of_isSpace (hw' c hc)) 0
      exact .cons rfl ((Cursor.passes_blanks hw 0).append ((Cursor.passes_spells hs 1).append
        (hw'.append (.cons rfl (.nil _)))))

theorem Simples.passes (h : Simples ps t) : Cursor.Passes 0 t := by
  induction h with
  | nil => exact .nil _
  | cons hp _ ih => exact hp.passes.append ih

theorem Leading.passes (h : Leading ps s) : Cursor.Passes 0 s := by
  cases h with
  | none => exact .nil _
  | universal => exact .cons rfl (.nil _)
  | element hs _ => exact Cursor.passes_spells hs 0

theorem Compound.passes (h : Compound ps s) : Cursor.Passes 0 s := by
  cases h with
  | intro hs ht _ => exact hs.passes.append ht.passes

/-! ### The pieces -/

theorem piecesFrom_skip_add (a t : Text) (n : Nat) :
    piecesFrom (a.length + n) (a ++ t) = piecesFrom n t := by
  induction a with
  | nil => rw [List.length_nil, Nat.zero_add, List.nil_append]
  | cons c a ih => rw [List.length_cons, Nat.succ_add, List.cons_append, piecesFrom, ih]

theorem piecesFrom_skip (a t : Text) : piecesFrom a.length (a ++ t) = piecesFrom 0 t :=
  piecesFrom_skip_add a t 0

theorem named_of_ne_nil (piece : Text → Piece) {name : Text} (h : name ≠ []) :
    named piece name = some (piece name) := by
  rw [named, if_neg (by simpa using h)]

/-- Blanks and then the bracket close an attribute. -/
theorem closingExtent_blanks {w : Text} (hw : ∀ c ∈ w, Text.isSpace c = true) (t : Text) :
    closingExtent none (w ++ ']' :: t) = (w ++ [']']).length := by
  induction w with
  | nil => rfl
  | cons c w ih =>
      obtain ⟨hc, hw⟩ := List.forall_mem_cons.1 hw
      have hne {d : Char} (hd : Text.isSpace d = false) : c ≠ d := ne_of_kind hc hd
      rw [List.cons_append, closingExtent, ih hw]
      simp [hne (d := '\x22') (by decide), hne (d := '\x27') (by decide),
        hne (d := ']') (by decide)]

/-- An attribute is read as its name, behind the blanks, and up to its bracket. -/
theorem read_attr {name blanks s v t : Text} (hblanks : ∀ c ∈ blanks, Text.isBlank c = true)
    (hs : Spells name s) (hhead : ∀ c ∈ (s ++ (v ++ ']' :: t)).head?, Text.isBlank c = false)
    (hends : Ends (v ++ ']' :: t)) (hclose : closingExtent none (v ++ ']' :: t) = v.length + 1) :
    piecesFrom 0 ('[' :: (blanks ++ (s ++ (v ++ ']' :: t)))) =
      (named .attr (Text.lower name)).toList ++ piecesFrom 0 t := by
  have htake : (blanks ++ (s ++ (v ++ ']' :: t))).takeWhile Text.isBlank = blanks := by
    rw [List.takeWhile_append_of_pos hblanks]
    cases h : s ++ (v ++ ']' :: t) with
    | nil => simp
    | cons c rest =>
        have hc := hhead c (by rw [h]; rfl)
        simp [hc]
  have hskip : blanks ++ (s ++ (v ++ ']' :: t)) = blanks ++ s ++ (v ++ [']']) ++ t := by simp
  have hlength : blanks.length + s.length + (v.length + 1) =
      (blanks ++ s ++ (v ++ [']'])).length := by
    simp only [List.length_append, List.length_singleton]
  rw [piecesFrom, pieceAt, if_neg (by decide), if_neg (by decide), if_pos rfl]
  simp only [htake, List.drop_left, Name.read_spells hs hends, Name.extent_spells hs hends, hclose]
  rw [hskip, hlength, piecesFrom_skip]

/-- A simple selector is read as its piece, and the next one behind it. -/
theorem Simple.read (h : Simple p s) (ht : Ends t) :
    piecesFrom 0 (s ++ t) = p :: piecesFrom 0 t := by
  cases h with
  | className hs hne =>
      rw [List.cons_append, piecesFrom, pieceAt, if_pos rfl, Name.read_spells hs ht,
        Name.extent_spells hs ht, named_of_ne_nil _ hne, piecesFrom_skip]
      rfl
  | id hs hne =>
      rw [List.cons_append, piecesFrom, pieceAt, if_neg (by decide), if_pos rfl,
        Name.read_spells hs ht, Name.extent_spells hs ht, named_of_ne_nil _ hne, piecesFrom_skip]
      rfl
  | @attr name w s w' hw hhead hs hne hw' =>
      -- the name ends at the blanks or at the bracket
      have hends : Ends (w' ++ ']' :: t) := by
        cases w' with
        | nil =>
            rintro c ⟨⟩
            decide
        | cons c w' =>
            rintro d ⟨⟩
            have hc := hw' c (by simp)
            exact ⟨isPlain_of_isSpace hc, ne_of_kind hc (by decide)⟩
      have hbare : ∀ c ∈ (s ++ (w' ++ ']' :: t)).head?, Text.isBlank c = false := by
        cases s with
        | nil => exact absurd (hs.eq_nil_iff.2 rfl) hne
        | cons c s => exact hhead
      have hclose : closingExtent none (w' ++ ']' :: t) = w'.length + 1 := by
        rw [closingExtent_blanks hw', List.length_append, List.length_singleton]
      have htext : '[' :: (w ++ (s ++ (w' ++ [']']))) ++ t =
          '[' :: (w ++ (s ++ (w' ++ ']' :: t))) := by simp
      rw [htext, read_attr hw hs hbare hends hclose,
        named_of_ne_nil _ (by simpa [Text.lower] using hne)]
      rfl

theorem pieces_simples (h : Simples ps t) : piecesFrom 0 t = ps := by
  induction h with
  | nil => rfl
  | cons hp ht ih => rw [hp.read ht.ends, ih]

/-- What stands first in a compound is read as its piece, if it has one. -/
theorem Leading.read (h : Leading ps s) (ht : Ends t) :
    piecesFrom 0 (s ++ t) = ps ++ piecesFrom 0 t := by
  cases h with
  | none => rfl
  | universal =>
      rw [List.cons_append, piecesFrom, List.nil_append]
      rfl
  | @element name s c hs hc =>
      have hne {d : Char} (hd : Name.isStart d = false) : c ≠ d := ne_of_kind hc hd
      have hname : name ≠ [] := mt hs.eq_nil_iff.1 (List.cons_ne_nil _ _)
      rw [List.cons_append, piecesFrom, pieceAt, if_neg (hne (by decide)),
        if_neg (hne (by decide)), if_neg (hne (by decide)), if_neg (hne (by decide)),
        if_neg (hne (by decide)), if_pos hc, ← List.cons_append, Name.read_spells hs ht,
        Name.extent_spells hs ht, named_of_ne_nil _ (by simpa [Text.lower] using hname),
        List.length_cons, Nat.add_sub_cancel, piecesFrom_skip]
      rfl

theorem pieces_compound (h : Compound ps s) : pieces s = ps := by
  unfold pieces
  cases h with
  | intro hs ht _ => rw [hs.read ht.ends, pieces_simples ht]

/-- A selector that starts with a compound is cut behind it, and has its pieces. -/
theorem parts_of_compound {rest : Text} (h : Compound ps s) (hrest : Follows rest) :
    parts (s ++ rest) = { pieces := ps, remainder := Text.trim rest } := by
  have hne : s ≠ [] := by
    cases h with
    | intro _ _ hne => exact hne
  rw [parts, breakLength_append h.passes hne hrest, List.take_left, List.drop_left,
    pieces_compound h]

end StyleSieve.Selector
