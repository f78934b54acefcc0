import StyleSieve.Proofs.Catalog.Lines
import StyleSieve.Proofs.Markup.Scanner
import StyleSieve.Proofs.Selector.Branches
import StyleSieve.Proofs.Text.Utf8

/-!
# End tags in what is written

A text is inert if no end tag of a style element stands in it.  A line is made of texts of its
stylesheet and of the punctuation between them, and the character behind each of these texts can
stand in an end tag only behind its name.  So no end tag reaches over two of them: what is written
of a catalog is inert if and only if each text that it copies is, with the character behind it.

* `inert_append_cons`: a character that divides.
* `Stylesheet.Run.inert_text`: a line.
* `Catalog.inert_render`: all that is written of a catalog.
-/

namespace StyleSieve

open Markup (Lacks Mark Matcher lacks_append_cons styleName styleName_isWord)
open Utf8 (encode)

/-- No end tag of a style element stands in the text. -/
def Inert (t : Text) : Prop := Lacks styleName .closing (encode t)

instance (t : Text) : Decidable (Inert t) :=
  decidable_of_iff _ (Matcher.lacks_iff styleName_isWord .closing (encode t))

/-! ### Characters that divide -/

/-- Whether a character stands in no end tag, but behind its name. -/
def divides (c : Char) : Bool := (String.utf8EncodeChar c).all fun b => (Mark.of b).divides

/-- The text ends with a character that divides. -/
def EndsDivided (t : Text) : Prop := ∃ u d, t = u ++ [d] ∧ divides d = true

variable {a b : Text} {d : Char}

/-- A character that divides parts what stands before it and with it from what stands behind. -/
theorem inert_append_cons (hd : divides d = true) :
    Inert (a ++ d :: b) ↔ Inert (a ++ [d]) ∧ Inert b := by
  obtain ⟨bytes, x, hx⟩ :=
    (List.eq_nil_or_concat' (String.utf8EncodeChar d)).resolve_left String.utf8EncodeChar_ne_nil
  have hx' : (Mark.of x).divides = true :=
    List.all_eq_true.1 hd x (hx ▸ List.mem_append_right bytes (List.mem_singleton_self x))
  have hab : encode (a ++ d :: b) = (encode a ++ bytes) ++ x :: encode b := by
    simp [Utf8.encode_append, Utf8.encode_cons, hx]
  have ha : encode (a ++ [d]) = (encode a ++ bytes) ++ [x] := by
    simp [Utf8.encode_append, Utf8.encode_cons, Utf8.encode_nil, hx]
  rw [Inert, Inert, Inert, hab, ha]
  exact lacks_append_cons styleName_isWord hx'

theorem inert_nil : Inert [] := Markup.lacks_nil _ _

theorem inert_cons (hd : divides d = true) : Inert (d :: b) ↔ Inert b := by
  have hsingle : Inert [d] := Markup.lacks_of_no_less fun hless => by
    rw [Utf8.encode_cons, Utf8.encode_nil, List.append_nil] at hless
    exact absurd (List.all_eq_true.1 hd _ hless) (by decide)
  rw [← List.nil_append (d :: b), inert_append_cons hd]
  exact and_iff_right hsingle

theorem EndsDivided.inert_append (ha : EndsDivided a) : Inert (a ++ b) ↔ Inert a ∧ Inert b := by
  obtain ⟨u, d, rfl, hd⟩ := ha
  rw [← List.append_cons, inert_append_cons hd]

theorem EndsDivided.append (hb : EndsDivided b) (a : Text) : EndsDivided (a ++ b) := by
  obtain ⟨u, d, rfl, hd⟩ := hb
  exact ⟨a ++ u, d, (List.append_assoc ..).symm, hd⟩

theorem inert_flatMap {α : Type} {f : α → Text} {xs : List α} (hf : ∀ x, EndsDivided (f x)) :
    Inert (xs.flatMap f ++ b) ↔ (∀ x ∈ xs, Inert (f x)) ∧ Inert b := by
  induction xs with
  | nil => simp
  | cons x xs ih =>
      rw [List.flatMap_cons, List.append_assoc, (hf x).inert_append, ih, List.forall_mem_cons,
        and_assoc]

/-! ### Selectors -/

/-- Selectors as they are written in front of a block, each with the character behind it. -/
def Selector.copies : List Text → List Text
  | [] => []
  | [t] => [t ++ [' ']]
  | t :: ts => (t ++ [',']) :: copies ts

theorem Selector.inert_join (t : Text) (ts : List Text) :
    Inert (join (t :: ts) ++ ' ' :: b) ↔ (∀ u ∈ copies (t :: ts), Inert u) ∧ Inert b := by
  induction ts generalizing t with
  | nil =>
      have hjoin : join [t] = t := by simp [join, List.intercalate]
      rw [hjoin, inert_append_cons (by decide), copies, List.forall_mem_singleton]
  | cons u ts ih =>
      have hcopies : copies (t :: u :: ts) = (t ++ [',']) :: copies (u :: ts) := rfl
      rw [join_cons, List.append_assoc, List.cons_append, List.cons_append,
        inert_append_cons (by decide), inert_cons (by decide), ih, hcopies, List.forall_mem_cons,
        and_assoc]

/-! ### Lines -/

namespace Stylesheet

/-- The texts that a setting copies, each with the character behind it. -/
def Setting.copies (s : Setting) : List Text := [s.property ++ [':'], s.value ++ [';']]

namespace Run

/-- The texts that are copied in front of a block and in it, each with the character behind it. -/
def coreCopies (run : Run) (body : Body) : List Text :=
  if run.first.isGlobal then
    match body.source with
    | some source => [run.first.text ++ [' '], source ++ [' ']]
    | none => [run.first.text ++ [';']]
  else
    Selector.copies (run.branches.map (·.text)) ++ body.settings.flatMap Setting.copies

/-- The texts of a stylesheet that a line copies, each with the character behind it. -/
def copies (run : Run) (body : Body) : List Text :=
  run.first.conditions.map (fun c => c.text ++ [' ']) ++ run.coreCopies body

theorem opening_append (t : Text) : opening ++ t = ' ' :: '\x7b' :: t := by simp [opening]

theorem inert_closing : Inert closing := by decide

theorem endsDivided_closing : EndsDivided closing := ⟨[' '], '\x7d', rfl, by decide⟩

theorem inert_settingText (s : Setting) : Inert (settingText s) ↔ ∀ t ∈ s.copies, Inert t := by
  rw [settingText, inert_cons (by decide), inert_append_cons (by decide), inert_cons (by decide)]
  simp [Setting.copies]

theorem endsDivided_coreText (run : Run) (body : Body) : EndsDivided (run.coreText body) := by
  unfold coreText
  split
  · cases body.source with
    | some source =>
        have hblock := (endsDivided_closing.append source).append [' ']
        exact (hblock.append opening).append run.first.text
    | none => exact ⟨run.first.text, ';', rfl, by decide⟩
  · exact ((endsDivided_closing.append _).append opening).append _

theorem inert_coreText (run : Run) (body : Body) :
    Inert (run.coreText body) ↔ ∀ t ∈ run.coreCopies body, Inert t := by
  have hsetting (s : Setting) : EndsDivided (settingText s) :=
    ⟨' ' :: (s.property ++ (':' :: ' ' :: s.value)), ';', by simp [settingText], by decide⟩
  unfold coreText coreCopies
  split
  · cases body.source with
    | some source =>
        have hsource : Inert (source ++ closing) ↔ Inert (source ++ [' ']) :=
          (inert_append_cons (by decide)).trans (and_iff_left (by decide))
        simp only [opening_append]
        rw [inert_append_cons (by decide), inert_cons (by decide), inert_cons (by decide), hsource]
        simp
    | none => simp
  · rw [opening_append, branches, List.map_cons, Selector.inert_join, inert_cons (by decide),
      inert_flatMap hsetting, and_iff_left inert_closing, List.forall_mem_append,
      List.forall_mem_flatMap]
    exact and_congr_right' (forall₂_congr fun s _ => inert_settingText s)

/-- A line is inert if and only if all that it copies is. -/
theorem inert_text (run : Run) (body : Body) :
    Inert (run.text body) ↔ ∀ t ∈ run.copies body, Inert t := by
  have hcondition (c : Condition) : EndsDivided (c.text ++ (opening ++ [' '])) :=
    ⟨c.text ++ opening, ' ', by simp, by decide⟩
  have htail : Inert (run.first.conditions.flatMap (fun _ => closing) ++ ['\n']) :=
    (inert_flatMap fun _ => endsDivided_closing).2 ⟨fun _ _ => inert_closing, by decide⟩
  rw [text, inert_flatMap hcondition, (run.endsDivided_coreText body).inert_append,
    and_iff_left htail, inert_coreText, copies, List.forall_mem_append, List.forall_mem_map]
  refine and_congr_left' (forall₂_congr fun c _ => ?_)
  rw [opening_append, inert_append_cons (by decide)]
  exact and_iff_left (by decide)

end Run

end Stylesheet

/-! ### All lines -/

namespace Catalog

/-- The texts of a stylesheet that a line copies, each with the character behind it. -/
def Line.copies (l : Line) : List Text := l.run.copies l.body

/-- What is written for some bodies is inert if and only if all that its lines copy is. -/
theorem inert_render (c : Catalog) (bodies : List BodyRef) (globals : Bool) :
    Inert (c.render bodies globals) ↔
      ∀ l ∈ c.lines bodies globals, ∀ t ∈ l.copies, Inert t := by
  have hline (l : Line) : EndsDivided l.text :=
    (EndsDivided.append ⟨_, '\n', rfl, by decide⟩ _).append _
  rw [render_eq_lines, ← List.append_nil (List.flatMap ..), inert_flatMap hline]
  simp only [inert_nil, and_true]
  exact forall₂_congr fun l _ => l.run.inert_text l.body

end Catalog

end StyleSieve
