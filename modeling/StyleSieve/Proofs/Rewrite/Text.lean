import StyleSieve.Proofs.Rewrite.Layout
import StyleSieve.Proofs.Text.Decode

/-!
# A page in text stays text

The stretches that a page falls into (`IsLayout`) all end with a `>`, a byte of ASCII, but for the
last.  So if the page is a text each of them is, and what is written in their place is a text too.

* `IsLayout.isText`: the stretches of a text, and the output.
* `encode_document`: a whole page that is rewritten as a text is what a rewriter sends.
* `Rewriter.complete_decodes`: a page that decodes, in any pieces.
-/

namespace StyleSieve.Markup

/-- The last byte is a `>`. -/
def EndsInGreater (s : Bytes) : Prop := ∃ a, s = a ++ [0x3E]

theorem EndsInGreater.append {a b : Bytes} (h : EndsInGreater b) : EndsInGreater (a ++ b) := by
  obtain ⟨c, rfl⟩ := h
  exact ⟨a ++ c, (List.append_assoc ..).symm⟩

theorem Attrs.endsInGreater {as : List Attr} {s : Bytes} (h : Attrs as s) : EndsInGreater s := by
  induction h with
  | close => exact ⟨[], rfl⟩
  | @gap b as s _ _ ih => exact ih.append (a := [b])
  | bare _ _ _ _ _ _ ih => exact ih.append
  | missing => exact ⟨_, rfl⟩
  | @quoted n t v s q as _ _ _ _ ih => simpa using ih.append (a := t ++ q :: v ++ [q])
  | plain _ _ _ _ ih => exact ih.append

theorem StartTag.endsInGreater {t : Tag} {u : Bytes} (h : StartTag t u) : EndsInGreater u := by
  cases h with
  | intro _ _ hs => exact hs.endsInGreater.append

theorem EndsWithTag.endsInGreater {kind : TagKind} {m : Bytes} (h : EndsWithTag kind m) :
    EndsInGreater m := by
  obtain ⟨ts, t, x, u, rfl, -, hu, -⟩ := h
  exact hu.endsInGreater.append

end StyleSieve.Markup

namespace StyleSieve.Rewrite

open Markup (EndsInGreater)
open Utf8 (IsText)

theorem StyleTag.endsInGreater {side : Markup.Side} {t : Bytes} (h : StyleTag side t) :
    EndsInGreater t := by
  cases h with
  | short => exact ⟨_, rfl⟩
  | long => exact ⟨_, rfl⟩

/-- A whole region ends with a tag. -/
theorem Region.endsInGreater {limit : Nat} {s : Bytes} (h : Region limit 0 s) :
    EndsInGreater s := by
  generalize hd : 0 = depth at h
  cases h with
  | start => cases hd
  | tag _ _ ht => exact ht.endsInGreater.append

theorem isText_of_append {a b : Bytes} (ha : EndsInGreater a) (h : IsText (a ++ b)) :
    IsText a ∧ IsText b := by
  obtain ⟨c, rfl⟩ := ha
  rw [List.append_assoc] at h
  exact h.split (by decide)

/-- Stretches that make a text are texts. -/
theorem isText_of_stretches {ms : List Bytes} (hms : ∀ m ∈ ms, EndsInGreater m)
    (h : IsText ms.flatten) : ∀ m ∈ ms, IsText m := by
  induction ms with
  | nil => exact fun _ h => nomatch h
  | cons m ms ih =>
      obtain ⟨hm, hms⟩ := List.forall_mem_cons.1 hms
      obtain ⟨htext, hrest⟩ := isText_of_append hm h
      exact List.forall_mem_cons.2 ⟨htext, ih hms hrest⟩

/-- The stretches that a text falls into are texts. -/
theorem isText_of_passages {xs : List Passage} {last : Bytes}
    (hopens : ∀ x ∈ xs, EndsInGreater x.markup)
    (hwhole : ∀ x ∈ xs.dropLast, EndsInGreater x.dropped)
    (hending : ∀ x ∈ xs.getLast?, EndsInGreater x.dropped ∨ last = [])
    (h : IsText (xs.flatMap Passage.source ++ last)) :
    (∀ x ∈ xs, IsText x.markup) ∧ IsText last := by
  induction xs with
  | nil => exact ⟨fun _ h => (nomatch h), h⟩
  | cons x xs ih =>
      rw [List.flatMap_cons, List.append_assoc, Passage.source, List.append_assoc] at h
      obtain ⟨hm, hd⟩ := isText_of_append (hopens x (by simp)) h
      have hrest : IsText (xs.flatMap Passage.source ++ last) := by
        cases xs with
        | nil =>
            rcases hending x (by simp) with hx | rfl
            · exact (isText_of_append hx hd).2
            · exact .nil
        | cons y xs => exact (isText_of_append (hwhole x (by simp)) hd).2
      obtain ⟨hms, hlast⟩ := ih (fun y hy => hopens y (by simp [hy]))
        (fun y hy => hwhole y (by cases xs <;> simp_all))
        (fun y hy => hending y (by cases xs <;> simp_all)) hrest
      exact ⟨List.forall_mem_cons.2 ⟨hm, hms⟩, hlast⟩

variable {supply : Supply} {options : Options} {page output : Bytes} {stats : Stats}
  {xs : List Passage} {last : Bytes}

/-- Of a page in text all markup is text, and so is the output. -/
theorem IsLayout.isText (h : IsLayout supply options page output stats xs last)
    (hpage : IsText page) : (∀ x ∈ xs, IsText x.markup) ∧ IsText output := by
  obtain ⟨hms, hlast⟩ := isText_of_passages (fun x hx => (h.opens x hx).endsInGreater)
    (fun x hx => (h.whole x hx).endsInGreater)
    (fun x hx => (h.ending x hx).imp Region.endsInGreater And.right) (h.source ▸ hpage)
  refine ⟨hms, ?_⟩
  rw [h.result]
  refine IsText.append (.flatMap fun x hx => ?_) hlast
  exact (hms x hx).append ((Utf8.isText_encode _).append (Utf8.isText_encode _))

/-- A whole page that is rewritten as a text is what a rewriter sends. -/
theorem encode_document (supply : Supply) (html : Text) :
    Utf8.encode (document supply html) =
      (Rewriter.complete { supply } [Utf8.encode html]).2 := by
  obtain ⟨xs, last, h⟩ := Rewriter.exists_layout supply {} (Utf8.encode html)
  exact (h.isText (Utf8.isText_encode html)).2.encode_decodeLossy

/-- **A page that decodes is rewritten to one that does**, in any pieces and with any options.  So
where a whole page is rewritten as a text no character is replaced, and the text is what a rewriter
sends. -/
theorem Rewriter.complete_decodes (supply : Supply) (options : Options) (pieces : List Bytes)
    (html : Text) (hpage : Utf8.decode? pieces.flatten = some html) :
    let sent := (complete { supply, options } pieces).2
    none ∉ Utf8.units sent ∧ Utf8.decode? sent = some (Utf8.decodeLossy sent) ∧
      Utf8.encode (Utf8.decodeLossy sent) = sent ∧
      Utf8.encode (document supply html) = (complete { supply } pieces).2 := by
  intro sent
  have hencode : pieces.flatten = Utf8.encode html := Utf8.decode?_eq_some_iff.1 hpage
  obtain ⟨xs, last, h⟩ := exists_layout supply options pieces.flatten
  have hsent : IsText sent := by
    show IsText (complete { supply, options } pieces).2
    rw [complete_flatten]
    exact (h.isText (hencode ▸ Utf8.isText_encode html)).2
  refine ⟨Utf8.isText_iff_units.1 hsent, ?_, hsent.encode_decodeLossy, ?_⟩
  · exact Utf8.decode?_eq_some_iff.2 hsent.encode_decodeLossy.symm
  · rw [encode_document, complete_flatten { supply } pieces, hencode]

/-- A page that is cut within its first character. -/
theorem Rewriter.complete_decodes_umlauts :
    let page := Utf8.encode "ä<style>ö</style>ü".toList
    let sent := (complete { supply := Catalog.supply {} } [page.take 1, page.drop 1]).2
    none ∉ Utf8.units sent ∧ Utf8.decode? sent = some (Utf8.decodeLossy sent) ∧
      Utf8.encode (Utf8.decodeLossy sent) = sent ∧
      Utf8.encode (document (Catalog.supply {}) "ä<style>ö</style>ü".toList) = sent :=
  complete_decodes (Catalog.supply {}) {} _ _ (by decide +kernel)

end StyleSieve.Rewrite
