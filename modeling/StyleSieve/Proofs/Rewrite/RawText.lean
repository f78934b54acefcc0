import StyleSieve.Proofs.Catalog.EndTags
import StyleSieve.Proofs.Catalog.Lenient
import StyleSieve.Proofs.Rewrite.Layout

/-!
# Where a style element of the output ends

The content of a style element is raw text: it ends where the first end tag of a style element
starts, whatever stands before it.  CSS is copied into the output as it stands in the stylesheets,
in which a string, a comment or an address may hold such an end tag.  So the element of a region
ends at the `</style>` that is written behind the region exactly if what is copied into it is inert.

* `isContent_iff`: what the content of an element with some CSS is.
* `Rewriter.ends_iff_inert`: the elements of a page.
* `quoted_end_tag`: a string that ends its element.
-/

namespace StyleSieve.Rewrite

open Markup (Boundary Lacks styleName styleName_isWord)

/-- Behind the start tag of a style element stands `content ++ rest`, and the element holds
`content`: an end tag starts behind it, and none before. -/
structure IsContent (content rest : Bytes) : Prop where
  ends : ∃ t, Boundary styleName .closing t ∧ t <+: rest
  first : ∀ a t, Boundary styleName .closing t → a ++ t <+: content ++ rest →
    content.length ≤ a.length

/-- An end tag is written behind some CSS: that CSS is the content of the element if and only if it
holds no end tag itself. -/
theorem isContent_iff {css rest : Bytes} :
    IsContent css (styleEnd ++ rest) ↔ Lacks styleName .closing css := by
  constructor
  · rintro h t ht ⟨a, z, rfl⟩
    have hlen := h.first a t ht (by simp [List.append_assoc])
    obtain ⟨n, b, rfl⟩ := ht.eq_snoc
    simp only [List.length_append, List.length_singleton] at hlen
    omega
  · refine fun h => ⟨⟨styleEnd, styleEnd_boundary, List.prefix_append ..⟩, fun a t ht hp => ?_⟩
    by_contra hlen
    rw [not_le] at hlen
    -- the end tag starts in the CSS, and so it reaches to the `<` behind it
    obtain ⟨u, rfl⟩ : a <+: css :=
      List.prefix_of_prefix_length_le ((List.prefix_append a t).trans hp)
        (List.prefix_append css _) hlen.le
    have hu : u ≠ [] := by
      rintro rfl
      simp at hlen
    rw [List.append_assoc, List.prefix_append_right_inj] at hp
    rcases List.prefix_or_prefix_of_prefix hp (List.prefix_append u _) with htu | ⟨v, rfl⟩
    · exact h t ht (htu.isInfix.trans (List.suffix_append a u).isInfix)
    · rw [List.prefix_append_right_inj] at hp
      cases v with
      | nil =>
          rw [List.append_nil] at ht
          exact h u ht (List.suffix_append a u).isInfix
      | cons y v =>
          obtain rfl : y = 0x3C := (List.cons_prefix_cons.1 hp).1
          exact ht.ne_less styleName_isWord hu List.mem_cons_self rfl

/-- **An element ends at its own end tag exactly if all that is copied into it is inert.**  What is
written of a catalog is inert if and only if each text that its lines copy is, with the character
behind it; a page in any pieces gets such CSS for each region, and the element of the region holds
that CSS, and no less, under the same condition. -/
theorem Rewriter.ends_iff_inert (c : Catalog) (options : Options) (pieces : List Bytes) :
    (∀ bodies globals, Inert (c.render bodies globals) ↔
      ∀ l ∈ c.lines bodies globals, ∀ t ∈ l.copies, Inert t) ∧
    ∃ xs last,
      IsLayout c.supply options pieces.flatten
        (Rewriter.complete { supply := c.supply, options } pieces).2
        (Rewriter.complete { supply := c.supply, options } pieces).1 xs last ∧
      ∀ before x after, xs = before ++ x :: after → ∃ bodies globals rest,
        (Rewriter.complete { supply := c.supply, options } pieces).2 =
          before.flatMap Passage.result ++ x.markup ++ (Utf8.encode x.css ++ (styleEnd ++ rest)) ∧
        x.css = c.render bodies globals ∧
        (IsContent (Utf8.encode x.css) (styleEnd ++ rest) ↔
          ∀ l ∈ c.lines bodies globals, ∀ t ∈ l.copies, Inert t) := by
  refine ⟨c.inert_render, ?_⟩
  rw [Rewriter.complete_flatten]
  obtain ⟨xs, last, hlayout⟩ := Rewriter.exists_layout c.supply options pieces.flatten
  refine ⟨xs, last, hlayout, ?_⟩
  rintro before x after rfl
  have hcss := (Progress.written_append.1 hlayout.css).2.1
  refine ⟨_, _, after.flatMap Passage.result ++ last, ?_, hcss, ?_⟩
  · rw [hlayout.result]
    simp [Passage.result]
  · rw [isContent_iff, hcss]
    exact c.inert_render _ _

/-- A string may hold an end tag, in a source that is checked too.  It is copied as it stands, so
the element of the region ends within the string. -/
theorem quoted_end_tag :
    let source := ("a.css".toList, ".a \x7b content: \"</style></style>\" \x7d".toList)
    let c := Catalog.lenient [source]
    let page := Utf8.encode "<p class=a><style></style>".toList
    let css := ".a \x7b content: \"</style></style>\"; \x7d\n".toList
    Catalog.ofSources {} [source] = .ok c ∧
      (Rewriter.complete { supply := c.supply } [page]).2 =
        Utf8.encode "<p class=a><style>".toList ++ (Utf8.encode css ++ styleEnd) ∧
      ¬ Inert css ∧ ¬ IsContent (Utf8.encode css) (styleEnd ++ []) := by
  have hcss : ¬ Inert ".a \x7b content: \"</style></style>\"; \x7d\n".toList := by decide +kernel
  exact ⟨by decide +kernel, by decide +kernel, hcss, mt isContent_iff.1 hcss⟩

end StyleSieve.Rewrite
