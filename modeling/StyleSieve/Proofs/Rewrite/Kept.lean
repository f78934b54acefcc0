import StyleSieve.Proofs.Catalog.Kept
import StyleSieve.Proofs.Markup.Keys
import StyleSieve.Proofs.Markup.Sound
import StyleSieve.Proofs.Rewrite.Layout
import StyleSieve.Proofs.Selector.Compound
import StyleSieve.Proofs.Usage

/-!
# No used rule is dropped

The CSS of a region is that for the keys of all markup in front of it.  So a rule has its line
there, if the leading compound of one of its branches names anything that a start tag in front of
the region carries.

* `Progress.Written.css`: the keys that the CSS of a region is for.
* `Rewriter.keeps_rules`: from the text of a selector and the bytes of a tag to the line of the
  rule.
-/

namespace StyleSieve.Rewrite

open Css (Declaration Node Place)
open Markup (Items Scanner)
open Stylesheet (HasLine ruleLine)

namespace Progress

variable {supply : Supply} {options : Options} {p : Progress} {pre post xs : List Passage}
  {x : Passage} {k : Text}

theorem mem_noteAll {usage : Usage} {m : Bytes} :
    k ∈ (noteAll usage m).keys ↔ k ∈ usage.keys ∨ k ∈ Scanner.text.harvest m :=
  Usage.mem_keys_insertAll

/-- The keys seen behind some passages are those of their markup. -/
theorem mem_behind :
    k ∈ (xs.foldl (behind supply options) p).usage.keys ↔
      k ∈ p.usage.keys ∨ ∃ y ∈ xs, k ∈ Scanner.text.harvest y.markup := by
  induction xs generalizing p with
  | nil => simp
  | cons y xs ih =>
      have hbehind : (p.behind supply options y).usage = noteAll p.usage y.markup := rfl
      rw [List.foldl_cons, ih, hbehind, mem_noteAll, or_assoc]
      simp only [List.mem_cons, exists_eq_or_imp]

/-- The CSS of a region is that for the keys of the markup in front of it. -/
theorem Written.css (h : Written supply options {} (pre ++ x :: post))
    (hdedupe : options.dedupe = false) :
    ∃ usage : Usage, x.css = supply.render (supply.select usage) true ∧
      ∀ k, k ∈ usage.keys ↔ ∃ y ∈ pre ++ [x], k ∈ Scanner.text.harvest y.markup := by
  have hx := (written_append.1 h).2.1
  refine ⟨noteAll (pre.foldl (behind supply options) {}).usage x.markup, ?_, fun k => ?_⟩
  · rw [hx]
    simp only [regionCss, hdedupe, Bool.false_and, Bool.not_false]
    rfl
  · rw [mem_noteAll, mem_behind]
    simp [Usage.empty]

end Progress

/-- **No used rule is dropped.**  A rule stands in a source, in any conditional groups.  One of its
branches starts with a compound, and in front of a region stands a start tag that carries one of the
pieces.  Then the CSS of the region has the line of the rule. -/
theorem Rewriter.keeps_rules {files : List StyleFile} {options : Options} {name : Text}
    {file : Nat} {nodes : List Node} {conditions : List Condition} {selector : Text}
    {declarations : List Declaration} {start stop : Place} {ps : List Piece} {p : Piece}
    {s rest : Text} (hfile : ⟨name, .ofNodes file nodes⟩ ∈ files)
    (hstarts : (Node.startsIn nodes).Nodup) (hrange : ∀ q ∈ Node.startsIn nodes, q.InRange)
    (hrule : (Node.rule selector declarations start stop).Within conditions nodes)
    (hbranch : s ++ rest ∈ Selector.branches selector) (hcompound : Selector.Compound ps s)
    (hrest : Selector.Follows rest) (hp : p ∈ ps) (hdedupe : options.dedupe = false)
    (pieces : List Bytes) :
    ∃ xs last,
      IsLayout (Catalog.ofFiles files).supply options pieces.flatten
        (Rewriter.complete { supply := (Catalog.ofFiles files).supply, options } pieces).2
        (Rewriter.complete { supply := (Catalog.ofFiles files).supply, options } pieces).1
        xs last ∧
      ∀ pre x post, xs = pre ++ x :: post → ∀ y ∈ pre ++ [x], ∀ tags tag,
        Items tags y.markup → tag ∈ tags → tag.Carries p →
          HasLine x.css (ruleLine conditions selector declarations) := by
  rw [Rewriter.complete_flatten]
  obtain ⟨xs, last, hlayout⟩ :=
    Rewriter.exists_layout (Catalog.ofFiles files).supply options pieces.flatten
  refine ⟨xs, last, hlayout, ?_⟩
  rintro pre x post rfl y hy tags tag hitems htag hcarries
  -- the key of the piece is one that the tag names, so the region is written for it
  obtain ⟨k, hpiece, hkey⟩ := hcarries.key
  have hk : k ∈ Piece.keys (Selector.parts (s ++ rest)).pieces := by
    rw [Selector.parts_of_compound hcompound hrest]
    exact List.mem_filterMap.2 ⟨p, hp, hpiece⟩
  have hnamed : k ∈ Scanner.text.harvest y.markup := by
    rw [hitems.run.2]
    exact List.mem_flatMap.2 ⟨tag, htag, hkey⟩
  -- the CSS there is for a usage that has the key
  obtain ⟨usage, hcss, husage⟩ := hlayout.css.css hdedupe
  rw [hcss]
  exact Catalog.hasLine_critical hfile hstarts hrange hrule hbranch hk
    ((husage k).2 ⟨y, hy, hnamed⟩)

/-- The declaration of a rule for cards. -/
def cardColor : Declaration := ⟨"color".toList, "red".toList, ⟨1, 32⟩, ⟨1, 43⟩⟩

/-- A source with a rule for cards, in a group.  The name of the class is spelled with a number. -/
def cardNodes : List Node :=
  [.atRule "media".toList "print".toList (some [])
    [.rule ".\\63 ard:hover".toList [cardColor] ⟨1, 16⟩ ⟨1, 45⟩] ⟨1, 1⟩ ⟨1, 47⟩]

/-- The file of that source. -/
def cardFile : StyleFile where
  name := "card.css".toList
  sheet := .ofNodes 0 cardNodes

/-- A page with a card gets the rule for cards. -/
theorem Rewriter.keeps_card :
    ∃ xs last,
      IsLayout (Catalog.ofFiles [cardFile]).supply {}
        [Utf8.encode "<p class=card><st".toList, Utf8.encode "yle></style>".toList].flatten
        (Rewriter.complete { supply := (Catalog.ofFiles [cardFile]).supply }
          [Utf8.encode "<p class=card><st".toList, Utf8.encode "yle></style>".toList]).2
        (Rewriter.complete { supply := (Catalog.ofFiles [cardFile]).supply }
          [Utf8.encode "<p class=card><st".toList, Utf8.encode "yle></style>".toList]).1
        xs last ∧
      ∀ pre x post, xs = pre ++ x :: post → ∀ y ∈ pre ++ [x], ∀ tags tag,
        Items tags y.markup → tag ∈ tags → tag.Carries (.className "card".toList) →
          HasLine x.css
            (ruleLine [⟨"media".toList, "print".toList⟩] ".\\63 ard:hover".toList [cardColor]) := by
  have hdigits : ∀ d ∈ "63".toList, Text.isHexDigit d = true :=
    List.forall_mem_cons.2 ⟨by decide, List.forall_mem_singleton.2 (by decide)⟩
  have hspells : Selector.Name.Spells "card".toList "\\63 ard".toList :=
    .hex (by decide) (by decide) hdigits (by decide) (by decide)
      (.plain (by decide) (.plain (by decide) (.plain (by decide) .nil)))
  have hcompound : Selector.Compound [.className "card".toList] ".\\63 ard".toList :=
    .intro .none (.cons (.className hspells (by decide)) .nil) (by decide)
  have hbranch : ".\\63 ard".toList ++ ":hover".toList ∈
      Selector.branches ".\\63 ard:hover".toList := by decide
  have hfollows : Selector.Follows ":hover".toList := by
    rintro c ⟨⟩
    decide
  have hrule : (Node.rule ".\\63 ard:hover".toList [cardColor] ⟨1, 16⟩ ⟨1, 45⟩).Within
      [⟨"media".toList, "print".toList⟩] cardNodes :=
    .group List.mem_cons_self (by decide) (.here List.mem_cons_self)
  exact Rewriter.keeps_rules (List.mem_singleton.2 rfl) (by decide) (by decide) hrule hbranch
    hcompound hfollows List.mem_cons_self rfl _

example :
    (Rewriter.complete { supply := (Catalog.ofFiles [cardFile]).supply }
      [Utf8.encode "<p class=card><style></style>".toList]).2 =
      Utf8.encode ("<p class=card><style>" ++
        "@media print \x7b .\\63 ard:hover \x7b color: red; \x7d \x7d\n</style>").toList := by
  decide +kernel

end StyleSieve.Rewrite
