import StyleSieve.Proofs.Rewrite.Probes
import StyleSieve.Proofs.Rewrite.QuotedTag
import StyleSieve.Proofs.Rewrite.TagEnds

/-!
# Style elements in a row

A page of style elements, with bytes behind each of them in which no tag starts (`Element.gap`), is
rewritten region by region.  An element joins the region of the one before where the gap between
them is spaces, no more than can be held back (`Element.Bridges`).  Of a region the first start tag
is kept, and the gap behind its last element.

* `Progress.run_bridged`, `Progress.run_unbridged`: a gap over which the next element joins, and one
  that closes the region.
* `Progress.run_toNext`, `Progress.run_row`: one more element, and the others of a page.
* `Rewriter.complete_row`: a page of elements.
-/

namespace StyleSieve.Rewrite

open Markup (AllSpaces Boundary Mark Matcher Quiet Scanner Side styleName styleName_isWord)

/-- A style element whose content starts no tag, and the bytes up to the next one. -/
structure Element where
  opening : Bytes
  content : Bytes
  closing : Bytes
  gap : Bytes
  isStart : StyleStart opening
  content_plain : 0x3C ∉ content
  isEnd : StyleTag .closing closing
  gap_plain : 0x3C ∉ gap

namespace Element

/-- The element without its gap. -/
def bytes (x : Element) : Bytes := x.opening ++ (x.content ++ x.closing)

/-- The page that is these elements, each with its gap. -/
def page (xs : List Element) : Bytes := xs.flatMap fun x => x.bytes ++ x.gap

/-- The next element joins the region over the gap: it is spaces, and they can be held back. -/
def Bridges (limit : Nat) (x : Element) : Prop := AllSpaces x.gap ∧ x.gap.length ≤ limit

instance (limit : Nat) (x : Element) : Decidable (x.Bridges limit) :=
  inferInstanceAs (Decidable ((∀ b ∈ x.gap, Mark.of b = .space) ∧ x.gap.length ≤ limit))

/-- How many gaps between elements the next element joins over. -/
def countBridges (limit : Nat) (xs : List Element) : Nat :=
  xs.dropLast.countP fun x => x.Bridges limit

/-- How many gaps between elements part two regions. -/
def countBreaks (limit : Nat) (xs : List Element) : Nat :=
  xs.dropLast.countP fun x => ¬ x.Bridges limit

variable (limit : Nat) (x y : Element) (xs : List Element)

theorem countBridges_cons :
    countBridges limit (x :: y :: xs) =
      countBridges limit (y :: xs) + if x.Bridges limit then 1 else 0 := by
  simp only [countBridges, List.dropLast_cons_cons, List.countP_cons, decide_eq_true_eq]

theorem countBreaks_cons :
    countBreaks limit (x :: y :: xs) =
      countBreaks limit (y :: xs) + if x.Bridges limit then 0 else 1 := by
  simp only [countBreaks, List.dropLast_cons_cons, List.countP_cons, decide_eq_true_eq, ite_not]

end Element

/-- In bytes that cannot be held back a first one closes the region. -/
theorem exists_closing_byte {limit : Nat} {s : Bytes} (h : ¬ (AllSpaces s ∧ s.length ≤ limit)) :
    ∃ w b rest room, s = w ++ b :: rest ∧ AllSpaces w ∧ limit = room + w.length ∧
      (Mark.of b = .space → room = 0) := by
  induction s generalizing limit with
  | nil => exact absurd ⟨.nil, Nat.zero_le _⟩ h
  | cons b s ih =>
      by_cases hb : Mark.of b = .space
      · cases limit with
        | zero => exact ⟨[], b, s, 0, rfl, .nil, rfl, fun _ => rfl⟩
        | succ limit =>
            have hrest : ¬ (AllSpaces s ∧ s.length ≤ limit) := fun ⟨hs, hlen⟩ =>
              h ⟨List.forall_mem_cons.2 ⟨hb, hs⟩, Nat.succ_le_succ hlen⟩
            obtain ⟨w, c, rest, room, rfl, hw, rfl, hc⟩ := ih hrest
            exact ⟨b :: w, c, rest, room, rfl, List.forall_mem_cons.2 ⟨hb, hw⟩, rfl, hc⟩
      · exact ⟨[], b, s, limit, rfl, .nil, rfl, fun e => absurd e hb⟩

namespace Progress

variable {supply : Supply} {o : Options} {p : Progress}

/-! ### Style tags -/

theorem run_trans {q r : Progress} {a b x y : Bytes} (ha : p.run supply o a = (q, x))
    (hb : q.run supply o b = (r, y)) : p.run supply o (a ++ b) = (r, x ++ y) := by
  rw [run_append, ha, hb]

/-- A style tag of a region is dropped, if its name is. -/
theorem run_styleTag {q : Progress} (depth : Nat) {side : Side} {mode : Mode} {t : Bytes}
    (ht : StyleTag side t)
    (hname : ∀ n b, Boundary styleName side (n ++ [b]) → p.run supply o (n ++ [b]) =
      ({ q with mode := if Mark.of b = .greater then mode else .regionTag depth side none }, []))
    (hend : q.regionTagByte o depth side none 0x3E = { q with mode }) :
    p.run supply o t = ({ q with mode }, []) := by
  cases ht with
  | short hn => exact hname _ _ hn
  | long ht =>
      obtain ⟨n, b, u, rfl, hn, hb, hu⟩ := ht
      have hopen := hname n b hn
      rw [if_neg ((Mark.of_eq_greater b).not.2 hb)] at hopen
      have hlast : { q with mode := .regionTag depth side none }.run supply o [0x3E] =
          ({ q with mode }, []) := by
        rw [run_singleton]
        exact congrArg (·, []) hend
      exact run_trans (run_trans hopen (run_inside supply o side hu)) hlast

/-- The end tag of the only element of a region ends the region. -/
theorem run_closing {k : Matcher} {u t : Bytes} (hk : k.Holds styleName u)
    (ht : StyleTag .closing t) :
    { p with mode := .region 1 k }.run supply o t = ({ p with mode := afterRegion o }, []) := by
  refine run_styleTag 1 ht (fun n b hn => ?_) rfl
  obtain ⟨hname, hfound⟩ := Matcher.find_of_boundary styleName_isWord hk hn
  refine run_trans (run_content hname) ?_
  rw [run_singleton]
  simp only [step, regionByte, hfound]
  rfl

/-- A start tag behind a region joins it, whatever spaces are held back. -/
theorem run_opening {latest : Bytes} {room : Nat} {t : Bytes} (ht : StyleTag .opening t) :
    { p with mode := .gap latest room .idle }.run supply o t =
      ({ p.merge with mode := .region 1 .idle }, []) := by
  refine run_styleTag (q := p.merge) 1 ht (fun n b hn => ?_) rfl
  obtain ⟨-, hfound⟩ := Matcher.find_of_boundary styleName_isWord .idle hn
  obtain ⟨m, c, e, hm, -⟩ := hn
  obtain ⟨rfl, -⟩ := List.append_inj' e rfl
  -- the name is held back as well, until its last byte
  obtain ⟨hname, -⟩ := Matcher.run_head styleName_isWord .idle .opening hm
  rw [hname] at hfound
  refine run_trans (run_grows (Matcher.grows_head styleName_isWord .opening hm)) ?_
  rw [run_singleton]
  simp only [step, gapByte, hname, hfound]
  rfl

/-! ### Elements -/

variable (supply o)

/-- The rest of an element ends the region that its start tag opened or joined. -/
theorem run_rest (x : Element) :
    { p with mode := .region 1 .idle }.run supply o (x.content ++ x.closing) =
      ({ p with mode := afterRegion o }, []) := by
  have hquiet : Quiet styleName x.content := fun _ => Markup.lacks_of_no_less x.content_plain
  obtain ⟨u, -, hu⟩ := Matcher.holds_run styleName x.content
  exact run_trans (run_content ((Matcher.silent_iff styleName_isWord _).2 hquiet))
    (run_closing hu x.isEnd)

/-- In markup the start tag of an element goes out, and the element is a region. -/
theorem run_styleElement (x : Element) :
    { p with mode := .markup .text }.run supply o x.bytes =
      ({ p with mode := afterRegion o, usage := noteAll p.usage x.opening }, x.opening) := by
  have h := run_trans (run_opens x.isStart.opens)
    (run_rest supply o (p := { p with usage := noteAll p.usage x.opening }) x)
  rwa [List.append_nil] at h

variable {x y : Element}

/-- The spaces over which an element joins the region are held back. -/
theorem run_bridge (hx : x.Bridges o.maxLookback) :
    ∃ room, { p with mode := afterRegion o }.run supply o x.gap =
      ({ p with mode := .gap x.gap.reverse room .idle }, []) := by
  obtain ⟨room, hroom⟩ := Nat.exists_eq_add_of_le' hx.2
  have h := run_spaces supply o p hx.1 [] room
  rw [List.append_nil, ← hroom] at h
  exact ⟨room, h⟩

/-- An element that joins the region goes, with the gap before it. -/
theorem run_bridged (hx : x.Bridges o.maxLookback) (y : Element) :
    { p with mode := afterRegion o }.run supply o (x.gap ++ y.bytes) =
      ({ p.merge with mode := afterRegion o }, []) := by
  obtain ⟨room, hspaces⟩ := run_bridge supply o (p := p) hx
  exact run_trans hspaces
    (run_trans (run_opening y.isStart.styleTag) (run_rest supply o (p := p.merge) y))

/-! ### Gaps -/

/-- Bytes that start no tag name no key. -/
theorem noteAll_plain {s : Bytes} (hs : 0x3C ∉ s) (usage : Usage) : noteAll usage s = usage := by
  have hkeys : (Scanner.text.run s).2.filterMap (·.key) = [] := (Scanner.text_goes_text hs).keys
  rw [noteAll, note, hkeys]
  rfl

theorem run_plain {s : Bytes} (hp : p.mode = .markup .text) (hs : 0x3C ∉ s) :
    p.run supply o s = (p, s) := by
  have hgoes := Scanner.text_goes_text hs
  have hrun : { p with mode := .markup .text }.run supply o s = _ := run_silent hgoes.silent
  rw [hgoes.state, ← hp] at hrun
  rw [hrun]
  exact congrArg (fun usage => ({ p with usage }, s)) (noteAll_plain hs p.usage)

theorem release_plain {s : Bytes} (hs : 0x3C ∉ s) :
    p.release supply o s =
      ((p.closeRegion supply o).1, (p.closeRegion supply o).2 ++ s) := by
  have husage := noteAll_plain hs (p.closeRegion supply o).1.usage
  rw [noteAll] at husage
  simp only [release, (Scanner.text_goes_text hs).state, husage]
  rfl

/-- A space for which there is no room, or a byte that starts no tag, closes the region. -/
theorem run_closing_byte {w : Bytes} {b : UInt8} {room : Nat} (hplain : 0x3C ∉ w ++ [b])
    (hb : Mark.of b = .space → room = 0) :
    { p with mode := .gap w.reverse room .idle }.run supply o [b] =
      ((p.closeRegion supply o).1, (p.closeRegion supply o).2 ++ (w ++ [b])) := by
  have hclose : { p with mode := .gap w.reverse room .idle }.step supply o b =
      { p with mode := .gap w.reverse room .idle }.release supply o (w ++ [b]) := by
    by_cases hspace : Mark.of b = .space
    · obtain rfl := hb hspace
      simp [step, gapByte, hspace]
    · have hless : Mark.of b ≠ .less := fun e => hplain (by simp [(Mark.of_eq_less b).1 e])
      simp [step, gapByte, hspace, Matcher.step, hless]
  rw [run_singleton, hclose, release_plain supply o hplain]
  rfl

/-- Any other gap closes the region, and goes out behind it. -/
theorem run_unbridged (hx : ¬ x.Bridges o.maxLookback) :
    { p with mode := afterRegion o }.run supply o x.gap =
      ((p.closeRegion supply o).1, (p.closeRegion supply o).2 ++ x.gap) := by
  obtain ⟨w, b, rest, room, hgap, hw, hroom, hb⟩ := exists_closing_byte hx
  have hplain := x.gap_plain
  rw [hgap, ← List.singleton_append, ← List.append_assoc] at hplain ⊢
  have hheld : 0x3C ∉ w ++ [b] := fun h => hplain (List.mem_append_left _ h)
  have hrest : 0x3C ∉ rest := fun h => hplain (List.mem_append_right _ h)
  have hspaces := run_spaces supply o p hw [] room
  rw [← hroom, List.append_nil] at hspaces
  have hbyte := run_closing_byte supply o (p := p) hheld hb
  have h := run_trans (run_trans hspaces hbyte) (run_plain supply o rfl hrest)
  rwa [List.nil_append, List.append_assoc (p.closeRegion supply o).2] at h

/-- Whatever the gap behind the last element, it goes out behind the region. -/
theorem run_atEnd (x : Element) (p : Progress) :
    let q := { p with mode := afterRegion o }.run supply o x.gap
    q.2 ++ (q.1.atEnd supply o).2 = (p.closeRegion supply o).2 ++ x.gap ∧
      (q.1.atEnd supply o).1.counts = (p.closeRegion supply o).1.counts := by
  intro q
  by_cases hx : x.Bridges o.maxLookback
  · obtain ⟨room, hspaces⟩ := run_bridge supply o (p := p) hx
    have hq : q = _ := hspaces
    rw [hq]
    simp only [atEnd, List.reverse_reverse, List.nil_append]
    exact ⟨rfl, rfl⟩
  · have hq : q = _ := run_unbridged supply o hx
    rw [hq]
    exact ⟨List.append_nil _, rfl⟩

/-! ### Rows of elements -/

/-- From behind the end tag of `x` to behind the end tag of `y`.  Over spaces that can be held back
`y` joins the region, and nothing goes out.  Else the region closes, and the gap goes out with the
start tag of `y`, which opens the next one. -/
def toNext (p : Progress) (x y : Element) : Progress × Bytes :=
  if x.Bridges o.maxLookback then (p.merge, [])
  else
    ({ (p.closeRegion supply o).1 with usage := noteAll p.usage y.opening },
      Utf8.encode (p.regionCss supply o) ++ styleEnd ++ (x.gap ++ y.opening))

/-- What goes out behind the first start tag of the region that `x` belongs to, where `xs` are the
other elements of the page. -/
def row (p : Progress) (x : Element) : List Element → Bytes
  | [] => Utf8.encode (p.regionCss supply o) ++ styleEnd ++ x.gap
  | y :: ys => (toNext supply o p x y).2 ++ row (toNext supply o p x y).1 y ys

theorem run_toNext (p : Progress) (x y : Element) :
    { p with mode := afterRegion o }.run supply o (x.gap ++ y.bytes) =
      ({ (toNext supply o p x y).1 with mode := afterRegion o }, (toNext supply o p x y).2) := by
  unfold toNext
  split
  case isTrue hx => exact run_bridged supply o hx y
  case isFalse hx =>
    have h := run_trans (run_unbridged supply o (p := p) hx)
      (run_styleElement supply o (p := (p.closeRegion supply o).1) y)
    rwa [List.append_assoc] at h

/-- A region is counted where it closes, and a style tag where it joins. -/
theorem toNext_counts (p : Progress) (x y : Element) :
    (toNext supply o p x y).1.counts.regions =
        p.counts.regions + (if x.Bridges o.maxLookback then 0 else 1) ∧
      (toNext supply o p x y).1.counts.merged =
        p.counts.merged + (if x.Bridges o.maxLookback then 1 else 0) := by
  unfold toNext
  split <;> exact ⟨rfl, rfl⟩

theorem run_row (p : Progress) (x : Element) (xs : List Element) :
    let q := { p with mode := afterRegion o }.run supply o (x.gap ++ Element.page xs)
    let done := q.1.atEnd supply o
    q.2 ++ done.2 = row supply o p x xs ∧
      done.1.counts.regions =
        p.counts.regions + 1 + Element.countBreaks o.maxLookback (x :: xs) ∧
      done.1.counts.merged = p.counts.merged + Element.countBridges o.maxLookback (x :: xs) := by
  induction xs generalizing p x with
  | nil =>
      obtain ⟨hout, hcounts⟩ := run_atEnd supply o x p
      simp only [Element.page, List.flatMap_nil, List.append_nil, hcounts]
      exact ⟨hout, rfl, rfl⟩
  | cons y ys ih =>
      -- up to the end tag of the next element, and from there the row of the others
      have hpage : x.gap ++ Element.page (y :: ys) =
          (x.gap ++ y.bytes) ++ (y.gap ++ Element.page ys) := by
        simp [Element.page]
      obtain ⟨hout, hregions, hmerged⟩ := ih (toNext supply o p x y).1 y
      obtain ⟨hregions', hmerged'⟩ := toNext_counts supply o p x y
      rw [hpage, run_append, run_toNext supply o]
      refine ⟨?_, ?_, ?_⟩
      · rw [List.append_assoc, hout]
        rfl
      · rw [hregions, hregions', Element.countBreaks_cons]
        omega
      · rw [hmerged, hmerged', Element.countBridges_cons]
        omega

/-- A mode written over itself. -/
theorem withMode_eq {mode : Mode} (hp : p.mode = mode) : { p with mode } = p := by
  rw [← hp]

/-- Behind the end tag of any element of a page the region may close or go on. -/
theorem run_page_mode (before : List Element) (y : Element) :
    (run supply o {} (Element.page before ++ y.bytes)).1.mode = afterRegion o := by
  induction before using List.reverseRecOn generalizing y with
  | nil => exact congrArg (·.1.mode) (run_styleElement supply o (p := {}) y)
  | append_singleton before x ih =>
      have hpage : Element.page (before ++ [x]) ++ y.bytes =
          Element.page before ++ x.bytes ++ (x.gap ++ y.bytes) := by
        simp [Element.page]
      rw [hpage, run_append, ← withMode_eq (ih x), run_toNext supply o]

/-- An element joins the region of the one before if and only if it may over the gap. -/
theorem joins_iff_bridges (hp : p.mode = afterRegion o) (x y : Element) :
    let q := (p.run supply o (x.gap ++ y.opening)).1
    (q.counts.regions = p.counts.regions ↔ x.Bridges o.maxLookback) ∧
      (q.counts.merged = p.counts.merged + 1 ↔ x.Bridges o.maxLookback) := by
  intro q
  by_cases hx : x.Bridges o.maxLookback
  · obtain ⟨room, hspaces⟩ := run_bridge supply o (p := p) hx
    rw [withMode_eq hp] at hspaces
    have hq : q = _ := congrArg Prod.fst (run_trans hspaces (run_opening y.isStart.styleTag))
    rw [hq]
    exact ⟨iff_of_true rfl hx, iff_of_true rfl hx⟩
  · have hgap := run_unbridged supply o (p := p) hx
    rw [withMode_eq hp] at hgap
    have hq : q = _ := congrArg Prod.fst (run_trans hgap
      (run_opens (p := (p.closeRegion supply o).1) y.isStart.opens))
    rw [hq]
    exact ⟨iff_of_false (Nat.succ_ne_self _) hx, iff_of_false (Nat.ne_add_one _) hx⟩

end Progress

open Progress

/-- The style tags counted in all are those of a run and its end. -/
theorem Rewriter.complete_merged (supply : Supply) (options : Options) (pieces : List Bytes) :
    (complete { supply, options } pieces).1.merged =
      (atEnd supply options (run supply options {} pieces.flatten).1).1.counts.merged := by
  rw [complete_eq]
  simp only [push, Progress.push, finish, Progress.finish, Progress.stats, Progress.atEnd_count]
  rfl

/-- **Style elements in a row are one region where the gaps between them can be held back.**  A page
of style elements is read, in any pieces.  An element joins the region of the one before if and only
if the gap between them is spaces, and no more of them than the limit.  Each other gap goes out
behind a region, as the last one does, and with it the start tag of the next element; nothing else
of the page goes out but the first start tag.  The regions are one more than the gaps that part two
of them, and the style tags that joined are as many as the other gaps between elements. -/
theorem Rewriter.complete_row (supply : Supply) (o : Options) (x : Element) (xs : List Element)
    (pieces : List Bytes) (hpage : pieces.flatten = Element.page (x :: xs)) :
    let done := complete { supply, options := o } pieces
    done.2 = x.opening ++ row supply o { usage := noteAll .empty x.opening } x xs ∧
      done.1.regions = 1 + Element.countBreaks o.maxLookback (x :: xs) ∧
      done.1.merged = Element.countBridges o.maxLookback (x :: xs) ∧
      ∀ before y z after, x :: xs = before ++ y :: z :: after →
        let read := Element.page before ++ y.bytes
        let p := (Progress.run supply o {} read).1
        let q := (p.run supply o (y.gap ++ z.opening)).1
        read ++ (y.gap ++ z.opening) <+: pieces.flatten ∧
          (q.counts.regions = p.counts.regions ↔ y.Bridges o.maxLookback) ∧
          (q.counts.merged = p.counts.merged + 1 ↔ y.Bridges o.maxLookback) := by
  intro done
  obtain ⟨hout, hregions⟩ := complete_atEnd supply o pieces
  have hmerged := complete_merged supply o pieces
  have hfirst := run_styleElement supply o (p := {}) x
  have hsplit : pieces.flatten = x.bytes ++ (x.gap ++ Element.page xs) := by
    simp [hpage, Element.page]
  obtain ⟨hrow, hrow', hrow''⟩ :=
    run_row supply o { usage := noteAll .empty x.opening } x xs
  rw [hsplit, run_append, hfirst] at hout hregions hmerged
  refine ⟨?_, hregions.trans hrow', hmerged.trans ?_, ?_⟩
  · rw [hout, List.append_assoc]
    exact congrArg (x.opening ++ ·) hrow
  · exact hrow''.trans (Nat.zero_add _)
  · intro before y z after heq read p q
    refine ⟨?_, joins_iff_bridges supply o (run_page_mode supply o before y) y z⟩
    rw [hpage, heq]
    exact ⟨z.content ++ z.closing ++ z.gap ++ Element.page after, by
      simp [read, Element.page, Element.bytes]⟩

/-! ### Three elements -/

/-- `<STYLE media="a>b">`. -/
theorem styleStart_media : StyleStart (Utf8.encode "<STYLE media=\"a>b\">".toList) := by
  have hname : Markup.IsAttrName (Utf8.encode "media".toList) :=
    .cons (by decide) (by decide +kernel)
  have hassigns : Markup.Assigns (Utf8.encode "media".toList) (Utf8.encode "media=".toList) :=
    ⟨[], [], rfl, hname, .nil, .nil⟩
  have hattrs : QuotedAttrs (Utf8.encode "media=\"a>b\">".toList) :=
    .quoted (q := 0x22) (v := Utf8.encode "a>b".toList) hassigns
      (by unfold NoQuote; decide +kernel) (by decide) (by decide +kernel) .close
  exact .long (n := Utf8.encode "STYLE".toList) (b := 0x20) (by decide) (.inl rfl) hattrs

theorem styleTag_spaced : StyleTag .closing (Utf8.encode "</StYlE >".toList) := by
  have hname : Boundary styleName .closing (Utf8.encode "</StYlE ".toList) :=
    ⟨Utf8.encode "StYlE".toList, 0x20, rfl, by decide, rfl⟩
  exact .long (t := Utf8.encode "</StYlE ".toList)
    ⟨Utf8.encode "</StYlE".toList, 0x20, [], rfl, hname, by decide, .start⟩

/-- An element with a `>` in a value and in its content, and a gap behind it. -/
def mediaElement (gap : Bytes) (h : 0x3C ∉ gap) : Element where
  opening := Utf8.encode "<STYLE media=\"a>b\">".toList
  content := Utf8.encode "p > a".toList
  closing := Utf8.encode "</StYlE >".toList
  gap := gap
  isStart := styleStart_media
  content_plain := by decide
  isEnd := styleTag_spaced
  gap_plain := h

/-- Two spaces can be held back, and three cannot. -/
theorem Rewriter.complete_row_three :
    let x := mediaElement (Utf8.encode "\n\n".toList) (by decide)
    let xs := [mediaElement (Utf8.encode "   ".toList) (by decide),
      mediaElement (Utf8.encode " x".toList) (by decide)]
    let page := Element.page (x :: xs)
    let done := complete { supply := Catalog.supply {}, options := { maxLookback := 2 } }
      [page.take 9, page.drop 9]
    done.2 = Utf8.encode ("<STYLE media=\"a>b\"></style>   ".toList ++
        "<STYLE media=\"a>b\"></style> x".toList) ∧
      done.1.regions = 2 ∧ done.1.merged = 1 := by
  intro x xs page done
  have hpage : [page.take 9, page.drop 9].flatten = Element.page (x :: xs) := by
    simp only [List.flatten_cons, List.flatten_nil, List.append_nil, List.take_append_drop, page]
  obtain ⟨hout, hregions, hmerged, -⟩ :=
    complete_row (Catalog.supply {}) { maxLookback := 2 } x xs _ hpage
  exact ⟨hout.trans (by decide +kernel), hregions.trans (by decide +kernel),
    hmerged.trans (by decide +kernel)⟩

end StyleSieve.Rewrite
