import StyleSieve.Proofs.Catalog.Index
import StyleSieve.Proofs.Catalog.Lines
import StyleSieve.Proofs.Rewrite.Layout
import StyleSieve.Proofs.Usage

/-!
# Nothing is written twice, and nothing is lost

With `dedupe` on, a region gets the lines that are wanted and have not been written.  In a catalog
that is numbered the lines of all regions so far are then, in some order, those that the keys seen
so far ask for (`Sent`), and no line is for the body of another.

* `Sent.newLines`: what a region adds.
* `Sent.behind`: the lines of some regions.
* `Rewriter.writes_once`: the lines of a whole page.
-/

namespace StyleSieve.Rewrite

open Catalog (Line)
open Css (Node)
open Markup (Scanner)

/-- Two parts of a list that have nothing in common are, in some order, what is in either. -/
theorem filter_append_filter_perm {α : Type} {p q : α → Bool} {l : List α}
    (h : ∀ x ∈ l, p x = true → q x = false) :
    (l.filter p ++ l.filter q).Perm (l.filter fun x => p x || q x) := by
  have hp : (l.filter fun x => p x || q x).filter p = l.filter p := by
    rw [List.filter_filter]
    exact List.filter_congr fun x _ => by cases p x <;> simp
  have hq : (l.filter fun x => p x || q x).filter (fun x => !p x) = l.filter q := by
    rw [List.filter_filter]
    refine List.filter_congr fun x hx => ?_
    cases e : p x with
    | false => simp
    | true => simp [h x hx e]
  rw [← hp, ← hq]
  exact List.filter_append_perm p _

namespace Progress

variable {supply : Supply} {options : Options} {p : Progress} {xs ys : List Passage}
  {files : List StyleFile} {ls : List Line}

/-! ### The keys seen -/

/-- The keys of the markup of some passages. -/
def seen (xs : List Passage) : Usage := .ofKeys (xs.flatMap fun x => Scanner.text.harvest x.markup)

theorem usage_behind : (xs.foldl (behind supply options) p).usage =
    p.usage.insertAll (xs.flatMap fun x => Scanner.text.harvest x.markup) := by
  induction xs generalizing p with
  | nil => rfl
  | cons x xs ih =>
      rw [List.foldl_cons, ih, List.flatMap_cons, Usage.insertAll_append]
      rfl

/-- The keys seen where the region of a passage closes. -/
theorem noteAll_behind (supply : Supply) (options : Options) (xs : List Passage) (x : Passage) :
    noteAll (xs.foldl (behind supply options) {}).usage x.markup = seen (xs ++ [x]) := by
  rw [usage_behind, seen, List.flatMap_append, List.flatMap_singleton, Usage.ofKeys,
    Usage.insertAll_append]
  rfl

/-! ### The lines of regions -/

/-- The lines with which a region closes. -/
def newLines (c : Catalog) (p : Progress) : List Line :=
  c.lines (fresh p.emitted (c.select p.usage)) !p.globalsSent

/-- The lines of the regions of some passages. -/
def regionLines (c : Catalog) (options : Options) : Progress → List Passage → List (List Line)
  | _, [] => []
  | p, x :: xs =>
    newLines c { p with usage := noteAll p.usage x.markup } ::
      regionLines c options (p.behind c.supply options x) xs

theorem regionLines_append (c : Catalog) (p : Progress) (xs ys : List Passage) :
    regionLines c options p (xs ++ ys) =
      regionLines c options p xs ++
        regionLines c options (xs.foldl (behind c.supply options) p) ys := by
  induction xs generalizing p with
  | nil => rfl
  | cons x xs ih => rw [List.cons_append, regionLines, ih, List.foldl_cons, regionLines,
      List.cons_append]

theorem length_regionLines (c : Catalog) (p : Progress) (xs : List Passage) :
    (regionLines c options p xs).length = xs.length := by
  induction xs generalizing p with
  | nil => rfl
  | cons x xs ih => rw [regionLines, List.length_cons, ih, List.length_cons]

/-- The CSS of a region is its lines. -/
theorem Written.lines {c : Catalog} (hdedupe : options.dedupe = true)
    (h : Written c.supply options p xs) :
    xs.map Passage.css = (regionLines c options p xs).map fun ls => ls.flatMap Line.text := by
  induction xs generalizing p with
  | nil => rfl
  | cons x xs ih =>
      obtain ⟨hx, hxs⟩ := h
      rw [List.map_cons, regionLines, List.map_cons, ih hxs, hx, newLines,
        ← Catalog.render_eq_lines, regionCss]
      simp only [hdedupe, if_true, Bool.true_and]
      rfl

/-- `ls` is what has been written: the lines for the bodies that were chosen, all of which the keys
seen ask for. -/
structure Sent (c : Catalog) (p : Progress) (ls : List Line) : Prop where
  lines : ls.Perm (c.lines p.emitted p.globalsSent)
  chosen : ∀ r ∈ p.emitted, r ∈ c.select p.usage

theorem sent_start {c : Catalog} (h : c.IsNumbered) : Sent c {} [] where
  lines := by
    have hnone : c.allLines.filter (·.isWanted [] false) = [] :=
      List.filter_eq_nil_iff.2 fun l _ => by simp [Line.isWanted]
    rw [h.lines_eq, hnone]
  chosen _ h := nomatch h

/-- More keys ask for more. -/
theorem Sent.note (h : Sent (.ofFiles files) p ls) (m : Bytes) :
    Sent (.ofFiles files) { p with usage := noteAll p.usage m } ls where
  lines := h.lines
  chosen r hr :=
    Catalog.select_mono (fun _ hk => Usage.mem_keys_insertAll.2 (.inl hk)) (h.chosen r hr)

/-- A reference is new, or it has been chosen before. -/
theorem contains_fresh {c : Catalog} (h : Sent c p ls) (r : BodyRef) :
    (p.emitted.contains r || (fresh p.emitted (c.select p.usage)).contains r) =
      (c.select p.usage).contains r := by
  rw [Bool.eq_iff_iff, Bool.or_eq_true, List.contains_iff_mem, List.contains_iff_mem,
    List.contains_iff_mem, mem_fresh]
  constructor
  · rintro (hr | ⟨hr, -⟩)
    · exact h.chosen r hr
    · exact hr
  · exact fun hr => (em (r ∈ p.emitted)).imp_right fun hnew => ⟨hr, hnew⟩

/-- With the lines of one more region all is written that the keys seen ask for. -/
theorem Sent.newLines {c : Catalog} (hc : c.IsNumbered) (h : Sent c p ls) :
    (ls ++ newLines c p).Perm (c.lines (c.select p.usage) true) := by
  have hlines := h.lines
  rw [hc.lines_eq] at hlines
  rw [Progress.newLines, hc.lines_eq, hc.lines_eq]
  refine (hlines.append_right _).trans ((filter_append_filter_perm fun l _ hl => ?_).trans ?_)
  · -- no line is both old and new
    unfold Line.isWanted at hl ⊢
    split
    case isTrue hglobal =>
      rw [if_pos hglobal] at hl
      rw [hl]
      rfl
    case isFalse hglobal =>
      rw [if_neg hglobal, List.contains_iff_mem] at hl
      rw [← Bool.not_eq_true, List.contains_iff_mem, mem_fresh]
      exact fun hnew => hnew.2 hl
  · refine .of_eq (List.filter_congr fun l _ => ?_)
    unfold Line.isWanted
    split
    · exact Bool.or_not_self _
    · exact contains_fresh h l.ref

theorem Sent.close {c : Catalog} (hc : c.IsNumbered) (hdedupe : options.dedupe = true)
    (h : Sent c p ls) :
    Sent c (p.closeRegion c.supply options).1 (ls ++ Progress.newLines c p) := by
  have hemitted : (p.closeRegion c.supply options).1.emitted =
      p.emitted ++ fresh p.emitted (c.select p.usage) := by
    simp only [closeRegion, hdedupe, if_true]
    rfl
  have hglobals : (p.closeRegion c.supply options).1.globalsSent = true := by
    simp only [closeRegion, hdedupe, Bool.true_or]
  refine ⟨(h.newLines hc).trans (.of_eq ?_), ?_⟩
  · rw [hc.lines_eq, hc.lines_eq, hemitted, hglobals]
    refine List.filter_congr fun l _ => ?_
    simp only [Line.isWanted, List.contains_append, contains_fresh h]
  · rw [hemitted]
    intro r hr
    rcases List.mem_append.1 hr with hr | hr
    · exact h.chosen r hr
    · exact (mem_fresh.1 hr).1

/-- The lines of some regions. -/
theorem Sent.behind (hc : (Catalog.ofFiles files).IsNumbered) (hdedupe : options.dedupe = true)
    (h : Sent (.ofFiles files) p ls) (xs : List Passage) :
    Sent (.ofFiles files) (xs.foldl (behind (Catalog.ofFiles files).supply options) p)
      (ls ++ (regionLines (.ofFiles files) options p xs).flatten) := by
  induction xs generalizing p ls with
  | nil =>
      rw [regionLines, List.flatten_nil, List.append_nil]
      exact h
  | cons x xs ih =>
      rw [regionLines, List.flatten_cons, ← List.append_assoc]
      exact ih ((h.note x.markup).close hc hdedupe)

/-- Behind the first region no global at-rule is written. -/
theorem not_isGlobal_of_mem {c : Catalog} (hc : c.IsNumbered) (hdedupe : options.dedupe = true)
    (hp : p.globalsSent = true) (xs : List Passage) :
    ∀ ls ∈ regionLines c options p xs, ∀ l ∈ ls, l.isGlobal = false := by
  induction xs generalizing p with
  | nil => exact fun _ h => nomatch h
  | cons x xs ih =>
      rw [regionLines]
      refine List.forall_mem_cons.2 ⟨fun l hl => ?_, ih ?_⟩
      · rw [newLines, hc.lines_eq, List.mem_filter, hp] at hl
        by_contra hglobal
        have hwanted := hl.2
        rw [Line.isWanted, if_pos (by simpa using hglobal)] at hwanted
        cases hwanted
      · simp only [behind, closeRegion, hdedupe, Bool.true_or]

end Progress

/-! ### Whole pages -/

open Progress (seen)

/-- The lines of each region of a page: no body is written twice, the global at-rules are written in
the first region, and behind each region what has been written is what the keys seen so far ask
for. -/
structure WritesOnce (c : Catalog) (xs : List Passage) (regions : List (List Line)) : Prop where
  css : xs.map Passage.css = regions.map fun ls => ls.flatMap Line.text
  once : (regions.flatten.map Line.ref).Nodup
  globals : ∀ first later, regions = first :: later →
    (∀ number file b, c.files[number]? = some file → b ∈ file.sheet.branches →
      b.isGlobal = true → ∃ l ∈ first, l.ref = ⟨number, b.body⟩ ∧ b ∈ l.run.branches) ∧
    ∀ ls ∈ later, ∀ l ∈ ls, l.isGlobal = false
  complete : ∀ pre x post, xs = pre ++ x :: post →
    (regions.take (pre.length + 1)).flatten.Perm (c.lines (c.select (seen (pre ++ [x]))) true)

open Progress in
theorem Progress.Written.writesOnce {files : List StyleFile} {options : Options}
    {xs : List Passage} (hc : (Catalog.ofFiles files).IsNumbered)
    (hdedupe : options.dedupe = true)
    (h : Written (Catalog.ofFiles files).supply options {} xs) :
    WritesOnce (.ofFiles files) xs (regionLines (.ofFiles files) options {} xs) := by
  have hsent (ys : List Passage) := (sent_start hc).behind hc hdedupe ys
  simp only [List.nil_append] at hsent
  refine ⟨h.lines hdedupe, ?_, ?_, ?_⟩
  · -- the lines of a numbered catalog are for different bodies
    have hperm := (hsent xs).lines
    rw [hc.lines_eq] at hperm
    exact (hperm.map Line.ref).nodup_iff.2 ((List.filter_sublist.map _).nodup hc.nodup_refs)
  · intro first later hregions
    cases xs with
    | nil => cases hregions
    | cons x xs =>
        obtain ⟨rfl, rfl⟩ := List.cons.inj hregions
        refine ⟨fun number file b hfile hb hglobal => ?_, ?_⟩
        · obtain ⟨l, hl, href, hline, hmem⟩ := hc.exists_line hfile hb
          refine ⟨l, ?_, href, hmem⟩
          rw [newLines, hc.lines_eq, List.mem_filter]
          refine ⟨hl, ?_⟩
          rw [Line.isWanted, if_pos (hline.trans hglobal)]
          rfl
        · refine not_isGlobal_of_mem hc hdedupe ?_ xs
          simp only [Progress.behind, closeRegion, hdedupe, Bool.true_or]
  · rintro pre x post rfl
    have htake : (regionLines (.ofFiles files) options {} (pre ++ x :: post)).take
        (pre.length + 1) = regionLines (.ofFiles files) options {} (pre ++ [x]) := by
      rw [List.append_cons, regionLines_append,
        List.take_left' (by rw [length_regionLines, List.length_append, List.length_singleton])]
    rw [htake, regionLines_append, List.flatten_append, ← noteAll_behind _ options]
    have hlast := ((hsent pre).note x.markup).newLines hc
    simpa [regionLines] using hlast

/-- **Nothing is written twice, and nothing is lost.**  With `dedupe` on, a page in any pieces gets
each body in one region at most and the global at-rules in the first, and behind each region it has
got all lines that the keys seen so far ask for. -/
theorem Rewriter.writes_once {files : List StyleFile}
    (hfiles : ∀ file ∈ files, Catalog.StartsApart file) (options : Options)
    (hdedupe : options.dedupe = true) (pieces : List Bytes) :
    (∀ usage, (Catalog.ofFiles files).critical usage =
      ((Catalog.ofFiles files).lines ((Catalog.ofFiles files).select usage) true).flatMap
        Line.text) ∧
    ∃ xs last regions,
      IsLayout (Catalog.ofFiles files).supply options pieces.flatten
        (Rewriter.complete { supply := (Catalog.ofFiles files).supply, options } pieces).2
        (Rewriter.complete { supply := (Catalog.ofFiles files).supply, options } pieces).1
        xs last ∧
      WritesOnce (.ofFiles files) xs regions := by
  refine ⟨fun usage => Catalog.render_eq_lines _ _ _, ?_⟩
  rw [Rewriter.complete_flatten]
  obtain ⟨xs, last, hlayout⟩ :=
    Rewriter.exists_layout (Catalog.ofFiles files).supply options pieces.flatten
  exact ⟨xs, last, _, hlayout, hlayout.css.writesOnce (.ofNodes hfiles) hdedupe⟩

/-- A source with a global at-rule and two rules. -/
def noticeNodes : List Node :=
  [.atRule "font-face".toList [] (some "src: url(n)".toList)
      [.declaration ⟨"src".toList, "url(n)".toList, ⟨1, 14⟩, ⟨1, 25⟩⟩] ⟨1, 1⟩ ⟨1, 26⟩,
    .rule ".note".toList [⟨"color".toList, "red".toList, ⟨2, 9⟩, ⟨2, 19⟩⟩] ⟨2, 1⟩ ⟨2, 20⟩,
    .rule "#top, .note > b".toList [⟨"margin".toList, "0".toList, ⟨3, 19⟩, ⟨3, 28⟩⟩] ⟨3, 1⟩
      ⟨3, 29⟩]

/-- The file of that source. -/
def noticeFile : StyleFile where
  name := "notice.css".toList
  sheet := .ofNodes 0 noticeNodes

/-- A page with a notice between two regions. -/
def noticePage : Bytes :=
  Utf8.encode "<i id=top><style></style><p class=note><style></style>".toList

theorem Rewriter.writes_notice_once :
    (∀ file ∈ [noticeFile], Catalog.StartsApart file) ∧
      ∃ xs last regions,
        IsLayout (Catalog.ofFiles [noticeFile]).supply { dedupe := true } noticePage
          (Rewriter.complete
            { supply := (Catalog.ofFiles [noticeFile]).supply, options := { dedupe := true } }
            [noticePage]).2
          (Rewriter.complete
            { supply := (Catalog.ofFiles [noticeFile]).supply, options := { dedupe := true } }
            [noticePage]).1
          xs last ∧
        WritesOnce (.ofFiles [noticeFile]) xs regions := by
  have hfiles : ∀ file ∈ [noticeFile], Catalog.StartsApart file :=
    List.forall_mem_singleton.2 ⟨0, noticeNodes, rfl, by decide, by decide⟩
  have hpage := (Rewriter.writes_once hfiles { dedupe := true } rfl [noticePage]).2
  rw [List.flatten_singleton] at hpage
  exact ⟨hfiles, hpage⟩

example :
    (Rewriter.complete
      { supply := (Catalog.ofFiles [noticeFile]).supply, options := { dedupe := true } }
      [noticePage]).2 =
      Utf8.encode ("<i id=top><style>@font-face \x7b src: url(n) \x7d\n" ++
        "#top, .note > b \x7b margin: 0; \x7d\n</style>" ++
        "<p class=note><style>.note \x7b color: red; \x7d\n</style>").toList := by
  decide +kernel

end StyleSieve.Rewrite
