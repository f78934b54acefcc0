import StyleSieve.Proofs.Markup.Complete
import StyleSieve.Proofs.Rewrite.Chunks
import StyleSieve.Proofs.Rewrite.Stands

/-!
# The layout of a rewritten page

A page is a row of passages and a last stretch of markup.  A passage is a stretch of markup up to
the `>` of a style tag and the region behind it; in the output the CSS of the region stands in place
of the region.  Nothing else is lost, added or moved.

* `Progress.step_reads`, `Progress.run_reads`: what a byte, and any bytes, do to the passages so far
  (`Progress.Reads`).
* `Rewriter.exists_layout`, `Rewriter.complete_layout`: the passages of a whole page, and of one in
  any pieces.
-/

namespace StyleSieve.Rewrite

open Markup (Boundary Scanner styleName)

theorem styleEnd_boundary : Boundary styleName .closing styleEnd :=
  ⟨styleName, 0x3E, by decide, rfl, rfl⟩

/-- A stretch of markup, the region behind it, and the CSS in place of the region. -/
structure Passage where
  markup : Bytes
  dropped : Bytes
  css : Text

namespace Passage

/-- A passage in the page. -/
def source (x : Passage) : Bytes := x.markup ++ x.dropped

/-- A passage in the output. -/
def result (x : Passage) : Bytes := x.markup ++ (Utf8.encode x.css ++ styleEnd)

/-- The region of a passage stands behind a style tag, and ends with one. -/
structure IsWhole (limit : Nat) (x : Passage) : Prop where
  opens : Scanner.text.Opens x.markup
  region : Region limit 0 x.dropped

end Passage

/-- The usage with the keys of a stretch of markup. -/
def Progress.noteAll (usage : Usage) (markup : Bytes) : Usage :=
  note usage (Scanner.text.run markup).2

namespace Progress

variable (supply : Supply) (options : Options)

/-! ### The CSS of a region -/

/-- The CSS that is written where a region closes. -/
def regionCss (p : Progress) : Text :=
  supply.render
    (if options.dedupe then fresh p.emitted (supply.select p.usage) else supply.select p.usage)
    !(options.dedupe && p.globalsSent)

theorem closeRegion_snd (p : Progress) :
    (p.closeRegion supply options).2 = Utf8.encode (p.regionCss supply options) ++ styleEnd := rfl

/-- What is fresh is what has not been before. -/
theorem mem_fresh {r : BodyRef} {emitted refs : List BodyRef} :
    r ∈ fresh emitted refs ↔ r ∈ refs ∧ r ∉ emitted := by
  induction refs generalizing emitted with
  | nil => simp [fresh]
  | cons x refs ih =>
      rw [fresh]
      split
      case isTrue e =>
        have hx : x ∈ emitted := by simpa using e
        rw [ih, List.mem_cons]
        exact ⟨fun ⟨h, hr⟩ => ⟨.inr h, hr⟩,
          fun ⟨h, hr⟩ => ⟨h.resolve_left fun e => hr (e ▸ hx), hr⟩⟩
      case isFalse e =>
        have hx : x ∉ emitted := by simpa using e
        rw [List.mem_cons, ih, List.mem_cons, List.mem_cons, not_or]
        constructor
        · rintro (rfl | ⟨h, -, hr⟩)
          · exact ⟨.inl rfl, hx⟩
          · exact ⟨.inr h, hr⟩
        · rintro ⟨rfl | h, hr⟩
          · exact .inl rfl
          · exact (em (r = x)).imp_right fun hne => ⟨h, hne, hr⟩

/-- The progress behind a passage. -/
def behind (p : Progress) (x : Passage) : Progress :=
  ({ p with usage := noteAll p.usage x.markup }.closeRegion supply options).1

/-- The CSS of each passage is what the rewriter writes for the keys of the markup up to there. -/
def Written : Progress → List Passage → Prop
  | _, [] => True
  | p, x :: xs =>
    x.css = { p with usage := noteAll p.usage x.markup }.regionCss supply options ∧
      Written (p.behind supply options x) xs

variable {supply options} {p q : Progress}

theorem written_append {xs ys : List Passage} :
    p.Written supply options (xs ++ ys) ↔
      p.Written supply options xs ∧
        (xs.foldl (behind supply options) p).Written supply options ys := by
  induction xs generalizing p with
  | nil => simp [Written]
  | cons x xs ih => simp only [List.cons_append, Written, ih, List.foldl_cons, and_assoc]

/-- The CSS of a region depends on what a rewriter remembers only. -/
theorem regionCss_congr (h : p.SameMemory q) :
    q.regionCss supply options = p.regionCss supply options := by
  simp only [regionCss, h.usage, h.emitted, h.globalsSent]

theorem closeRegion_congr (h : p.SameMemory q) :
    (p.closeRegion supply options).1.SameMemory (q.closeRegion supply options).1 := by
  refine ⟨h.usage, ?_, ?_, ?_⟩
  · simp only [closeRegion, h.usage, h.emitted]
  · simp only [closeRegion, h.globalsSent]
  · simp only [closeRegion, h.regions]

theorem noteAll_snoc (usage : Usage) (m : Bytes) (b : UInt8) :
    note (noteAll usage m) [((Scanner.text.run m).1.step b).2] = noteAll usage (m ++ [b]) := by
  simp only [noteAll, note, Scanner.run_snoc, List.filterMap_append, Usage.insertAll,
    List.foldl_append]

theorem SameMemory.trans {p q r : Progress} (h : p.SameMemory q) (h' : q.SameMemory r) :
    p.SameMemory r :=
  ⟨h'.usage.trans h.usage, h'.emitted.trans h.emitted, h'.globalsSent.trans h.globalsSent,
    h'.regions.trans h.regions⟩

/-! ### The passages so far -/

variable (supply options)

/-- What has been read and written so far: whole passages, and behind them markup `m`, dropped
bytes `d` and held bytes `h`. -/
structure Reads (p : Progress) (xs : List Passage) (m d h read written : Bytes) : Prop where
  read : read = xs.flatMap Passage.source ++ (m ++ d ++ h)
  written : written = xs.flatMap Passage.result ++ m
  whole : ∀ x ∈ xs, x.IsWhole options.maxLookback
  css : Written supply options {} xs
  regions : (xs.foldl (behind supply options) {}).counts.regions = xs.length
  memory : SameMemory
    { xs.foldl (behind supply options) {} with
      usage := noteAll (xs.foldl (behind supply options) {}).usage m } p
  stands : Stands options.maxLookback p.mode m d h

variable {supply options} {xs : List Passage} {m d h read written : Bytes}

variable (supply options) in
theorem reads_start : Reads supply options {} [] [] [] [] [] [] where
  read := rfl
  written := rfl
  whole _ h := nomatch h
  css := trivial
  regions := rfl
  memory := .refl _
  stands := .markup rfl fun _ h => nomatch h

/-- A byte goes out as markup. -/
theorem Reads.markup {s : Scanner} (hx : Reads supply options p xs m d h read written)
    (hp : p.mode = .markup s) (b : UInt8) :
    Reads supply options (p.step supply options b).1 xs (m ++ [b]) [] [] (read ++ [b])
      (written ++ (p.step supply options b).2) := by
  obtain ⟨hread, hwritten, hwhole, hcss, hregions, hmem, hs⟩ := hx
  rw [hp] at hs
  have hstep : p.step supply options b = p.markupByte s b := by simp only [step, hp]
  cases hs with
  | markup hrun hq =>
      have hs : Stands options.maxLookback (.markup s) m [] [] := .markup hrun hq
      have hs' := markupByte_stands (p := p) b hs
      rw [hstep]
      refine ⟨by simp [hread], by simp [hwritten, markupByte], hwhole, hcss, hregions,
        ⟨?_, hmem.emitted, hmem.globalsSent, hmem.regions⟩, hs'⟩
      show note p.usage [(s.step b).2] = _
      rw [hmem.usage, ← hrun, noteAll_snoc]

/-- A byte is dropped or held. -/
theorem Reads.absorb {d' h' : Bytes} {b : UInt8}
    (hx : Reads supply options p xs m d h read written) (hpq : p.SameMemory q)
    (hs : Stands options.maxLookback q.mode m d' h') (hd : d' ++ h' = d ++ h ++ [b]) :
    Reads supply options q xs m d' h' (read ++ [b]) written where
  read := by rw [hx.read, List.append_assoc m d' h', hd]; simp only [List.append_assoc]
  written := hx.written
  whole := hx.whole
  css := hx.css
  regions := hx.regions
  memory := hx.memory.trans hpq
  stands := hs

/-- The CSS with which a region closes, and what the rewriter remembers then. -/
theorem Reads.close (hx : Reads supply options p xs m d h read written) :
    let x : Passage := ⟨m, d, p.regionCss supply options⟩
    Written supply options {} (xs ++ [x]) ∧
      ((xs ++ [x]).foldl (behind supply options) {}).counts.regions = (xs ++ [x]).length ∧
      SameMemory ((xs ++ [x]).foldl (behind supply options) {})
        (p.closeRegion supply options).1 := by
  refine ⟨written_append.2 ⟨hx.css, ?_, trivial⟩, ?_, ?_⟩
  · exact regionCss_congr hx.memory
  · rw [List.foldl_append, List.length_append, ← hx.regions]
    rfl
  · rw [List.foldl_append]
    exact closeRegion_congr hx.memory

/-- A byte closes the region and goes out behind the held bytes. -/
theorem Reads.release {b : UInt8} (hx : Reads supply options p xs m d h read written)
    (hr : Region options.maxLookback 0 d) (hm : Scanner.text.Opens m)
    (hsilent : Scanner.text.Silent (h ++ [b])) :
    Reads supply options (p.release supply options (h ++ [b])).1
      (xs ++ [⟨m, d, p.regionCss supply options⟩]) (h ++ [b]) [] [] (read ++ [b])
      (written ++ (p.release supply options (h ++ [b])).2) := by
  obtain ⟨hcss, hregions, hmem⟩ := hx.close
  refine ⟨?_, ?_, ?_, hcss, hregions, ⟨?_, hmem.emitted, hmem.globalsSent, hmem.regions⟩,
    .markup rfl hsilent⟩
  · simp [hx.read, Passage.source]
  · simp [hx.written, Passage.result, Progress.release, closeRegion_snd]
  · intro x hmem
    rcases List.mem_append.1 hmem with hxs | hxs
    · exact hx.whole x hxs
    · rw [List.mem_singleton.1 hxs]
      exact ⟨hm, hr⟩
  · show note (p.closeRegion supply options).1.usage _ = _
    rw [hmem.usage]
    rfl

theorem step_reads (hx : Reads supply options p xs m d h read written) (b : UInt8) :
    ∃ xs' m' d' h', Reads supply options (p.step supply options b).1 xs' m' d' h' (read ++ [b])
      (written ++ (p.step supply options b).2) := by
  have hs := hx.stands
  cases hp : p.mode with
  | markup s => exact ⟨xs, m ++ [b], [], [], hx.markup hp b⟩
  | region depth k =>
      rw [hp] at hs
      cases hs
      obtain ⟨hs', hmem⟩ := regionByte_stands (p := p) b (hp ▸ hx.stands)
      simp only [step, hp, List.append_nil]
      exact ⟨xs, m, _, [], hx.absorb hmem hs' (by simp)⟩
  | regionTag depth side quote =>
      rw [hp] at hs
      cases hs
      obtain ⟨hs', hmem⟩ := regionTagByte_stands (p := p) b (hp ▸ hx.stands)
      simp only [step, hp, List.append_nil]
      exact ⟨xs, m, _, [], hx.absorb hmem hs' (by simp)⟩
  | gap latest room k =>
      have hstep : p.step supply options b = p.gapByte supply options latest room k b := by
        simp only [step, hp]
      rw [hp] at hs
      rw [hstep]
      rcases gapByte_stands supply p b hs with
        ⟨d', h', hs', hd, hmem, hout⟩ | ⟨hrel, hr, hm, hsilent⟩
      · rw [hout, List.append_nil]
        exact ⟨xs, m, d', h', hx.absorb hmem hs' hd⟩
      · rw [hrel]
        exact ⟨_, _, _, _, hx.release hr hm hsilent⟩
  | gapTag quote =>
      rw [hp] at hs
      cases hs
      obtain ⟨hs', hmem, hout⟩ :=
        gapTagByte_stands supply b hp (hp ▸ hx.stands)
      rw [hout, List.append_nil]
      exact ⟨xs, m, _, [], hx.absorb hmem hs' (by simp)⟩

theorem run_reads (hx : Reads supply options p xs m d h read written) (bytes : Bytes) :
    ∃ xs' m' d' h', Reads supply options (p.run supply options bytes).1 xs' m' d' h'
      (read ++ bytes) (written ++ (p.run supply options bytes).2) := by
  induction bytes generalizing p xs m d h read written with
  | nil => exact ⟨xs, m, d, h, by simpa only [run, List.append_nil] using hx⟩
  | cons b bytes ih =>
      obtain ⟨xs', m', d', h', hx'⟩ := step_reads hx b
      obtain ⟨xs'', m'', d'', h'', hx''⟩ := ih hx'
      refine ⟨xs'', m'', d'', h'', ?_⟩
      simpa only [run, List.append_assoc, List.singleton_append] using hx''

/-! ### The end of the page -/

/-- Where a page ends in a region, what was dropped last is a region or the start of one. -/
theorem Reads.cut (hx : Reads supply options p xs m d h read written)
    (hp : ∀ s, p.mode ≠ .markup s) :
    Scanner.text.Opens m ∧
      (Region options.maxLookback 0 d ∨ Cut options.maxLookback d ∧ h = []) ∧
      p.atEnd supply options =
        ((p.closeRegion supply options).1, (p.closeRegion supply options).2 ++ h) := by
  have hs := hx.stands
  unfold atEnd
  generalize hmode : p.mode = mode at hs
  cases hs with
  | markup => exact absurd hmode (hp _)
  | region hm hr hk hc =>
      exact ⟨hm, .inr ⟨.content hr hc, rfl⟩, by simp⟩
  | regionTag hm hr hc ht hd =>
      exact ⟨hm, .inr ⟨.tag hr hc ht, rfl⟩, by simp⟩
  | gap hm hr hh hw hroom hk => exact ⟨hm, .inl hr, rfl⟩
  | gapTag hm hr hw ht => exact ⟨hm, .inr ⟨.tag hr hw ht, rfl⟩, by simp⟩

end Progress

/-- The layout of a page, of the output for it, and of what is counted: passages, and a last stretch
of markup. -/
structure IsLayout (supply : Supply) (options : Options) (page output : Bytes) (stats : Stats)
    (xs : List Passage) (last : Bytes) : Prop where
  source : page = xs.flatMap Passage.source ++ last
  result : output = xs.flatMap Passage.result ++ last
  /-- The markup of a passage ends with a style tag. -/
  opens : ∀ x ∈ xs, Markup.EndsWithTag .style x.markup
  /-- What is dropped is a region; where the page ends within it, the start of one. -/
  whole : ∀ x ∈ xs.dropLast, Region options.maxLookback 0 x.dropped
  ending : ∀ x ∈ xs.getLast?,
    Region options.maxLookback 0 x.dropped ∨ Cut options.maxLookback x.dropped ∧ last = []
  css : Progress.Written supply options {} xs
  regions : stats.regions = xs.length
  bytesIn : stats.bytesIn = page.length
  bytesOut : stats.bytesOut = output.length

open Progress in
/-- A whole page has a layout. -/
theorem Rewriter.exists_layout (supply : Supply) (options : Options) (page : Bytes) :
    ∃ xs last, IsLayout supply options page (Rewriter.complete { supply, options } [page]).2
      (Rewriter.complete { supply, options } [page]).1 xs last := by
  obtain ⟨hin, hout⟩ := Rewriter.complete_counts { supply, options } [page]
  obtain ⟨xs, m, d, h, hx⟩ := run_reads (reads_start supply options) page
  obtain ⟨houtput, hregions⟩ := Rewriter.complete_atEnd supply options [page]
  rw [List.flatten_singleton] at hin houtput hregions
  rw [List.nil_append, List.nil_append] at hx
  generalize hp : Progress.run supply options {} page = q at hx houtput hregions
  by_cases hmode : ∃ s, q.1.mode = .markup s
  · -- the page ends in markup
    obtain ⟨s, hmode⟩ := hmode
    have hend : q.1.atEnd supply options = (q.1, []) := by simp only [atEnd, hmode]
    have hs := hx.stands
    rw [hmode] at hs
    cases hs
    rw [hend] at houtput hregions
    refine ⟨xs, m, ?_, ?_, fun x hxs => Markup.endsWithTag_of_opens (hx.whole x hxs).opens,
      fun x hxs => (hx.whole x ((List.dropLast_sublist xs).subset hxs)).region,
      fun x hxs => .inl (hx.whole x (List.mem_of_getLast? hxs)).region, hx.css, ?_,
      by simpa using hin, by simpa using hout⟩
    · simpa using hx.read
    · rw [houtput, List.append_nil, hx.written]
    · rw [hregions, hx.memory.regions]
      exact hx.regions
  · -- the page ends in a region or right behind one
    obtain ⟨hm, hd, hend⟩ := hx.cut fun s hs => hmode ⟨s, hs⟩
    obtain ⟨hcss, hlen, hmem⟩ := hx.close
    rw [hend] at houtput hregions
    refine ⟨_, h, ?_, ?_, ?_, ?_, ?_, hcss, ?_, by simpa using hin, by simpa using hout⟩
    · simp [hx.read, Passage.source]
    · simp [houtput, hx.written, Passage.result, closeRegion_snd]
    · intro x hxs
      rcases List.mem_append.1 hxs with hxs | hxs
      · exact Markup.endsWithTag_of_opens (hx.whole x hxs).opens
      · rw [List.mem_singleton.1 hxs]
        exact Markup.endsWithTag_of_opens hm
    · intro x hxs
      rw [List.dropLast_concat] at hxs
      exact (hx.whole x hxs).region
    · intro x hxs
      rw [List.getLast?_concat, Option.mem_some_iff] at hxs
      rw [← hxs]
      exact hd
    · rw [hregions, ← hlen, hmem.regions]

/-- **Only regions are replaced.**  A page in any pieces, and the output for it, are the same
stretches of markup, but where the page has a region behind a style tag the output has CSS and
`</style>`.  All regions are counted, and so is every byte in and out. -/
theorem Rewriter.complete_layout (supply : Supply) (options : Options) (pieces : List Bytes) :
    ∃ xs last, IsLayout supply options pieces.flatten
      (Rewriter.complete { supply, options } pieces).2
      (Rewriter.complete { supply, options } pieces).1 xs last := by
  rw [Rewriter.complete_flatten]
  exact Rewriter.exists_layout supply options pieces.flatten

end StyleSieve.Rewrite
