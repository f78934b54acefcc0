import StyleSieve.Proofs.Rewrite.Again
import StyleSieve.Proofs.Usage

/-!
# The content of a region leaves no trace

What is sent out as markup is what is sent out but for the CSS and the end tags that close regions
(`Progress.copied`).  The keys seen are those that a scanner finds in it (`Progress.Seen`): a region
opens behind a tag, so the scanner is between tags while it waits, and what is held back it reads
once, when it goes out.  Content without a style tag is dropped, and leaves a rewriter as it was but
for the count of bytes in.  So nothing that comes later depends on it.

* `Progress.run_seen`: the keys seen at any byte.
* `Scanner.harvest_held`: bytes held back name no key.
* `Rewriter.push_content`: content is only counted.
* `Rewriter.content_leaves_no_trace`: pages in any pieces.
-/

namespace StyleSieve

namespace Markup.Scanner

/-- Spaces and the start of a style tag name no key. -/
theorem harvest_held {k : Matcher} {w t : Bytes} (hw : ∀ b ∈ w, Mark.of b = .space)
    (h : k.Holds styleName t) : text.harvest (w ++ t) = [] := by
  have hspaces : text.Goes w .text [] :=
    text_goes_text fun hmem => absurd (hw _ hmem) (by decide)
  suffices ∃ s, text.Goes t s [] by
    obtain ⟨s, hs⟩ := this
    exact (hspaces.trans hs).keys
  cases h with
  | idle => exact ⟨_, .nil _⟩
  | less => exact ⟨_, .step rfl⟩
  | slash => exact ⟨_, .cons rfl (.step rfl)⟩
  | @name side n rest hne hn =>
      have hletters : ∀ b ∈ n, Mark.of b = .letter := fun b hb =>
        (styleName_isWord.of_sameName hn).letter b (List.mem_append_left _ hb)
      cases side with
      | opening =>
          obtain ⟨b, n, rfl⟩ := List.exists_cons_of_ne_nil hne
          obtain ⟨hb, hmore⟩ := List.forall_mem_cons.1 hletters
          refine ⟨_, .cons rfl (goes_tagName (.cons hb fun c hc => ?_))⟩
          rw [hmore c hc]
          rfl
      | closing =>
          refine ⟨_, .cons rfl (.cons rfl (goes_endTag fun hmem => ?_))⟩
          exact absurd (hletters _ hmem) (by decide)

end Markup.Scanner

namespace Rewrite

open Markup (Matcher Quiet Scanner styleName styleName_isWord)

theorem Stands.harvest_held {limit : Nat} {mode : Mode} {m d h : Bytes}
    (hs : Stands limit mode m d h) : Scanner.text.harvest h = [] := by
  cases hs with
  | markup | region | regionTag | gapTag => rfl
  | gap _ _ hh hw _ hk => rw [hh, Scanner.harvest_held hw hk]

namespace Progress

variable (supply : Supply) (options : Options)

/-! ### What goes out as markup -/

/-- What a byte sends out to close a region: the CSS and the end tag, or nothing. -/
def closing (p : Progress) (b : UInt8) : Bytes :=
  if (p.step supply options b).1.counts.regions = p.counts.regions then []
  else (p.closeRegion supply options).2

/-- What some bytes send out but for what closes regions. -/
def copied : Progress → Bytes → Bytes
  | _, [] => []
  | p, b :: bytes =>
    (p.step supply options b).2.drop (p.closing supply options b).length ++
      copied (p.step supply options b).1 bytes

/-- What the end of the page sends out to close a region. -/
def closingAtEnd (p : Progress) : Bytes :=
  if p.inRegion then (p.closeRegion supply options).2 else []

/-- What the end of the page sends out but for that. -/
def copiedAtEnd (p : Progress) : Bytes :=
  (p.atEnd supply options).2.drop (p.closingAtEnd supply options).length

variable {supply options} {p : Progress} {m : Bytes}

theorem copied_cons (p : Progress) (b : UInt8) (bytes : Bytes) :
    p.copied supply options (b :: bytes) = p.copied supply options [b] ++
      (p.step supply options b).1.copied supply options bytes := by
  simp only [copied, List.append_nil]

/-- What a byte sends out is what closes a region, and markup behind it. -/
theorem copied_singleton {b : UInt8} {out : Bytes}
    (h : (p.step supply options b).2 = p.closing supply options b ++ out) :
    p.copied supply options [b] = out := by
  rw [copied, copied, List.append_nil, h, List.drop_left]

/-! ### The keys seen -/

/-- The scanner of a mode.  In a region, and behind one, it waits between tags. -/
def scannerOf : Mode → Scanner
  | .markup s => s
  | _ => .text

variable (supply options) in
/-- The keys seen are those that a scanner finds in some markup, and at its end it is where the
rewriter has it. -/
structure Seen (p : Progress) (markup : Bytes) : Prop where
  usage : p.usage = .ofKeys (Scanner.text.harvest markup)
  scanner : (Scanner.text.run markup).1 = scannerOf p.mode
  regains : Regains supply options p.mode

theorem seen_start : Seen supply options {} [] := ⟨rfl, rfl, trivial⟩

theorem scannerOf_inRegion (h : p.inRegion = true) : scannerOf p.mode = .text := by
  unfold inRegion at h
  split at h
  case h_1 => cases h
  case h_2 hmode =>
    cases e : p.mode with
    | markup s => exact absurd e (hmode s)
    | region | regionTag | gap | gapTag => rfl

variable (supply options) in
/-- What a byte does: `out` goes out as markup, and the keys in it are seen. -/
structure Passes (p : Progress) (m : Bytes) (b : UInt8) (out : Bytes) : Prop where
  sent : (p.step supply options b).2 = p.closing supply options b ++ out
  seen : Seen supply options (p.step supply options b).1 (m ++ out)

/-- A byte of markup goes out; where it opens a region the scanner is between tags. -/
theorem Seen.markupByte {s : Scanner} (h : Seen supply options p m) (hs : p.mode = .markup s)
    (b : UInt8) : p.Passes supply options m b [b] := by
  have hstep : p.step supply options b = p.markupByte s b := by simp only [step, hs]
  have hscanner : (Scanner.text.run m).1 = s := by rw [h.scanner, hs, scannerOf]
  refine ⟨?_, ?_, ?_, hstep ▸ markupByte_regains supply options s b⟩
  · rw [closing, hstep]
    exact (if_pos rfl).symm ▸ rfl
  · rw [hstep]
    show note p.usage [(s.step b).2] = _
    rw [h.usage, ← hscanner]
    exact noteAll_snoc .empty m b
  · rw [hstep, Scanner.run_snoc, hscanner]
    simp only [Progress.markupByte]
    split
    case isTrue e => exact Scanner.step_of_opensStyle e
    case isFalse => rfl

/-- A byte in a region, or behind one, sends nothing out, or closes the region and sends the held
bytes out behind its CSS; they are read from between tags. -/
theorem Seen.regionByte (h : Seen supply options p m) (hregion : p.inRegion = true) (b : UInt8) :
    ∃ out, p.Passes supply options m b out := by
  have hscanner : (Scanner.text.run m).1 = .text :=
    h.scanner.trans (scannerOf_inRegion hregion)
  rcases step_cases supply options hregion h.regains b with
    hwaits | ⟨latest, room, k, -, hclose⟩
  · refine ⟨[], ?_, ?_⟩
    · rw [closing, if_pos hwaits.memory.regions, hwaits.out]
      rfl
    · rw [List.append_nil]
      exact ⟨hwaits.memory.usage.trans h.usage,
        hscanner.trans (scannerOf_inRegion hwaits.inRegion).symm, hwaits.regains⟩
  · have hstep := hclose p rfl
    have hgrows : (p.release supply options (b :: latest).reverse).1.counts.regions ≠
        p.counts.regions := Nat.succ_ne_self _
    refine ⟨(b :: latest).reverse, ?_, ?_⟩
    · rw [closing, hstep, if_neg hgrows]
      rfl
    · rw [hstep]
      refine ⟨?_, ?_, trivial⟩
      · rw [Scanner.harvest_append, hscanner, Usage.ofKeys, Usage.insertAll_append]
        exact congrArg (Usage.insertAll · _) h.usage
      · rw [Scanner.run_append, hscanner]
        rfl

theorem Seen.step (h : Seen supply options p m) (b : UInt8) :
    p.Passes supply options m b (p.copied supply options [b]) := by
  cases hregion : p.inRegion with
  | false =>
      obtain ⟨s, hs⟩ := markup_of_inRegion hregion
      have hpasses := h.markupByte hs b
      rwa [copied_singleton hpasses.sent]
  | true =>
      obtain ⟨out, hpasses⟩ := h.regionByte hregion b
      rwa [copied_singleton hpasses.sent]

/-- At any byte the keys seen are those of the markup sent out. -/
theorem run_seen (h : Seen supply options p m) (bytes : Bytes) :
    Seen supply options (p.run supply options bytes).1 (m ++ p.copied supply options bytes) := by
  induction bytes generalizing p m with
  | nil => simpa only [run, copied, List.append_nil] using h
  | cons b bytes ih =>
      rw [copied_cons, ← List.append_assoc]
      exact ih (h.step b).seen

/-! ### The end of the page -/

/-- What the end of the page sends out is what closes a region, and the held bytes. -/
theorem Reads.atEnd {xs : List Passage} {d h read written : Bytes}
    (hx : Reads supply options p xs m d h read written) :
    (p.atEnd supply options).2 = p.closingAtEnd supply options ++ h := by
  cases hregion : p.inRegion with
  | false =>
      obtain ⟨s, hs⟩ := markup_of_inRegion hregion
      have hstands := hx.stands
      rw [hs] at hstands
      cases hstands
      simp only [Progress.atEnd, closingAtEnd, hs, hregion]
      rfl
  | true =>
      have hmode : ∀ s, p.mode ≠ .markup s := fun s hs => by
        rw [inRegion, hs] at hregion
        cases hregion
      rw [(hx.cut hmode).2.2, closingAtEnd, if_pos hregion]

theorem atEnd_usage (p : Progress) : (p.atEnd supply options).1.usage = p.usage := by
  unfold atEnd
  split <;> rfl

/-- The keys seen are also those of all markup up to the end of the page. -/
theorem Reads.seen_atEnd {xs : List Passage} {d h read written : Bytes}
    (hx : Reads supply options p xs m d h read written) {c : Bytes} (hc : Seen supply options p c) :
    p.usage = .ofKeys (Scanner.text.harvest (c ++ p.copiedAtEnd supply options)) := by
  have hheld : p.copiedAtEnd supply options = h := by rw [copiedAtEnd, hx.atEnd, List.drop_left]
  have hnone : (scannerOf p.mode).harvest h = [] := by
    cases hregion : p.inRegion with
    | false =>
        obtain ⟨s, hs⟩ := markup_of_inRegion hregion
        have hstands := hx.stands
        rw [hs] at hstands
        cases hstands
        rfl
    | true =>
        rw [scannerOf_inRegion hregion]
        exact hx.stands.harvest_held
  rw [hc.usage, hheld, Scanner.harvest_append, hc.scanner, hnone, List.append_nil]

/-- But for the count of bytes in. -/
def uncounted (p : Progress) : Progress := { p with counts := { p.counts with bytesIn := 0 } }

end Progress

/-- But for the count of bytes in. -/
def Stats.uncounted (s : Stats) : Stats := { s with bytesIn := 0 }

/-- Bytes that hold no style tag, and behind which none is in progress. -/
structure PlainContent (x : Bytes) : Prop where
  quiet : Quiet styleName x
  idle : (Matcher.idle.run styleName x).1 = .idle

namespace Rewriter

/-! ### Two pages that differ in content -/

/-- Takes some pieces of a page that goes on. -/
def pushAll (r : Rewriter) : List Bytes → Rewriter × Bytes
  | [] => (r, [])
  | piece :: pieces =>
    let (next, out) := r.push piece
    let (last, more) := next.pushAll pieces
    (last, out ++ more)

theorem pushAll_eq (r : Rewriter) (pieces : List Bytes) :
    r.pushAll pieces = r.push pieces.flatten := by
  induction pieces generalizing r with
  | nil => rfl
  | cons piece pieces ih => simp only [pushAll, ih, List.flatten_cons, push_append]

/-- Content without a style tag is only counted. -/
theorem push_content {r : Rewriter} {depth : Nat} (hr : r.progress.mode = .region depth .idle)
    {x : Bytes} (hx : PlainContent x) :
    r.push x = ({ r with progress := r.progress.count x.length 0 }, []) := by
  have hself : r.progress = { r.progress with mode := .region depth .idle } := by rw [← hr]
  have hrun : r.progress.run r.supply r.options x = (r.progress, []) := by
    rw [hself, Progress.run_content ((Matcher.silent_iff styleName_isWord x).2 hx.quiet), hx.idle]
  simp only [push, Progress.push, hrun, List.length_nil]

/-- What is counted already does not matter. -/
theorem push_count (r : Rewriter) (n : Nat) (bytes : Bytes) :
    { r with progress := r.progress.count n 0 }.push bytes =
      ({ (r.push bytes).1 with progress := (r.push bytes).1.progress.count n 0 },
        (r.push bytes).2) := by
  simp only [push, Progress.push, Progress.run_count, Progress.count_count, Nat.add_comm n,
    Nat.zero_add, Nat.add_zero]

theorem finish_count (r : Rewriter) (n : Nat) :
    { r with progress := r.progress.count n 0 }.finish =
      ({ r.finish.1 with bytesIn := r.finish.1.bytesIn + n }, r.finish.2) := by
  simp only [finish, Progress.finish, Progress.atEnd_count]
  simp only [Progress.stats, Progress.count, Nat.add_zero]

theorem complete_tokens (supply : Supply) (options : Options) (pieces : List Bytes) :
    (complete { supply, options } pieces).1.tokens =
      (Progress.run supply options {} pieces.flatten).1.usage.size := by
  rw [complete_eq]
  simp only [push, Progress.push, finish, Progress.finish, Progress.stats, Progress.atEnd_count]
  exact congrArg Usage.size (Progress.atEnd_usage _)

/-- Content in a page is only counted. -/
theorem push_around_content {r : Rewriter} {before : Bytes} {depth : Nat}
    (hr : (r.push before).1.progress.mode = .region depth .idle) {x : Bytes}
    (hx : PlainContent x) (after : Bytes) :
    r.push (before ++ x ++ after) =
      ({ (r.push (before ++ after)).1 with
          progress := (r.push (before ++ after)).1.progress.count x.length 0 },
        (r.push (before ++ after)).2) := by
  rw [push_append, push_append r before x, push_content hr hx, push_count, push_append]
  simp only [List.append_nil]

/-- Of two pages the output is the same, and all that is remembered and counted but for the bytes
in, where the pages go on and where they end. -/
structure SameBut (r : Rewriter) (pieces pieces' : List Bytes) : Prop where
  output : (r.pushAll pieces').2 = (r.pushAll pieces).2
  progress : (r.pushAll pieces').1.progress.uncounted = (r.pushAll pieces).1.progress.uncounted
  whole : (r.complete pieces').2 = (r.complete pieces).2
  stats : (r.complete pieces').1.uncounted = (r.complete pieces).1.uncounted

/-- A page with content is like the page without it. -/
theorem sameBut_content {r : Rewriter} {before : Bytes} {depth : Nat}
    (hr : (r.push before).1.progress.mode = .region depth .idle) {x : Bytes}
    (hx : PlainContent x) (after : Bytes) {pieces : List Bytes}
    (hpieces : pieces.flatten = before ++ x ++ after) :
    r.SameBut [before ++ after] pieces := by
  have hpush := push_around_content hr hx after
  rw [← hpieces] at hpush
  refine ⟨?_, ?_, ?_, ?_⟩
  · rw [pushAll_eq, pushAll_eq, List.flatten_singleton, hpush]
  · rw [pushAll_eq, pushAll_eq, List.flatten_singleton, hpush]
    rfl
  · rw [complete_eq, complete_eq, List.flatten_singleton, hpush, finish_count]
  · rw [complete_eq, complete_eq, List.flatten_singleton, hpush, finish_count]
    rfl

/-- **Content leaves no trace.**  At any byte of a page in pieces, and at its end, the keys seen are
those that a scanner finds in what was sent out but for what closes regions.  Where a page is in the
content of a region, with no tag in progress, content without a style tag may be put in place of
other such content: the output stays the same, and all that is remembered and counted but for the
bytes in. -/
theorem content_leaves_no_trace (supply : Supply) (options : Options) :
    (∀ pieces : List Bytes,
      let p := (Progress.run supply options {} pieces.flatten).1
      let markup := Progress.copied supply options {} pieces.flatten
      (pushAll { supply, options } pieces).1.progress.usage =
          .ofKeys (Scanner.text.harvest markup) ∧
        (complete { supply, options } pieces).1.tokens =
          (Usage.ofKeys
            (Scanner.text.harvest (markup ++ p.copiedAtEnd supply options))).size ∧
        (∀ b, (p.step supply options b).2 =
          p.closing supply options b ++ p.copied supply options [b]) ∧
        (p.atEnd supply options).2 =
          p.closingAtEnd supply options ++ p.copiedAtEnd supply options) ∧
      ∀ before depth,
        (push { supply, options } before).1.progress.mode = .region depth .idle →
        ∀ x y, PlainContent x → PlainContent y → ∀ after pieces pieces',
          pieces.flatten = before ++ x ++ after → pieces'.flatten = before ++ y ++ after →
            SameBut { supply, options } pieces pieces' := by
  constructor
  · intro pieces p markup
    have hseen : p.Seen supply options markup :=
      Progress.run_seen Progress.seen_start pieces.flatten
    obtain ⟨xs, m, d, h, hreads⟩ :=
      Progress.run_reads (Progress.reads_start supply options) pieces.flatten
    refine ⟨?_, ?_, fun b => (hseen.step b).sent, ?_⟩
    · rw [pushAll_eq]
      exact hseen.usage
    · rw [complete_tokens]
      exact congrArg Usage.size (hreads.seen_atEnd hseen)
    · rw [Progress.copiedAtEnd, hreads.atEnd, List.drop_left]
  · intro before depth hr x y hx hy after pieces pieces' hpieces hpieces'
    have h := sameBut_content hr hx after hpieces
    have h' := sameBut_content hr hy after hpieces'
    exact ⟨h'.output.trans h.output.symm, h'.progress.trans h.progress.symm,
      h'.whole.trans h.whole.symm, h'.stats.trans h.stats.symm⟩

/-- One region with content, and one with other content, cut within its end tag. -/
theorem content_leaves_no_trace_paragraph :
    (push { supply := paragraphSupply } (Utf8.encode "<p><style>".toList)).1.progress.mode =
        .region 1 .idle ∧
      PlainContent (Utf8.encode "a".toList) ∧ PlainContent (Utf8.encode "<b>c".toList) ∧
      SameBut { supply := paragraphSupply } [Utf8.encode "<p><style>a</style>b".toList]
        [Utf8.encode "<p><style><b>c</sty".toList, Utf8.encode "le>b".toList] := by
  have plain {x : Bytes} (hsilent : ∀ side, Markup.Signal.found side ∉
      (Matcher.idle.run styleName x).2) (hidle : (Matcher.idle.run styleName x).1 = .idle) :
      PlainContent x := ⟨(Matcher.silent_iff styleName_isWord x).1 hsilent, hidle⟩
  have hmode : (push { supply := paragraphSupply }
      (Utf8.encode "<p><style>".toList)).1.progress.mode = .region 1 .idle := by decide +kernel
  have hx : PlainContent (Utf8.encode "a".toList) :=
    plain (by rintro (_ | _) <;> decide +kernel) (by decide +kernel)
  have hy : PlainContent (Utf8.encode "<b>c".toList) :=
    plain (by rintro (_ | _) <;> decide +kernel) (by decide +kernel)
  exact ⟨hmode, hx, hy, (content_leaves_no_trace paragraphSupply {}).2 _ 1 hmode _ _ hx hy
    (Utf8.encode "</style>b".toList) _ _ (by decide +kernel) (by decide +kernel)⟩

end Rewriter

end Rewrite

end StyleSieve
