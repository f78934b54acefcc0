import StyleSieve.Proofs.Rewrite.Layout

/-!
# A rewritten page rewritten again

Where the CSS holds no style tag, a rewritten page is rewritten to itself.  A second rewriter reads
what the first one writes.  It is in markup where the first is, and as long as the first is in a
region, or holds bytes back, it waits behind the tag that opened the region (`Follows`).  When the
first closes the region, the second reads the CSS and drops it, then holds back what the first had
held back (`Regains`), and closes the region at the same byte, with the same keys and so the same
CSS.

* `Progress.closes`: the keys seen where regions close.
* `Progress.step_follows`: a byte.
* `Rewriter.complete_complete`: a page.
-/

namespace StyleSieve.Rewrite

open Markup (Boundary IsWord Mark Matcher Quiet Scanner styleName styleName_isWord)

namespace Progress

variable (supply : Supply) (options : Options)

/-- The bytes that a mode holds back, if any, lead to it from the end of a region. -/
def Regains : Mode → Prop
  | .gap latest room k => ∀ q : Progress,
      { q with mode := afterRegion options }.run supply options latest.reverse =
        ({ q with mode := .gap latest room k }, [])
  | _ => True

/-- The keys seen at each byte that closes a region. -/
def closes : Progress → Bytes → List Usage
  | _, [] => []
  | p, b :: bytes =>
    let next := (p.step supply options b).1
    (if next.counts.regions = p.counts.regions then [] else [p.usage]) ++ closes next bytes

/-- The keys seen where a region is closed at the end of the page. -/
def closesAtEnd (p : Progress) : List Usage := if p.inRegion then [p.usage] else []

/-- The keys seen at each close of a region of a page. -/
def closesOf (page : Bytes) : List Usage :=
  closes supply options {} page ++ closesAtEnd (run supply options {} page).1

variable {supply options} {p q : Progress} {b : UInt8}

/-! ### A byte in a region or behind one -/

variable (supply options) in
/-- What a byte does that closes no region: it is dropped or held back. -/
structure Waits (p : Progress) (after : Progress × Bytes) : Prop where
  memory : p.SameMemory after.1
  inRegion : after.1.inRegion = true
  regains : Regains supply options after.1.mode
  out : after.2 = []

theorem waits_of (mode : Mode) (hregion : { p with mode }.inRegion = true)
    (hregains : Regains supply options mode) (merged : Nat) :
    p.Waits supply options ({ p with mode, counts := { p.counts with merged } }, []) where
  memory := ⟨rfl, rfl, rfl, rfl⟩
  inRegion := hregion
  regains := hregains
  out := rfl

theorem waits_region (depth : Nat) (k : Matcher) (merged : Nat) :
    p.Waits supply options
      ({ p with mode := .region depth k, counts := { p.counts with merged } }, []) :=
  waits_of (.region depth k) rfl trivial merged

theorem waits_regionTag (depth : Nat) (side : Markup.Side) (quote : Option UInt8) (merged : Nat) :
    p.Waits supply options
      ({ p with mode := .regionTag depth side quote, counts := { p.counts with merged } }, []) :=
  waits_of (.regionTag depth side quote) rfl trivial merged

theorem waits_afterRegion :
    p.Waits supply options ({ p with mode := afterRegion options }, []) :=
  waits_of (afterRegion options) rfl (fun _ => rfl) _

theorem waits_gapTag (quote : Option UInt8) :
    p.Waits supply options ({ p with mode := .gapTag quote }, []) :=
  waits_of (.gapTag quote) rfl trivial _

theorem waits_leave (depth : Nat) :
    p.Waits supply options ({ p with mode := leave options depth }, []) := by
  unfold leave
  split
  · exact waits_afterRegion
  · exact waits_region ..

theorem regionByte_waits (depth : Nat) (k : Matcher) (b : UInt8) :
    p.Waits supply options (p.regionByte options depth k b, []) := by
  unfold regionByte
  split
  case h_1 =>
    dsimp only [merge]
    split
    · exact waits_region ..
    · exact waits_regionTag ..
  case h_2 =>
    split
    · exact waits_leave depth
    · exact waits_regionTag ..
  case h_3 => exact waits_region ..

theorem regionTagByte_waits (depth : Nat) (side : Markup.Side) (quote : Option UInt8) (b : UInt8) :
    p.Waits supply options (p.regionTagByte options depth side quote b, []) := by
  unfold regionTagByte
  split
  case h_1 => exact waits_regionTag ..
  case h_2 => exact waits_region ..
  case h_3 => exact waits_leave depth

/-- One more byte held back. -/
theorem waits_hold {latest : Bytes} {room : Nat} {k : Matcher}
    (h : Regains supply options (.gap latest room k)) (room' : Nat) (k' : Matcher)
    (hstep : ∀ q : Progress, q.gapByte supply options latest room k b =
      ({ q with mode := .gap (b :: latest) room' k' }, [])) :
    p.Waits supply options (p.gapByte supply options latest room k b) := by
  rw [hstep]
  refine waits_of (.gap (b :: latest) room' k') rfl (fun q => ?_) _
  have hb : { q with mode := .gap latest room k }.step supply options b =
      ({ q with mode := .gap (b :: latest) room' k' }, []) := hstep _
  rw [List.reverse_cons, run_append, h q, run_singleton, hb, List.append_nil]

/-- A byte after a region is dropped or held back, or it closes the region. -/
theorem gapByte_cases {latest : Bytes} {room : Nat} {k : Matcher}
    (h : Regains supply options (.gap latest room k)) (b : UInt8) :
    (∀ p : Progress, p.Waits supply options (p.gapByte supply options latest room k b)) ∨
      ∀ p : Progress, p.gapByte supply options latest room k b =
        p.release supply options (b :: latest).reverse := by
  by_cases hspace : (k = .idle && Mark.of b = .space) = true
  · cases room with
    | zero => exact .inr fun p => by simp only [gapByte, if_pos hspace]
    | succ room =>
        exact .inl fun p => waits_hold h room .idle fun q => by simp only [gapByte, if_pos hspace]
  · rcases hk : k.step styleName b with ⟨next, _ | _ | ⟨_ | _⟩ | _⟩
    · exact .inr fun p => by simp only [gapByte, if_neg hspace, hk]
    · exact .inl fun p => waits_hold h room next fun q => by simp only [gapByte, if_neg hspace, hk]
    · -- a style element joins the region
      refine .inl fun p => ?_
      simp only [gapByte, if_neg hspace, hk, merge]
      split
      · exact waits_region ..
      · exact waits_regionTag ..
    · -- a stray end tag joins the region
      refine .inl fun p => ?_
      simp only [gapByte, if_neg hspace, hk]
      split
      · exact waits_afterRegion
      · exact waits_gapTag none
    · exact .inr fun p => by simp only [gapByte, if_neg hspace, hk]

theorem markup_of_inRegion (h : p.inRegion = false) : ∃ s, p.mode = .markup s := by
  unfold inRegion at h
  split at h
  case h_1 s hs => exact ⟨s, hs⟩
  case h_2 => cases h

variable (supply options) in
/-- What a byte does in a region or behind one. -/
theorem step_cases (hp : p.inRegion = true) (hregains : Regains supply options p.mode) (b : UInt8) :
    p.Waits supply options (p.step supply options b) ∨
      ∃ latest room k, p.mode = .gap latest room k ∧ ∀ q : Progress, q.mode = p.mode →
        q.step supply options b = q.release supply options (b :: latest).reverse := by
  unfold step
  cases hmode : p.mode with
  | markup s =>
      rw [inRegion, hmode] at hp
      cases hp
  | region depth k => exact .inl (regionByte_waits depth k b)
  | regionTag depth side quote => exact .inl (regionTagByte_waits depth side quote b)
  | gap latest room k =>
      rw [hmode] at hregains
      rcases gapByte_cases hregains b with h | h
      · exact .inl (h p)
      · exact .inr ⟨latest, room, k, rfl, fun q hq => by simp only [hq, h q]⟩
  | gapTag quote =>
      refine .inl ?_
      dsimp only
      split
      · exact waits_gapTag _
      · exact waits_afterRegion

/-! ### Counting regions -/

theorem markupByte_regains (supply : Supply) (options : Options) (s : Scanner) (b : UInt8) :
    Regains supply options (p.markupByte s b).1.mode := by
  simp only [markupByte]
  split <;> trivial

theorem step_regains (hp : Regains supply options p.mode) (b : UInt8) :
    Regains supply options (p.step supply options b).1.mode := by
  cases hregion : p.inRegion with
  | false =>
      obtain ⟨s, hs⟩ := markup_of_inRegion hregion
      simp only [step, hs]
      exact markupByte_regains supply options s b
  | true =>
      rcases step_cases supply options hregion hp b with h | ⟨latest, room, k, -, h⟩
      · exact h.regains
      · rw [h p rfl]
        trivial

/-- A byte closes one region at most. -/
theorem step_regions (hp : Regains supply options p.mode) (b : UInt8) :
    (p.step supply options b).1.counts.regions =
      p.counts.regions + (p.closes supply options [b]).length := by
  simp only [closes, List.append_nil]
  split
  case isTrue h => exact h
  case isFalse h =>
    cases hregion : p.inRegion with
    | false =>
        obtain ⟨s, hs⟩ := markup_of_inRegion hregion
        simp only [step, hs] at h
        exact absurd rfl h
    | true =>
        rcases step_cases supply options hregion hp b with hwaits | ⟨latest, room, k, -, hclose⟩
        · exact absurd hwaits.memory.regions h
        · rw [hclose p rfl]
          rfl

theorem closes_cons (p : Progress) (b : UInt8) (bytes : Bytes) :
    p.closes supply options (b :: bytes) = p.closes supply options [b] ++
      (p.step supply options b).1.closes supply options bytes := by
  simp only [closes, List.append_nil]

theorem closes_append (p : Progress) (a b : Bytes) :
    p.closes supply options (a ++ b) =
      p.closes supply options a ++ (p.run supply options a).1.closes supply options b := by
  induction a generalizing p with
  | nil => rfl
  | cons x a ih => rw [List.cons_append, closes_cons, ih, closes_cons p x a, List.append_assoc, run]

/-- The regions counted are those that have closed. -/
theorem run_regions (hp : Regains supply options p.mode) (bytes : Bytes) :
    (p.run supply options bytes).1.counts.regions =
      p.counts.regions + (p.closes supply options bytes).length := by
  induction bytes generalizing p with
  | nil => rfl
  | cons b bytes ih =>
      rw [closes_cons, List.length_append, ← Nat.add_assoc, ← step_regions hp, run,
        ih (step_regains hp b)]

/-! ### Reading what has been written -/

/-- Content without a style tag is dropped. -/
theorem run_content {depth : Nat} {k : Matcher} {c : Bytes} (hc : k.Silent styleName c) :
    { p with mode := .region depth k }.run supply options c =
      ({ p with mode := .region depth (k.run styleName c).1 }, []) := by
  induction c generalizing k with
  | nil => rfl
  | cons b c ih =>
      obtain ⟨hb, hc⟩ := Matcher.silent_cons.1 hc
      have hstep : { p with mode := .region depth k }.step supply options b =
          ({ p with mode := .region depth (k.step styleName b).1 }, []) := by
        simp only [step, regionByte]
        split
        case h_1 e => exact absurd (congrArg Prod.snd e) (hb _)
        case h_2 e => exact absurd (congrArg Prod.snd e) (hb _)
        case h_3 e => rw [e]
      simp only [run, hstep, ih hc, Matcher.run, List.append_nil]

/-- The CSS of a region is dropped, and its end tag ends the region. -/
theorem run_css {c : Bytes} (hc : Quiet styleName c) :
    { p with mode := .region 1 .idle }.run supply options (c ++ styleEnd) =
      ({ p with mode := afterRegion options }, []) := by
  obtain ⟨t, -, hk⟩ := Matcher.holds_run styleName c
  have hend : styleEnd = styleEnd.dropLast ++ [0x3E] := by decide
  have hboundary := styleEnd_boundary
  rw [hend] at hboundary ⊢
  obtain ⟨hname, hfind⟩ := Matcher.find_of_boundary styleName_isWord hk hboundary
  have hsilent := (Matcher.silent_iff styleName_isWord c).2 hc
  rw [run_append, run_content hsilent, run_append, run_content hname, run_singleton]
  simp only [step, regionByte, hfind]
  rfl

/-! ### A second rewriter -/

theorem SameMemory.symm (h : p.SameMemory q) : q.SameMemory p :=
  ⟨h.usage.symm, h.emitted.symm, h.globalsSent.symm, h.regions.symm⟩

variable (supply options) in
/-- Rewriters that remember the same close a region the same. -/
theorem SameMemory.closeRegion (h : p.SameMemory q) :
    (p.closeRegion supply options).1.SameMemory (q.closeRegion supply options).1 ∧
      (q.closeRegion supply options).2 = (p.closeRegion supply options).2 := by
  obtain ⟨mode, usage, emitted, sent, counts⟩ := p
  obtain ⟨mode', usage', emitted', sent', counts'⟩ := q
  obtain ⟨rfl, rfl, rfl, hregions⟩ := h
  exact ⟨⟨rfl, rfl, rfl, congrArg (· + 1) hregions⟩, rfl⟩

variable (supply options) in
theorem SameMemory.release (h : p.SameMemory q) (held : Bytes) :
    (p.release supply options held).1.SameMemory (q.release supply options held).1 ∧
      (q.release supply options held).1.mode = (p.release supply options held).1.mode ∧
      (q.release supply options held).2 = (p.release supply options held).2 := by
  obtain ⟨hclosed, hcss⟩ := h.closeRegion supply options
  exact ⟨⟨congrArg (note · _) hclosed.usage, hclosed.emitted, hclosed.globalsSent,
    hclosed.regions⟩, rfl, congrArg (· ++ held) hcss⟩

/-- Only the mode is not remembered. -/
theorem SameMemory.withMode (h : p.SameMemory q) (mode : Mode) : p.SameMemory { q with mode } :=
  ⟨h.usage, h.emitted, h.globalsSent, h.regions⟩

variable (supply options) in
/-- `q` reads what `p` writes.  Where `p` is in a region, or behind one, `q` is right behind the tag
that opens it. -/
structure Follows (p q : Progress) : Prop where
  regains : Regains supply options p.mode
  mode : q.mode = if p.inRegion then .region 1 .idle else p.mode
  memory : p.SameMemory q

theorem follows_start : Follows supply options {} {} := ⟨trivial, rfl, .refl _⟩

variable (supply options) in
/-- `q` reads `out` and writes it again, and then follows `p`.  The regions that close meanwhile do
so with the keys `closed`. -/
structure Echoes (p q : Progress) (out : Bytes) (closed : List Usage) : Prop where
  follows : Follows supply options p (q.run supply options out).1
  same : (q.run supply options out).2 = out
  closes : q.closes supply options out = closed

/-- A byte of markup. -/
theorem Follows.markupByte {s : Scanner} (h : Follows supply options p q) (hs : p.mode = .markup s)
    (b : UInt8) : Echoes supply options (p.step supply options b).1 q
      (p.step supply options b).2 (p.closes supply options [b]) := by
  have hq : q.mode = .markup s := by
    rw [h.mode, inRegion, hs]
    rfl
  have hp : p.step supply options b = p.markupByte s b := by simp only [step, hs]
  have hq' : q.step supply options b = q.markupByte s b := by simp only [step, hq]
  simp only [hp, closes, Progress.markupByte]
  refine ⟨⟨?_, ?_, ?_⟩, ?_, ?_⟩
  · exact markupByte_regains supply options s b
  · rw [run_singleton, hq']
    simp only [Progress.markupByte]
    split <;> rfl
  · rw [run_singleton, hq']
    exact ⟨congrArg (note · _) h.memory.usage, h.memory.emitted, h.memory.globalsSent,
      h.memory.regions⟩
  · rw [run_singleton, hq']
    rfl
  · simp only [closes, hq', Progress.markupByte]
    rfl

/-- A byte that is dropped or held back. -/
theorem Follows.waits (h : Follows supply options p q) (hregion : p.inRegion = true)
    (hwaits : p.Waits supply options (p.step supply options b)) :
    Echoes supply options (p.step supply options b).1 q (p.step supply options b).2
      (p.closes supply options [b]) := by
  rw [hwaits.out]
  refine ⟨⟨hwaits.regains, ?_, ?_⟩, rfl, ?_⟩
  · rw [if_pos hwaits.inRegion, run, h.mode, if_pos hregion]
  · exact hwaits.memory.symm.trans h.memory
  · simp [closes, hwaits.memory.regions]

theorem closes_release {held : Bytes}
    (h : p.step supply options b = p.release supply options held) :
    p.closes supply options [b] = [p.usage] := by
  simp [closes, h, release, closeRegion]

/-- At the end of the page a region closes, and what is held back goes out. -/
theorem atEnd_region (h : p.inRegion = true) (hregains : Regains supply options p.mode) :
    ∃ latest room k, Regains supply options (.gap latest room k) ∧
      p.atEnd supply options =
        ((p.closeRegion supply options).1, (p.closeRegion supply options).2 ++ latest.reverse) := by
  unfold atEnd
  cases hp : p.mode with
  | markup s =>
      rw [inRegion, hp] at h
      cases h
  | gap latest room k => exact ⟨latest, room, k, hp ▸ hregains, rfl⟩
  | region | regionTag | gapTag =>
      refine ⟨[], options.maxLookback, .idle, fun _ => rfl, ?_⟩
      rw [List.reverse_nil, List.append_nil]

section

variable (hquiet : ∀ bodies globals, Quiet styleName (Utf8.encode (supply.render bodies globals)))

include hquiet

/-- What is written where a region closes brings `q` to the byte that closed it. -/
theorem Follows.closed (h : Follows supply options p q) (hregion : p.inRegion = true)
    {latest : Bytes} {room : Nat} {k : Matcher}
    (hregains : Regains supply options (.gap latest room k)) :
    q.run supply options ((p.closeRegion supply options).2 ++ latest.reverse) =
        ({ q with mode := .gap latest room k }, []) ∧
      q.closes supply options ((p.closeRegion supply options).2 ++ latest.reverse) = [] := by
  have hcss : Quiet styleName (Utf8.encode (p.regionCss supply options)) := hquiet _ _
  have hmode : q.mode = .region 1 .idle := by rw [h.mode, if_pos hregion]
  have hrun : { q with mode := .region 1 .idle }.run supply options _ = _ := run_css hcss
  rw [← hmode] at hrun
  have hall : q.run supply options ((p.closeRegion supply options).2 ++ latest.reverse) =
      ({ q with mode := .gap latest room k }, []) := by
    rw [closeRegion_snd, run_append, hrun, hregains q]
    rfl
  refine ⟨hall, ?_⟩
  -- no region is counted meanwhile
  have hregains : Regains supply options q.mode := by rw [hmode]; trivial
  have hcount := run_regions hregains ((p.closeRegion supply options).2 ++ latest.reverse)
  rw [hall] at hcount
  exact List.eq_nil_of_length_eq_zero (Nat.left_eq_add.1 hcount)

/-- A byte that closes a region. -/
theorem Follows.release {latest : Bytes} {room : Nat} {k : Matcher}
    (h : Follows supply options p q) (hp : p.mode = .gap latest room k)
    (hclose : ∀ q : Progress, q.mode = p.mode →
      q.step supply options b = q.release supply options (b :: latest).reverse) :
    Echoes supply options (p.step supply options b).1 q (p.step supply options b).2
      (p.closes supply options [b]) := by
  have hregains := h.regains
  rw [hp] at hregains
  obtain ⟨hrun, hnone⟩ := h.closed hquiet (by rw [inRegion, hp]) hregains
  -- `q` stands where `p` does
  let held : Progress := { q with mode := .gap latest room k }
  have hheld : held.step supply options b = held.release supply options (b :: latest).reverse :=
    hclose held hp.symm
  obtain ⟨hmemory, hmode, hsame⟩ :=
    (h.memory.withMode (.gap latest room k)).release supply options (b :: latest).reverse
  have hout : (p.release supply options (b :: latest).reverse).2 =
      (p.closeRegion supply options).2 ++ latest.reverse ++ [b] := by
    rw [List.append_assoc, ← List.reverse_cons]
    rfl
  have hagain : q.run supply options (p.release supply options (b :: latest).reverse).2 =
      held.release supply options (b :: latest).reverse := by
    rw [hout, run_append, hrun, run_singleton, hheld]
    rfl
  rw [hclose p rfl]
  refine ⟨⟨trivial, ?_, ?_⟩, ?_, ?_⟩
  · rw [hagain, hmode]
    rfl
  · rw [hagain]
    exact hmemory
  · rw [hagain, hsame]
  · rw [hout, closes_append, hnone, hrun, closes_release (hclose p rfl), closes_release hheld,
      h.memory.usage]
    rfl

/-- What `p` writes for a byte, `q` writes when it reads that. -/
theorem step_follows (h : Follows supply options p q) (b : UInt8) :
    Echoes supply options (p.step supply options b).1 q (p.step supply options b).2
      (p.closes supply options [b]) := by
  cases hregion : p.inRegion with
  | false =>
      obtain ⟨s, hs⟩ := markup_of_inRegion hregion
      exact h.markupByte hs b
  | true =>
      rcases step_cases supply options hregion h.regains b with hwaits | ⟨_, _, _, hp, hclose⟩
      · exact h.waits hregion hwaits
      · exact h.release hquiet hp hclose

theorem run_follows (h : Follows supply options p q) (bytes : Bytes) :
    Echoes supply options (p.run supply options bytes).1 q (p.run supply options bytes).2
      (p.closes supply options bytes) := by
  induction bytes generalizing p q with
  | nil => exact ⟨h, rfl, rfl⟩
  | cons b bytes ih =>
      have hb := step_follows hquiet h b
      have hrest := ih hb.follows
      refine ⟨?_, ?_, ?_⟩
      · simpa only [run, run_append] using hrest.follows
      · simp only [run, run_append, hb.same, hrest.same]
      · rw [closes_cons]
        simp only [run, closes_append, hb.closes, hrest.closes]

/-- What `p` writes at the end of the page, `q` writes when it reads that and the page ends. -/
theorem atEnd_follows (h : Follows supply options p q) :
    let out := (p.atEnd supply options).2
    let last := (q.run supply options out).1
    (q.run supply options out).2 ++ (last.atEnd supply options).2 = out ∧
      q.closes supply options out ++ last.closesAtEnd = p.closesAtEnd := by
  dsimp only
  cases hregion : p.inRegion with
  | false =>
      obtain ⟨s, hs⟩ := markup_of_inRegion hregion
      have hq : q.mode = .markup s := by rw [h.mode, if_neg (by simp [hregion]), hs]
      have hout : p.atEnd supply options = (p, []) := by simp only [atEnd, hs]
      rw [hout]
      simp only [run, atEnd, hq, closesAtEnd, inRegion, hs]
      exact ⟨rfl, rfl⟩
  | true =>
      obtain ⟨latest, room, k, hregains, hout⟩ := atEnd_region hregion h.regains
      obtain ⟨hrun, hnone⟩ := h.closed hquiet hregion hregains
      obtain ⟨-, hcss⟩ :=
        (h.memory.withMode (.gap latest room k)).closeRegion supply options
      rw [hout]
      dsimp only
      rw [hrun, hnone]
      refine ⟨congrArg (· ++ latest.reverse) hcss, ?_⟩
      rw [closesAtEnd, closesAtEnd, if_pos hregion, ← h.memory.usage]
      rfl

end

/-- At the end of the page one region closes at most. -/
theorem atEnd_regions (p : Progress) :
    (p.atEnd supply options).1.counts.regions = p.counts.regions + p.closesAtEnd.length := by
  unfold atEnd closesAtEnd inRegion
  cases p.mode <;> rfl

end Progress

open Progress

/-- The regions of a page are those whose keys are listed. -/
theorem Rewriter.complete_regions (supply : Supply) (options : Options) (pieces : List Bytes) :
    (complete { supply, options } pieces).1.regions =
      (closesOf supply options pieces.flatten).length := by
  have hrun := @run_regions supply options {} trivial pieces.flatten
  rw [(complete_atEnd supply options pieces).2, atEnd_regions, hrun, closesOf, List.length_append,
    Nat.zero_add]

/-- **A rewritten page is rewritten to itself.**  Where the CSS never holds a style tag, what a
rewriter has made of a page another one makes of that again, with the same regions and with the same
keys seen where each of them closes. -/
theorem Rewriter.complete_complete (supply : Supply) (options : Options)
    (hquiet : ∀ bodies globals, Quiet styleName (Utf8.encode (supply.render bodies globals)))
    (pieces again : List Bytes)
    (hagain : again.flatten = (complete { supply, options } pieces).2) :
    (complete { supply, options } again).2 = (complete { supply, options } pieces).2 ∧
      (complete { supply, options } again).1.regions =
        (complete { supply, options } pieces).1.regions ∧
      closesOf supply options again.flatten = closesOf supply options pieces.flatten := by
  have hstart : Follows supply options {} {} := follows_start
  have hrun := run_follows hquiet hstart pieces.flatten
  obtain ⟨hout, hcloses⟩ := atEnd_follows hquiet hrun.follows
  rw [(complete_atEnd supply options pieces).1] at hagain
  have hsame : closesOf supply options again.flatten = closesOf supply options pieces.flatten := by
    rw [closesOf, hagain, closes_append, hrun.closes, run_append, List.append_assoc, hcloses,
      closesOf]
  refine ⟨?_, ?_, hsame⟩
  · rw [(complete_atEnd supply options again).1, (complete_atEnd supply options pieces).1, hagain,
      run_append, hrun.same, List.append_assoc, hout]
  · rw [complete_regions, complete_regions, hsame]

/-- A supply of one rule, for paragraphs. -/
def paragraphSupply : Supply where
  select usage := if usage.contains (Key.tag "p".toList) then [⟨0, 0⟩] else []
  render bodies _ := if bodies.isEmpty then [] else "p \x7b color: red; \x7d\n".toList

theorem paragraphSupply_quiet (bodies : List BodyRef) (globals : Bool) :
    Quiet styleName (Utf8.encode (paragraphSupply.render bodies globals)) := by
  intro side
  simp only [paragraphSupply]
  split
  · exact Markup.lacks_nil _ _
  · exact (Matcher.lacks_iff styleName_isWord side _).1 (by cases side <;> decide +kernel)

/-- A page whose last region is cut off. -/
def paragraphPage : List Bytes :=
  [Utf8.encode "<style></style> x<p><sty".toList, Utf8.encode "le>a</style> <style>b".toList]

/-- That page is rewritten to itself. -/
theorem Rewriter.complete_paragraphs :
    (complete { supply := paragraphSupply }
        [(complete { supply := paragraphSupply } paragraphPage).2]).2 =
      (complete { supply := paragraphSupply } paragraphPage).2 ∧
    (complete { supply := paragraphSupply }
        [(complete { supply := paragraphSupply } paragraphPage).2]).1.regions =
      (complete { supply := paragraphSupply } paragraphPage).1.regions ∧
    closesOf paragraphSupply {}
        [(complete { supply := paragraphSupply } paragraphPage).2].flatten =
      closesOf paragraphSupply {} paragraphPage.flatten :=
  complete_complete paragraphSupply {} paragraphSupply_quiet paragraphPage _
    (List.flatten_singleton ..)

example :
    (Rewriter.complete { supply := paragraphSupply } paragraphPage).2 =
      Utf8.encode
        "<style></style> x<p><style>p \x7b color: red; \x7d\n</style>".toList := by
  decide +kernel

end StyleSieve.Rewrite
