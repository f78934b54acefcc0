import Mathlib.Data.List.MinMax
import Mathlib.Data.Prod.Lex
import StyleSieve.Stylesheet.OfNodes

/-!
# The tightest cover of some spans

The span of a block says which body the block is, so it has to be a matter of the declarations
alone: it starts where the first of them starts and stops where the last of them stops
(`Span.Covers`), in whatever order they come.

* `Span.Covers.unique`: spans of one file have one cover at most.
* `argmin_eq_foldl`, `argmax_eq_foldl`: a fold finds the span that starts first, or stops last, of
  its seed and the spans.
* `covers_ofDeclarations`: the span of a block covers its declarations.
* `ofDeclarations_cover`: that, with all that follows from it.

A seed is no declaration.  It can come out of the fold all the same, if no declaration starts before
the last place that there is; but then they all start at that place, as the seed does.
-/

namespace StyleSieve

/-- Lines and columns that a location can have. -/
def Css.Place.InRange (p : Css.Place) : Prop :=
  p.line ≤ Location.limit ∧ p.column ≤ Location.limit

instance (p : Css.Place) : Decidable p.InRange := inferInstanceAs (Decidable (_ ∧ _))

namespace Location

/-- Line and column, ordered as places in a file. -/
def position (l : Location) : ℕ ×ₗ ℕ := toLex (l.line, l.column)

variable {a b : Location}

theorem order_eq_lt : a.order b = .lt ↔ a.position < b.position := by
  rw [order, Ordering.then_eq_lt, Nat.compare_eq_lt, Nat.compare_eq_lt, Nat.compare_eq_eq]
  exact (Prod.Lex.toLex_lt_toLex (x := (a.line, a.column)) (y := (b.line, b.column))).symm

theorem order_eq_gt : a.order b = .gt ↔ b.position < a.position := by
  rw [order, Ordering.then_eq_gt, Nat.compare_eq_gt, Nat.compare_eq_gt, Nat.compare_eq_eq,
    eq_comm (a := a.line)]
  exact (Prod.Lex.toLex_lt_toLex (x := (b.line, b.column)) (y := (a.line, a.column))).symm

theorem order_ne_gt : a.order b ≠ .gt ↔ a.position ≤ b.position := by
  rw [Ne, order_eq_gt, not_lt]

theorem eq_of_position (hfile : a.file = b.file) (h : a.position = b.position) : a = b := by
  obtain ⟨file, line, column⟩ := a
  obtain ⟨file', line', column'⟩ := b
  obtain ⟨rfl, rfl⟩ := Prod.mk.inj (toLex_inj.1 h)
  obtain rfl : file = file' := hfile
  rfl

end Location

namespace Span

/-- `s` runs from the first start of some spans to their last stop. -/
structure Covers (s : Span) (spans : List Span) : Prop where
  start_mem : ∃ t ∈ spans, t.start = s.start
  start_le : ∀ t ∈ spans, s.start.order t.start ≠ .gt
  stop_mem : ∃ t ∈ spans, t.stop = s.stop
  stop_le : ∀ t ∈ spans, t.stop.order s.stop ≠ .gt

/-- Both ends of a span lie in a file. -/
def LiesIn (file : Nat) (s : Span) : Prop := s.start.file = file ∧ s.stop.file = file

variable {s s' : Span} {spans spans' : List Span} {file : Nat}

theorem Covers.perm (h : s.Covers spans) (hperm : spans.Perm spans') : s.Covers spans' := by
  have hmem (t : Span) : t ∈ spans' ↔ t ∈ spans := hperm.mem_iff.symm
  constructor <;> simp only [hmem]
  · exact h.start_mem
  · exact h.start_le
  · exact h.stop_mem
  · exact h.stop_le

/-- Spans of one file have one cover. -/
theorem Covers.unique (h : s.Covers spans) (h' : s'.Covers spans)
    (hfile : ∀ t ∈ spans, t.LiesIn file) : s.start = s'.start ∧ s.stop = s'.stop := by
  obtain ⟨t, ht, hstart⟩ := h.start_mem
  obtain ⟨t', ht', hstart'⟩ := h'.start_mem
  obtain ⟨u, hu, hstop⟩ := h.stop_mem
  obtain ⟨u', hu', hstop'⟩ := h'.stop_mem
  constructor
  · have hle := Location.order_ne_gt.1 (h.start_le t' ht')
    have hge := Location.order_ne_gt.1 (h'.start_le t ht)
    rw [hstart'] at hle
    rw [hstart] at hge
    refine Location.eq_of_position ?_ (le_antisymm hle hge)
    rw [← hstart, ← hstart', (hfile t ht).1, (hfile t' ht').1]
  · have hge := Location.order_ne_gt.1 (h.stop_le u' hu')
    have hle := Location.order_ne_gt.1 (h'.stop_le u hu)
    rw [hstop'] at hge
    rw [hstop] at hle
    refine Location.eq_of_position ?_ (le_antisymm hle hge)
    rw [← hstop, ← hstop', (hfile u hu).2, (hfile u' hu').2]

theorem isOrdered_iff : s.isOrdered = true ↔ s.start.position ≤ s.stop.position := by
  rw [isOrdered, bne_iff_ne, Location.order_ne_gt]

/-- A cover of ordered spans is ordered. -/
theorem Covers.isOrdered (h : s.Covers spans) (hspans : ∀ t ∈ spans, t.isOrdered = true) :
    s.isOrdered = true := by
  obtain ⟨t, ht, -⟩ := h.start_mem
  have hstart := Location.order_ne_gt.1 (h.start_le t ht)
  have hstop := Location.order_ne_gt.1 (h.stop_le t ht)
  exact isOrdered_iff.2 (hstart.trans ((isOrdered_iff.1 (hspans t ht)).trans hstop))

/-! ### The two folds -/

/-- The fold finds the first of the spans that start first. -/
theorem argmin_eq_foldl (seed : Span) (spans : List Span) :
    (seed :: spans).argmin (·.start.position) = some (spans.foldl earlierStart seed) := by
  induction spans using List.reverseRecOn with
  | nil => rfl
  | append_singleton spans s ih =>
      rw [← List.cons_append, List.argmin_concat, ih, List.foldl_concat, earlierStart]
      simp only [Location.order_eq_lt, apply_ite some]

/-- The fold finds the first of the spans that stop last. -/
theorem argmax_eq_foldl (seed : Span) (spans : List Span) :
    (seed :: spans).argmax (·.stop.position) = some (spans.foldl laterStop seed) := by
  induction spans using List.reverseRecOn with
  | nil => rfl
  | append_singleton spans s ih =>
      rw [← List.cons_append, List.argmax_concat, ih, List.foldl_concat, laterStop]
      simp only [Location.order_eq_gt, apply_ite some]

/-- What comes out of a fold ends where one of the spans does, also if it is the seed: the seed
comes out only where they all end with it. -/
theorem exists_end (stands : Span → Location) {seed r : Span} (hr : r ∈ seed :: spans)
    (hne : spans ≠ []) (hfile : ∀ t ∈ spans, (stands t).file = (stands seed).file)
    (hseed : r = seed → ∀ t ∈ spans, (stands t).position = (stands seed).position) :
    ∃ t ∈ spans, stands t = stands r := by
  rcases List.mem_cons.1 hr with rfl | hr
  · obtain ⟨t, ht⟩ := List.exists_mem_of_ne_nil spans hne
    exact ⟨t, ht, Location.eq_of_position (hfile t ht) (hseed rfl t ht)⟩
  · exact ⟨r, hr, rfl⟩

theorem position_le_pastEnd {l : Location} (hline : l.line ≤ Location.limit)
    (hcolumn : l.column ≤ Location.limit) : l.position ≤ (pastEnd file).start.position := by
  refine Prod.Lex.toLex_le_toLex.2 ?_
  rcases Nat.lt_or_eq_of_le hline with hlt | heq
  · exact .inl hlt
  · exact .inr ⟨heq, hcolumn⟩

theorem beforeStart_le_position (l : Location) : (beforeStart file).stop.position ≤ l.position := by
  refine Prod.Lex.toLex_le_toLex.2 ?_
  rcases Nat.eq_zero_or_pos l.line with heq | hlt
  · exact .inr ⟨heq.symm, Nat.zero_le _⟩
  · exact .inl hlt

/-- The two folds of a block find the ends of the cover. -/
theorem covers_folds (hne : spans ≠ []) (hfile : ∀ t ∈ spans, t.LiesIn file)
    (hrange : ∀ t ∈ spans, t.start.line ≤ Location.limit ∧ t.start.column ≤ Location.limit) :
    (between (spans.foldl earlierStart (pastEnd file)).start
      (spans.foldl laterStop (beforeStart file)).stop).Covers spans := by
  have hfirst := argmin_eq_foldl (pastEnd file) spans
  have hlast := argmax_eq_foldl (beforeStart file) spans
  have hmem : spans.foldl earlierStart (pastEnd file) ∈ pastEnd file :: spans :=
    List.argmin_mem hfirst
  have hmem' : spans.foldl laterStop (beforeStart file) ∈ beforeStart file :: spans :=
    List.argmax_mem hlast
  have hmin := fun t ht => List.le_of_mem_argmin (a := t) ht hfirst
  have hmax := fun t ht => List.le_of_mem_argmax (a := t) ht hlast
  have hstart : ∃ t ∈ spans, t.start = (spans.foldl earlierStart (pastEnd file)).start := by
    refine exists_end Span.start hmem hne (fun t ht => (hfile t ht).1) fun h t ht => ?_
    have hle := hmin t (List.mem_cons_of_mem _ ht)
    rw [h] at hle
    exact le_antisymm (position_le_pastEnd (hrange t ht).1 (hrange t ht).2) hle
  have hstop : ∃ t ∈ spans, t.stop = (spans.foldl laterStop (beforeStart file)).stop := by
    refine exists_end Span.stop hmem' hne (fun t ht => (hfile t ht).2) fun h t ht => ?_
    have hge := hmax t (List.mem_cons_of_mem _ ht)
    rw [h] at hge
    exact le_antisymm hge (beforeStart_le_position t.stop)
  exact ⟨hstart, fun t ht => Location.order_ne_gt.2 (hmin t (List.mem_cons_of_mem _ ht)), hstop,
    fun t ht => Location.order_ne_gt.2 (hmax t (List.mem_cons_of_mem _ ht))⟩

end Span

namespace Stylesheet

open Css (Declaration Place)

variable (file : Nat) {declarations others : List Declaration}

theorem liesIn_spanOf : ∀ t ∈ declarations.map (spanOf file), t.LiesIn file := by
  intro t ht
  obtain ⟨d, -, rfl⟩ := List.mem_map.1 ht
  exact ⟨rfl, rfl⟩

/-- The span of a block covers its declarations. -/
theorem covers_ofDeclarations (hne : declarations ≠ []) (start stop : Place)
    (source : Option Text) (h : ∀ d ∈ declarations, d.start.InRange) :
    (Block.ofDeclarations file declarations start stop source).span.Covers
      (declarations.map (spanOf file)) := by
  have hspans : declarations.map (spanOf file) ≠ [] := by simpa using hne
  have hspan : (Block.ofDeclarations file declarations start stop source).span =
      .between ((declarations.map (spanOf file)).foldl Span.earlierStart (.pastEnd file)).start
        ((declarations.map (spanOf file)).foldl Span.laterStop (.beforeStart file)).stop := by
    simp [Block.span, Block.ofDeclarations, hne]
  rw [hspan]
  refine Span.covers_folds hspans (liesIn_spanOf file) fun t ht => ?_
  obtain ⟨d, hd, rfl⟩ := List.mem_map.1 ht
  exact h d hd

/-- The span of a block is a matter of its declarations, in whatever order they come. -/
theorem span_ofDeclarations_perm (hperm : others.Perm declarations) (hne : declarations ≠ [])
    (start stop start' stop' : Place) (source source' : Option Text)
    (h : ∀ d ∈ declarations, d.start.InRange) :
    (Block.ofDeclarations file others start' stop' source').span =
      (Block.ofDeclarations file declarations start stop source).span := by
  have hne' : others ≠ [] := fun e => hne (List.nil_perm.1 (e ▸ hperm))
  have hcover := covers_ofDeclarations file hne start stop source h
  have hcover' := covers_ofDeclarations file hne' start' stop' source' fun d hd =>
    h d (hperm.mem_iff.1 hd)
  obtain ⟨hstart, hstop⟩ := (hcover'.perm (hperm.map _)).unique hcover (liesIn_spanOf file)
  exact congrArg₂ Span.between hstart hstop

/-- The block of some declarations has their settings in source order.  Without declarations its
span is the one it is given.  With some, it starts where the first of them starts and stops where
the last of them stops, whatever their order and the span that is given; and it does not stop before
it starts, if none of them does. -/
theorem ofDeclarations_cover (file : Nat) (declarations : List Declaration) (start stop : Place)
    (source : Option Text) (h : ∀ d ∈ declarations, d.start.InRange) :
    let block := Block.ofDeclarations file declarations start stop source
    block.settings = declarations.map (fun d => ⟨d.property, d.value⟩) ∧
    (declarations = [] →
      block.first = .between (locationOf file start) (locationOf file stop) ∧
      block.last = .between (locationOf file start) (locationOf file stop)) ∧
    (declarations ≠ [] →
      block.span.Covers (declarations.map (spanOf file)) ∧
      (∀ others start' stop' source', others.Perm declarations →
        (Block.ofDeclarations file others start' stop' source').span = block.span) ∧
      ((∀ d ∈ declarations, (spanOf file d).isOrdered = true) → block.span.isOrdered = true)) := by
  refine ⟨rfl, ?_, fun hne => ⟨covers_ofDeclarations file hne start stop source h, ?_, ?_⟩⟩
  · rintro rfl
    exact ⟨rfl, rfl⟩
  · intro others start' stop' source' hperm
    exact span_ofDeclarations_perm file hperm hne start stop start' stop' source source' h
  · intro hordered
    have hcover := covers_ofDeclarations file hne start stop source h
    exact hcover.isOrdered (List.forall_mem_map.2 hordered)

/-- Two declarations that start at the last place there is. -/
def lastDeclarations : List Declaration :=
  [⟨"top".toList, "0".toList, ⟨Location.limit, Location.limit⟩, ⟨1, 0⟩⟩,
    ⟨"left".toList, "0".toList, ⟨Location.limit, Location.limit⟩, ⟨2, 7⟩⟩]

/-- Where no declaration starts before the seed of the fold, the block still starts where they
do. -/
theorem ofDeclarations_cover_last :
    (∀ d ∈ lastDeclarations, d.start.InRange) ∧ lastDeclarations ≠ [] ∧
      (Block.ofDeclarations 3 lastDeclarations ⟨1, 1⟩ ⟨1, 1⟩ none).span.Covers
        (lastDeclarations.map (spanOf 3)) ∧
      (Block.ofDeclarations 3 lastDeclarations ⟨1, 1⟩ ⟨1, 1⟩ none).span =
        ⟨3, ⟨3, Location.limit, Location.limit⟩, ⟨3, 2, 7⟩⟩ := by
  have hrange : ∀ d ∈ lastDeclarations, d.start.InRange := by decide
  have hne : lastDeclarations ≠ [] := by decide
  obtain ⟨-, -, hcover⟩ := ofDeclarations_cover 3 lastDeclarations ⟨1, 1⟩ ⟨1, 1⟩ none hrange
  exact ⟨hrange, hne, (hcover hne).1, by decide⟩

end Stylesheet

end StyleSieve
