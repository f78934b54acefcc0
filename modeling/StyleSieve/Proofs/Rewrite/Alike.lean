import StyleSieve.Proofs.Rewrite.Text

/-!
# Two rewriters in lockstep

What a rewriter drops and holds back depends on the page and on `maxLookback`, not on the CSS that
it writes.  So two rewriters with the same `maxLookback` stand at the same place at any byte, and
write the same as long as they close each region with the same CSS.

* `Progress.step_alike`: a byte.
* `complete_alike`: a page in text.  Where a region closes, the keys seen are those of a text that
  ends with a style tag.
-/

namespace StyleSieve.Rewrite

open Markup (EndsWithTag Items Scanner StartTag)
open Utf8 (IsText)

namespace Progress

variable {supply : Supply} {o o' : Options} {p q : Progress}

/-! ### A byte -/

/-- Two rewriters at the same place, that have seen the same keys. -/
structure Alike (p q : Progress) : Prop where
  mode : q.mode = p.mode
  usage : q.usage = p.usage

theorem leave_congr (ho : o'.maxLookback = o.maxLookback) (depth : Nat) :
    leave o' depth = leave o depth := by
  simp only [leave, afterRegion, ho]

theorem regionByte_alike (h : p.Alike q) (ho : o'.maxLookback = o.maxLookback) (depth : Nat)
    (k : Markup.Matcher) (b : UInt8) :
    (p.regionByte o depth k b).Alike (q.regionByte o' depth k b) := by
  unfold regionByte
  split
  case h_1 => exact ⟨rfl, h.usage⟩
  case h_2 => exact ⟨by simp only [leave_congr ho], h.usage⟩
  case h_3 => exact ⟨rfl, h.usage⟩

theorem regionTagByte_alike (h : p.Alike q) (ho : o'.maxLookback = o.maxLookback) (depth : Nat)
    (side : Markup.Side) (quote : Option UInt8) (b : UInt8) :
    (p.regionTagByte o depth side quote b).Alike (q.regionTagByte o' depth side quote b) := by
  unfold regionTagByte
  split
  case h_1 => exact ⟨rfl, h.usage⟩
  case h_2 => exact ⟨rfl, h.usage⟩
  case h_3 => exact ⟨leave_congr ho depth, h.usage⟩

theorem release_alike (h : p.Alike q) (hcss : p.regionCss supply o = q.regionCss supply o')
    (held : Bytes) :
    (p.release supply o held).1.Alike (q.release supply o' held).1 ∧
      (q.release supply o' held).2 = (p.release supply o held).2 := by
  refine ⟨⟨rfl, ?_⟩, ?_⟩
  · show note q.usage _ = note p.usage _
    rw [h.usage]
  · show (q.closeRegion supply o').2 ++ held = (p.closeRegion supply o).2 ++ held
    rw [closeRegion_snd, closeRegion_snd, hcss]

theorem gapByte_alike (h : p.Alike q) (ho : o'.maxLookback = o.maxLookback)
    (hcss : p.regionCss supply o = q.regionCss supply o') (latest : Bytes) (room : Nat)
    (k : Markup.Matcher) (b : UInt8) :
    (p.gapByte supply o latest room k b).1.Alike (q.gapByte supply o' latest room k b).1 ∧
      (q.gapByte supply o' latest room k b).2 = (p.gapByte supply o latest room k b).2 := by
  have hafter : afterRegion o' = afterRegion o := by simp only [afterRegion, ho]
  unfold gapByte
  split
  case isTrue =>
    cases room with
    | zero => exact release_alike h hcss _
    | succ room => exact ⟨⟨rfl, h.usage⟩, rfl⟩
  case isFalse =>
    split
    case h_1 => exact ⟨⟨rfl, h.usage⟩, rfl⟩
    case h_2 => exact ⟨⟨by simp only [hafter], h.usage⟩, rfl⟩
    case h_3 => exact ⟨⟨rfl, h.usage⟩, rfl⟩
    case h_4 => exact release_alike h hcss _

/-- Two rewriters with the same `maxLookback` go to the same place, and write the same unless they
would write different CSS. -/
theorem step_alike (h : p.Alike q) (ho : o'.maxLookback = o.maxLookback)
    (hcss : (∀ s, p.mode ≠ .markup s) → p.regionCss supply o = q.regionCss supply o') (b : UInt8) :
    (p.step supply o b).1.Alike (q.step supply o' b).1 ∧
      (q.step supply o' b).2 = (p.step supply o b).2 := by
  unfold step
  rw [h.mode]
  cases hp : p.mode with
  | markup s =>
      refine ⟨⟨rfl, ?_⟩, rfl⟩
      show note q.usage _ = note p.usage _
      rw [h.usage]
  | region depth k => exact ⟨regionByte_alike h ho depth k b, rfl⟩
  | regionTag depth side quote => exact ⟨regionTagByte_alike h ho depth side quote b, rfl⟩
  | gap latest room k =>
      exact gapByte_alike h ho (hcss fun s hs => by rw [hp] at hs; cases hs) latest room k b
  | gapTag quote =>
      simp only
      split
      · exact ⟨⟨rfl, h.usage⟩, rfl⟩
      · exact ⟨⟨by simp only [afterRegion, ho], h.usage⟩, rfl⟩

theorem atEnd_alike (h : p.Alike q)
    (hcss : (∀ s, p.mode ≠ .markup s) → p.regionCss supply o = q.regionCss supply o') :
    (q.atEnd supply o').2 = (p.atEnd supply o).2 := by
  unfold atEnd
  rw [h.mode]
  cases hp : p.mode with
  | markup s => rfl
  | gap | region | regionTag | gapTag =>
      rw [hp] at hcss
      simp only [closeRegion_snd, hcss fun s hs => nomatch hs]

/-! ### The keys of a region -/

theorem noteAll_append (usage : Usage) {a : Bytes} (ha : (Scanner.text.run a).1 = .text)
    (b : Bytes) : noteAll usage (a ++ b) = noteAll (noteAll usage a) b := by
  simp only [noteAll, note, Scanner.run_append, ha, List.filterMap_append, Usage.insertAll,
    List.foldl_append]

variable {xs : List Passage} {m d h read written : Bytes}

/-- Behind some passages the keys seen are those of their markup. -/
theorem behind_usage (hxs : ∀ x ∈ xs, Scanner.text.Opens x.markup) :
    (xs.foldl (behind supply o) p).usage = noteAll p.usage (xs.map Passage.markup).flatten := by
  induction xs generalizing p with
  | nil => rfl
  | cons x xs ih =>
      obtain ⟨hx, hxs⟩ := List.forall_mem_cons.1 hxs
      rw [List.map_cons, List.flatten_cons, noteAll_append _ hx.text]
      exact ih hxs

/-- In a region, or behind one, the keys seen are those of all markup so far, which ends with a
style tag.  In a page that is text it is a text. -/
theorem Reads.region_usage (hx : Reads supply o p xs m d h read written)
    (hp : ∀ s, p.mode ≠ .markup s) {rest : Bytes} (htext : IsText (read ++ rest)) :
    ∃ t : Text, EndsWithTag .style (Utf8.encode t) ∧
      p.usage = noteAll .empty (Utf8.encode t) := by
  obtain ⟨hm, -, -⟩ := hx.cut hp
  have hopens : ∀ x ∈ xs, Scanner.text.Opens x.markup := fun x hxs => (hx.whole x hxs).opens
  have husage : (xs.foldl (behind supply o) {}).usage =
      noteAll .empty (xs.map Passage.markup).flatten := behind_usage hopens
  have hrun := Scanner.run_stretches (List.forall_mem_map.2 hopens)
  have hends := Markup.endsWithTag_of_opens hm
  -- each stretch of markup ends with a `>`, so the text falls into texts
  have hpage : IsText (xs.flatMap Passage.source ++ (m ++ (d ++ h ++ rest))) := by
    simpa [hx.read] using htext
  obtain ⟨hms, hlast⟩ := isText_of_passages
    (fun x hxs => (Markup.endsWithTag_of_opens (hopens x hxs)).endsInGreater)
    (fun x hxs => (hx.whole x ((List.dropLast_sublist xs).subset hxs)).region.endsInGreater)
    (fun x hxs => .inl (hx.whole x (List.mem_of_getLast? hxs)).region.endsInGreater) hpage
  obtain ⟨t, ht⟩ : IsText ((xs.map Passage.markup).flatten ++ m) :=
    (IsText.flatten (List.forall_mem_map.2 hms)).append
      (isText_of_append hends.endsInGreater hlast).1
  obtain ⟨ts, hitems⟩ := Markup.items_of_run hrun
  refine ⟨t, ht ▸ hends.append hitems, ?_⟩
  rw [← ht, noteAll_append _ hrun, hx.memory.usage, husage]

/-! ### A page in text -/

variable (supply o o') in
/-- Where a region of a page in text may close, both options give the same CSS. -/
def SameCss : Prop :=
  ∀ (p q : Progress) (t : Text), p.Alike q → EndsWithTag .style (Utf8.encode t) →
    p.usage = noteAll .empty (Utf8.encode t) → p.regionCss supply o = q.regionCss supply o'

theorem run_alike (ho : o'.maxLookback = o.maxLookback) (hcss : SameCss supply o o')
    (hx : Reads supply o p xs m d h read written) (hpq : p.Alike q) (bytes : Bytes)
    (htext : IsText (read ++ bytes)) :
    (q.run supply o' bytes).2 ++ ((q.run supply o' bytes).1.atEnd supply o').2 =
      (p.run supply o bytes).2 ++ ((p.run supply o bytes).1.atEnd supply o).2 := by
  have here (hp : ∀ s, p.mode ≠ .markup s) : p.regionCss supply o = q.regionCss supply o' := by
    obtain ⟨t, ht, husage⟩ := hx.region_usage hp htext
    exact hcss p q t hpq ht husage
  induction bytes generalizing p q xs m d h read written with
  | nil => exact congrArg _ (atEnd_alike hpq here)
  | cons b bytes ih =>
      obtain ⟨hnext, hout⟩ := step_alike hpq ho here b
      obtain ⟨xs', m', d', h', hx'⟩ := step_reads hx b
      have htext' : IsText (read ++ [b] ++ bytes) := by simpa using htext
      have hrest := ih hx' hnext htext' fun hp => by
        obtain ⟨t, ht, husage⟩ := hx'.region_usage hp htext'
        exact hcss _ _ t hnext ht husage
      simp only [run, hout, List.append_assoc, hrest]

end Progress

open Progress in
/-- Options that agree on `maxLookback`, and on the CSS of any region, rewrite a text the same. -/
theorem complete_alike {supply : Supply} {o o' : Options} (ho : o'.maxLookback = o.maxLookback)
    (hcss : SameCss supply o o') (html : Text) :
    (Rewriter.complete { supply, options := o' } [Utf8.encode html]).2 =
      (Rewriter.complete { supply, options := o } [Utf8.encode html]).2 := by
  have h := run_alike ho hcss (reads_start supply o) ⟨rfl, rfl⟩ (Utf8.encode html)
    (Utf8.isText_encode html)
  simpa only [(Rewriter.complete_atEnd supply _ _).1, List.flatten_singleton] using h

end StyleSieve.Rewrite
