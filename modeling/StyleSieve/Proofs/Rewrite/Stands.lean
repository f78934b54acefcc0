import StyleSieve.Proofs.Markup.Scanner
import StyleSieve.Proofs.Rewrite.Region

/-!
# Where a rewriter stands

At any byte, what has been read since the last region was closed is three stretches: markup, which
has gone out, dropped bytes, and bytes held back.  `Stands` says what each of them is in each mode.
A byte keeps this in one of three ways: it goes out as markup, it is dropped or held, or it closes
the region and goes out behind the held bytes.

* `Progress.markupByte_stands`: a byte in markup.
* `Progress.regionByte_stands`, `Progress.gapByte_stands`: a byte in a region, and after one.
-/

namespace StyleSieve.Rewrite

open Markup (Boundary Mark Matcher Quiet Scanner Side styleName)

/-- What has been read since the last region was closed, by mode. -/
inductive Stands (limit : Nat) : Mode → (markup dropped held : Bytes) → Prop where
  | markup {s : Scanner} {m : Bytes} :
      (Scanner.text.run m).1 = s → Scanner.text.Silent m → Stands limit (.markup s) m [] []
  | region {depth : Nat} {k : Matcher} {m r c : Bytes} :
      Scanner.text.Opens m → Region limit (depth + 1) r →
        (Matcher.idle.run styleName c).1 = k → Quiet styleName c →
          Stands limit (.region (depth + 1) k) m (r ++ c) []
  | regionTag {depth depth' : Nat} {side : Side} {quote : Option UInt8} {m r c t : Bytes} :
      Scanner.text.Opens m → Region limit depth r → Lead limit depth c → OpenTag side quote t →
        (side = .opening ∧ depth' = depth + 1 ∨ side = .closing ∧ depth' = depth) →
          Stands limit (.regionTag depth' side quote) m (r ++ c ++ t) []
  | gap {latest : Bytes} {room : Nat} {k : Matcher} {m r w t : Bytes} :
      Scanner.text.Opens m → Region limit 0 r → latest.reverse = w ++ t →
        (∀ b ∈ w, Mark.of b = .space) → w.length + room = limit → k.Holds styleName t →
          Stands limit (.gap latest room k) m r latest.reverse
  | gapTag {quote : Option UInt8} {m r w t : Bytes} :
      Scanner.text.Opens m → Region limit 0 r → Lead limit 0 w → OpenTag .closing quote t →
        Stands limit (.gapTag quote) m (r ++ w ++ t) []

/-- What a rewriter remembers of the page beside its mode is the same before and after. -/
structure Progress.SameMemory (p q : Progress) : Prop where
  usage : q.usage = p.usage
  emitted : q.emitted = p.emitted
  globalsSent : q.globalsSent = p.globalsSent
  regions : q.counts.regions = p.counts.regions

namespace Stands

variable {options : Options} {depth : Nat} {m r : Bytes}

/-- Right behind a style tag that leaves elements open. -/
theorem enter (hm : Scanner.text.Opens m) (hr : Region options.maxLookback (depth + 1) r) :
    Stands options.maxLookback (.region (depth + 1) .idle) m r [] := by
  have h := Stands.region hm hr (c := []) rfl (Markup.lacks_nil _)
  rwa [List.append_nil] at h

/-- Right behind a style tag that leaves no element open. -/
theorem afterRegion (hm : Scanner.text.Opens m) (hr : Region options.maxLookback 0 r) :
    Stands options.maxLookback (Progress.afterRegion options) m r [] :=
  .gap (w := []) (t := []) hm hr rfl (fun _ h => nomatch h) (Nat.zero_add _) .idle

/-- Right behind an end tag in a region. -/
theorem leave (hm : Scanner.text.Opens m)
    (hr : Region options.maxLookback (depthAfter .closing depth) r) :
    Stands options.maxLookback (Progress.leave options depth) m r [] := by
  simp only [Progress.leave, depthAfter] at hr ⊢
  split
  case isTrue e =>
    rw [Nat.sub_eq_zero_of_le e] at hr
    exact afterRegion hm hr
  case isFalse e =>
    obtain ⟨n, hn⟩ : ∃ n, depth - 1 = n + 1 := ⟨depth - 2, by omega⟩
    rw [hn] at hr ⊢
    exact enter hm hr

variable {c t : Bytes} {b : UInt8}

/-- Behind the name of a start tag, in a region or after one. -/
theorem opening (hm : Scanner.text.Opens m) (hr : Region options.maxLookback depth r)
    (hc : Lead options.maxLookback depth c) (ht : Boundary styleName .opening (t ++ [b])) :
    Stands options.maxLookback
      (if Mark.of b = .greater then .region (depth + 1) .idle
        else .regionTag (depth + 1) .opening none) m (r ++ c ++ (t ++ [b])) [] := by
  have htag := tag_of_boundary ht
  split at htag
  case isTrue hg =>
    rw [if_pos hg]
    exact .enter hm (.tag hr hc htag)
  case isFalse hg =>
    rw [if_neg hg]
    exact .regionTag hm hr hc htag (.inl ⟨rfl, rfl⟩)

/-- Behind the name of an end tag in a region. -/
theorem closing (hm : Scanner.text.Opens m) (hr : Region options.maxLookback depth r)
    (hc : Lead options.maxLookback depth c) (ht : Boundary styleName .closing (t ++ [b])) :
    Stands options.maxLookback
      (if Mark.of b = .greater then Progress.leave options depth
        else .regionTag depth .closing none) m (r ++ c ++ (t ++ [b])) [] := by
  have htag := tag_of_boundary ht
  split at htag
  case isTrue hg =>
    rw [if_pos hg]
    exact .leave hm (.tag hr hc htag)
  case isFalse hg =>
    rw [if_neg hg]
    exact .regionTag hm hr hc htag (.inr ⟨rfl, rfl⟩)

/-- Behind the name of a stray end tag after a region. -/
theorem stray (hm : Scanner.text.Opens m) (hr : Region options.maxLookback 0 r)
    (hc : Lead options.maxLookback 0 c) (ht : Boundary styleName .closing (t ++ [b])) :
    Stands options.maxLookback
      (if Mark.of b = .greater then Progress.afterRegion options else .gapTag none) m
      (r ++ c ++ (t ++ [b])) [] := by
  have htag := tag_of_boundary ht
  split at htag
  case isTrue hg =>
    rw [if_pos hg]
    exact .afterRegion hm (.tag hr hc htag)
  case isFalse hg =>
    rw [if_neg hg]
    exact .gapTag hm hr hc htag

/-- A space after a region is held where there is room for it. -/
theorem hold {latest w : Bytes} {room : Nat} (hm : Scanner.text.Opens m)
    (hr : Region options.maxLookback 0 r) (hh : latest.reverse = w)
    (hw : ∀ c ∈ w, Mark.of c = .space) (hroom : w.length + (room + 1) = options.maxLookback)
    (hb : Mark.of b = .space) :
    Stands options.maxLookback (.gap (b :: latest) room .idle) m r (latest.reverse ++ [b]) := by
  rw [← List.reverse_cons]
  refine .gap (w := w ++ [b]) (t := []) hm hr ?_ ?_ ?_ .idle
  · rw [List.reverse_cons, hh, List.append_nil]
  · simpa [or_imp, forall_and] using ⟨hw, hb⟩
  · simp only [List.length_append, List.length_singleton]
    omega

end Stands

namespace Progress

variable {supply : Supply} {options : Options} {p : Progress} {m d h : Bytes}

theorem SameMemory.refl (p : Progress) : p.SameMemory p := ⟨rfl, rfl, rfl, rfl⟩

/-! ### A byte in markup -/

theorem markupByte_stands {s : Scanner} (b : UInt8)
    (hs : Stands options.maxLookback (.markup s) m [] []) :
    Stands options.maxLookback (p.markupByte s b).1.mode (m ++ [b]) [] [] := by
  cases hs with
  | markup hrun hq =>
      subst hrun
      simp only [markupByte]
      split
      case isTrue e => exact .enter ⟨m, b, rfl, hq, e⟩ .start
      case isFalse e =>
        exact .markup (by rw [Scanner.run_snoc])
          (Scanner.silent_snoc.2 ⟨hq, Bool.not_eq_true _ ▸ e⟩)

/-! ### A byte in a region -/

theorem regionByte_stands {depth : Nat} {k : Matcher} (b : UInt8)
    (hs : Stands options.maxLookback (.region depth k) m d []) :
    Stands options.maxLookback (p.regionByte options depth k b).mode m (d ++ [b]) [] ∧
      p.SameMemory (p.regionByte options depth k b) := by
  cases hs with
  | @region depth _ _ r c hm hr hk hc =>
      subst hk
      -- a boundary that ends here stands behind content that holds none
      have found {side : Side}
          (h : (Matcher.step styleName (Matcher.idle.run styleName c).1 b).2 = .found side) :
          ∃ a t, r ++ c ++ [b] = r ++ a ++ (t ++ [b]) ∧ Quiet styleName a ∧
            Boundary styleName side (t ++ [b]) := by
        obtain ⟨-, t, ⟨a, rfl⟩, ht⟩ := Matcher.boundary_of_find h
        exact ⟨a, t, by simp, fun side => (hc side).part (List.prefix_append ..).isInfix, ht⟩
      simp only [regionByte]
      split
      case h_1 e =>
        obtain ⟨a, t, heq, ha, ht⟩ := found (congrArg Prod.snd e)
        rw [heq]
        exact ⟨.opening hm hr ha ht, ⟨rfl, rfl, rfl, rfl⟩⟩
      case h_2 e =>
        obtain ⟨a, t, heq, ha, ht⟩ := found (congrArg Prod.snd e)
        rw [heq]
        exact ⟨.closing hm hr ha ht, ⟨rfl, rfl, rfl, rfl⟩⟩
      case h_3 next signal hopen hclose e =>
        refine ⟨?_, ⟨rfl, rfl, rfl, rfl⟩⟩
        rw [List.append_assoc]
        refine .region hm hr (by rw [Matcher.run_snoc, e]) fun side =>
          Matcher.lacks_snoc Markup.styleName_isWord (hc side) fun hside => ?_
        rw [e] at hside
        subst hside
        cases side with
        | opening => exact hopen rfl
        | closing => exact hclose rfl

theorem regionTagByte_stands {depth : Nat} {side : Side} {quote : Option UInt8} (b : UInt8)
    (hs : Stands options.maxLookback (.regionTag depth side quote) m d []) :
    Stands options.maxLookback (p.regionTagByte options depth side quote b).mode m (d ++ [b]) [] ∧
      p.SameMemory (p.regionTagByte options depth side quote b) := by
  cases hs with
  | @regionTag depth₀ _ _ _ _ r c t hm hr hc ht hd =>
      obtain ⟨hin, hend⟩ := ht.tagByte b
      rw [List.append_assoc]
      simp only [regionTagByte]
      split
      case h_1 quote' e =>
        exact ⟨.regionTag hm hr hc (hin quote' e) hd, ⟨rfl, rfl, rfl, rfl⟩⟩
      case h_2 e =>
        refine ⟨?_, ⟨rfl, rfl, rfl, rfl⟩⟩
        rcases hd with ⟨-, rfl⟩ | ⟨h, -⟩
        · exact .enter hm (.tag hr hc (hend e))
        · cases h
      case h_3 e =>
        refine ⟨?_, ⟨rfl, rfl, rfl, rfl⟩⟩
        rcases hd with ⟨h, -⟩ | ⟨-, rfl⟩
        · cases h
        · exact .leave hm (.tag hr hc (hend e))

/-! ### A byte after a region -/

theorem gapTagByte_stands (supply : Supply) {quote : Option UInt8} (b : UInt8)
    (hp : p.mode = .gapTag quote) (hs : Stands options.maxLookback (.gapTag quote) m d []) :
    Stands options.maxLookback (p.step supply options b).1.mode m (d ++ [b]) [] ∧
      p.SameMemory (p.step supply options b).1 ∧ (p.step supply options b).2 = [] := by
  cases hs with
  | @gapTag _ _ r w t hm hr hw ht =>
      obtain ⟨hin, hend⟩ := ht.tagByte b
      rw [List.append_assoc]
      simp only [step, hp]
      split
      case h_1 quote' e => exact ⟨.gapTag hm hr hw (hin quote' e), ⟨rfl, rfl, rfl, rfl⟩, rfl⟩
      case h_2 e => exact ⟨.afterRegion hm (.tag hr hw (hend e)), ⟨rfl, rfl, rfl, rfl⟩, rfl⟩

/-- A byte after a region is dropped or held, or it closes the region and goes out behind what was
held, none of which opens a region. -/
theorem gapByte_stands (supply : Supply) (p : Progress) {latest : Bytes} {room : Nat} {k : Matcher}
    (b : UInt8) (hs : Stands options.maxLookback (.gap latest room k) m d h) :
    (∃ d' h', Stands options.maxLookback (p.gapByte supply options latest room k b).1.mode m d' h' ∧
      d' ++ h' = d ++ h ++ [b] ∧ p.SameMemory (p.gapByte supply options latest room k b).1 ∧
      (p.gapByte supply options latest room k b).2 = []) ∨
    (p.gapByte supply options latest room k b = p.release supply options (h ++ [b]) ∧
      Region options.maxLookback 0 d ∧ Scanner.text.Opens m ∧ Scanner.text.Silent (h ++ [b])) := by
  cases hs with
  | @gap _ _ _ _ _ w t hm hr hh hw hroom hk =>
      obtain ⟨-, hsilent⟩ := Scanner.silent_of_holds hw hk
      have hlead : Lead options.maxLookback 0 w := ⟨hw, by omega⟩
      simp only [gapByte]
      split
      case isTrue e =>
        -- a space: it is held, or it is one too many
        obtain ⟨rfl, hb⟩ : k = .idle ∧ Mark.of b = .space := by simpa using e
        cases hk
        rw [List.append_nil] at hh
        cases room with
        | zero =>
            have hws : ∀ c ∈ w ++ [b], Mark.of c = .space := by
              simpa [or_imp, forall_and] using ⟨hw, hb⟩
            exact .inr ⟨by rw [List.reverse_cons], hr, hm, hh ▸ (Scanner.run_spaces hws).2⟩
        | succ room =>
            exact .inl ⟨d, latest.reverse ++ [b], .hold hm hr hh hw hroom hb,
              (List.append_assoc ..).symm, ⟨rfl, rfl, rfl, rfl⟩, rfl⟩
      case isFalse =>
        rcases Matcher.step_spec hk b with ⟨e, hg⟩ | ⟨side, e, ht⟩ | ⟨e, -⟩
        · -- one more byte of what may become a style tag
          split
          case h_1 e' => simp [e'] at e
          case h_2 e' => simp [e'] at e
          case h_3 next e' =>
            rw [e'] at hg
            refine .inl ⟨d, latest.reverse ++ [b], ?_, (List.append_assoc ..).symm,
              ⟨rfl, rfl, rfl, rfl⟩, rfl⟩
            rw [← List.reverse_cons]
            exact .gap hm hr (by rw [List.reverse_cons, hh, List.append_assoc]) hw hroom hg
          case h_4 h₃ => exact (h₃ _ (Prod.ext rfl e)).elim
        · -- the name of a style tag ends, and with it what was held is dropped
          have hdropped : d ++ w ++ (t ++ [b]) ++ [] = d ++ latest.reverse ++ [b] := by
            rw [hh]
            simp only [List.append_assoc, List.append_nil]
          rw [e]
          cases side with
          | opening =>
              exact .inl ⟨_, [], .opening hm hr hlead ht, hdropped, ⟨rfl, rfl, rfl, rfl⟩, rfl⟩
          | closing =>
              exact .inl ⟨_, [], .stray hm hr hlead ht, hdropped, ⟨rfl, rfl, rfl, rfl⟩, rfl⟩
        · -- no style tag can follow
          have hnot : ∀ side, (k.step styleName b).2 ≠ .found side := by
            rcases e with e | e
            all_goals simp [e]
          have hgrow : (k.step styleName b).2 ≠ .growing := by
            rcases e with e | e
            all_goals simp [e]
          split
          case h_1 e' => exact absurd (congrArg Prod.snd e') (hnot _)
          case h_2 e' => exact absurd (congrArg Prod.snd e') (hnot _)
          case h_3 e' => exact absurd (congrArg Prod.snd e') hgrow
          case h_4 => exact .inr ⟨by rw [List.reverse_cons], hr, hm, hh ▸ hsilent b hnot⟩

end Progress

end StyleSieve.Rewrite
