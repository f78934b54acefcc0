import StyleSieve.Proofs.Rewrite.Content

/-!
# What is kept of a page is bounded

Between two bytes a rewriter keeps little of the page.  Its scanner has a name or a word that is
being read, and cuts it (`Scanner.buffer`).  Behind a region it holds back spaces, as many as it has
given up room for, and behind them the start of a style tag, as far as the matcher has come
(`Matcher.read`).  Anywhere else it holds nothing back.

* `Scanner.run_buffer`: the buffer of a scanner.
* `Progress.step_bounded`, `Progress.run_bounded`: a byte, and any bytes, keep the buffer and the
  depth within bounds (`Mode.IsBounded`).
* `Progress.step_counted`, `Progress.run_counted`: they keep the numbers at most as large as that
  of the bytes read (`Progress.IsCounted`).
* `Rewriter.pushAll_inSync`: where a page in pieces goes on.
-/

namespace StyleSieve

namespace Markup

namespace Scanner

/-- What is kept of the name or word that is being read. -/
def buffer : Scanner → Bytes
  | .tagName name | .attrName _ name => name
  | .quoted _ _ _ word | .unquoted _ _ word => word
  | _ => []

theorem length_pushByte_le {name : Bytes} (h : name.length ≤ maxName) (b : UInt8) :
    (pushByte name b).length ≤ maxName := by
  unfold pushByte
  split
  case isTrue hlt =>
    rw [List.length_append, List.length_singleton]
    exact hlt
  case isFalse => exact h

theorem length_valueByte_le {word : Bytes} (h : word.length ≤ maxName) (attr : AttrKind)
    (b : UInt8) : (valueByte attr word b).1.length ≤ maxName := by
  cases attr with
  | classes =>
      simp only [valueByte]
      split
      · exact Nat.zero_le _
      · exact length_pushByte_le h b
  | id => exact length_pushByte_le h b
  | other => exact h

theorem buffer_closeTag (tag : TagKind) (key : Option Text) : (closeTag tag key).1.buffer = [] := by
  cases tag <;> rfl

variable {s : Scanner}

/-- A byte never makes the buffer longer than it may be. -/
theorem step_buffer (h : s.buffer.length ≤ maxName) (b : UInt8) :
    (s.step b).1.buffer.length ≤ maxName := by
  have hone : [lowerByte b].length ≤ maxName := by
    rw [List.length_singleton]
    decide
  have hnone : ([] : Bytes).length ≤ maxName := Nat.zero_le _
  cases s with
  | text | endTag | bogus =>
      simp only [step]
      split <;> exact hnone
  | tagOpen =>
      simp only [step]
      split
      case h_5 => exact hone
      all_goals exact hnone
  | tagName name =>
      simp only [step]
      split
      case h_1 => simp only [buffer_closeTag, hnone]
      case h_4 => exact length_pushByte_le h _
      all_goals exact hnone
  | beforeAttr =>
      simp only [step]
      split
      case h_1 => simp only [buffer_closeTag, hnone]
      case h_2 | h_3 => exact hnone
      case h_4 => exact hone
  | afterAttr =>
      simp only [step]
      split
      case h_1 => simp only [buffer_closeTag, hnone]
      case h_5 => exact hone
      all_goals exact hnone
  | attrName tag name =>
      simp only [step]
      split
      case h_1 => simp only [buffer_closeTag, hnone]
      case h_5 => exact length_pushByte_le h _
      all_goals exact hnone
  | beforeValue tag attr =>
      simp only [step]
      split
      case h_2 => simp only [buffer_closeTag, hnone]
      case h_4 => exact length_valueByte_le hnone attr b
      all_goals exact hnone
  | quoted tag attr quote word =>
      simp only [step]
      split
      · exact hnone
      · exact length_valueByte_le h attr b
  | unquoted tag attr word =>
      simp only [step]
      split
      case h_1 => simp only [buffer_closeTag, hnone]
      case h_3 => exact length_valueByte_le h attr b
      all_goals exact hnone
  | declaration | declarationDash =>
      simp only [step]
      split <;> exact hnone
  | commentStart | comment =>
      simp only [step]
      split
      case h_2 => split <;> exact hnone
      all_goals exact hnone
  | script matcher =>
      simp only [step]
      split
      case h_1 => split <;> exact hnone
      case h_2 => exact hnone

theorem run_buffer (h : s.buffer.length ≤ maxName) (bytes : Bytes) :
    (s.run bytes).1.buffer.length ≤ maxName := by
  induction bytes generalizing s with
  | nil => exact h
  | cons b bytes ih => exact ih (step_buffer h b)

end Scanner

namespace Matcher

/-- What a matcher has read of a boundary of a name, up to case. -/
def read (name : Bytes) : Matcher → Bytes
  | .idle => []
  | .less => [0x3C]
  | .slash => [0x3C, 0x2F]
  | .name side rest => side.head ++ name.take (name.length - rest.length)

variable {name t : Bytes} {m : Matcher}

/-- A matcher tells what it has come past. -/
theorem Holds.sameName_read (h : m.Holds name t) : SameName t (m.read name) := by
  cases h with
  | idle | less | slash => rfl
  | @name side n rest hne hn =>
      have hlen : n.length + rest.length = name.length := by
        simpa [SameName] using congrArg List.length hn
      have htake : name.map lowerByte = n.map lowerByte ++ rest.map lowerByte := by
        rw [← List.map_append]
        exact hn.symm
      have hcount : name.length - rest.length = (n.map lowerByte).length := by
        rw [List.length_map]
        omega
      simp only [SameName, read, List.map_append, List.map_take, htake, hcount, List.take_left]

/-- What a matcher has read is the start of a boundary. -/
theorem read_prefix (name : Bytes) (m : Matcher) :
    ∃ side : Side, m.read name <+: side.head ++ name := by
  cases m with
  | idle => exact ⟨.opening, List.nil_prefix⟩
  | less => exact ⟨.opening, List.prefix_append ..⟩
  | slash => exact ⟨.closing, List.prefix_append ..⟩
  | name side rest => exact ⟨side, (List.prefix_append_right_inj _).2 (List.take_prefix ..)⟩

end Matcher

end Markup

namespace Rewrite

open Markup (AllSpaces Matcher SameName Scanner Side lowerByte maxName styleName)

namespace Mode

/-- The bytes that are held back. -/
def held : Mode → Bytes
  | .gap latest _ _ => latest.reverse
  | _ => []

/-- The number of style elements that are open. -/
def depth : Mode → Nat
  | .region depth _ | .regionTag depth _ _ => depth
  | _ => 0

/-- The buffer of the scanner is no longer than it may be, and in a region an element is open. -/
def IsBounded : Mode → Prop
  | .markup s => s.buffer.length ≤ maxName
  | .region depth _ | .regionTag depth _ _ => 1 ≤ depth
  | .gap _ _ _ | .gapTag _ => True

/-- What is kept of the page is bounded, and in step with what has been read: of the bytes held back
the first are spaces, for each of which room has been given up, and the others are what the matcher
has read, the start of a style tag. -/
structure InSync (limit : Nat) (mode : Mode) : Prop where
  bounded : mode.IsBounded
  held : ∀ latest room k, mode = .gap latest room k → ∃ w t,
    latest.reverse = w ++ t ∧ AllSpaces w ∧ w.length + room = limit ∧
      SameName t (k.read styleName) ∧ ∃ side : Side, t.map lowerByte <+: side.head ++ styleName

end Mode

namespace Progress

variable {supply : Supply} {options : Options} {p : Progress} {n : Nat}

/-- The numbers that are kept are no more than the bytes read, `n` of them: the regions, one that is
open included, the style tags that joined them, and the elements that are open. -/
structure IsCounted (p : Progress) (n : Nat) : Prop where
  regions : p.counts.regions + p.inRegion.toNat ≤ n
  merged : p.counts.merged ≤ n
  depth : p.mode.depth ≤ n

/-! ### Buffer and depth -/

theorem isBounded_leave (options : Options) (depth : Nat) : (leave options depth).IsBounded := by
  unfold leave
  split
  case isTrue => trivial
  case isFalse h => exact Nat.le_sub_of_add_le (Nat.lt_of_not_le h)

theorem regionByte_bounded {depth : Nat} (h : 1 ≤ depth) (k : Matcher) (b : UInt8) :
    (p.regionByte options depth k b).mode.IsBounded := by
  unfold regionByte
  split
  case h_1 =>
    dsimp only
    split <;> exact Nat.le_add_left 1 depth
  case h_2 =>
    dsimp only
    split
    · exact isBounded_leave options depth
    · exact h
  case h_3 => exact h

theorem regionTagByte_bounded {depth : Nat} (h : 1 ≤ depth) (side : Side) (quote : Option UInt8)
    (b : UInt8) : (p.regionTagByte options depth side quote b).mode.IsBounded := by
  unfold regionTagByte
  split
  case h_1 | h_2 => exact h
  case h_3 => exact isBounded_leave options depth

theorem release_bounded (held : Bytes) : (p.release supply options held).1.mode.IsBounded :=
  Scanner.run_buffer (s := .text) (Nat.zero_le _) held

theorem gapByte_bounded (latest : Bytes) (room : Nat) (k : Matcher) (b : UInt8) :
    (p.gapByte supply options latest room k b).1.mode.IsBounded := by
  unfold gapByte
  split
  case isTrue =>
    cases room with
    | zero => exact release_bounded _
    | succ room => trivial
  case isFalse =>
    split
    case h_1 =>
      dsimp only
      split <;> exact Nat.le_refl 1
    case h_2 =>
      dsimp only
      split <;> trivial
    case h_3 => trivial
    case h_4 => exact release_bounded _

theorem step_bounded (h : p.mode.IsBounded) (b : UInt8) :
    (p.step supply options b).1.mode.IsBounded := by
  unfold step
  cases hp : p.mode with
  | markup s =>
      rw [hp] at h
      simp only [markupByte]
      split
      · exact Nat.le_refl 1
      · exact Scanner.step_buffer h b
  | region depth k =>
      rw [hp] at h
      exact regionByte_bounded h k b
  | regionTag depth side quote =>
      rw [hp] at h
      exact regionTagByte_bounded h side quote b
  | gap latest room k => exact gapByte_bounded latest room k b
  | gapTag quote =>
      dsimp only
      split <;> trivial

theorem run_bounded (h : p.mode.IsBounded) (bytes : Bytes) :
    (p.run supply options bytes).1.mode.IsBounded := by
  induction bytes generalizing p with
  | nil => exact h
  | cons b bytes ih => exact ih (step_bounded h b)

/-! ### Numbers -/

theorem depth_leave_le (options : Options) (depth : Nat) : (leave options depth).depth ≤ depth := by
  unfold leave
  split
  · exact Nat.zero_le _
  · exact Nat.sub_le _ _

/-- Counted where the region goes on, and one more style tag may have joined it. -/
theorem IsCounted.region {q : Progress} (h : p.IsCounted n) (hin : p.inRegion = true)
    (hregions : q.counts.regions = p.counts.regions)
    (hmerged : q.counts.merged ≤ p.counts.merged + 1) (hdepth : q.mode.depth ≤ p.mode.depth + 1) :
    q.IsCounted (n + 1) := by
  obtain ⟨hregions', hmerged', hdepth'⟩ := h
  have hone := Bool.toNat_le q.inRegion
  rw [hin, Bool.toNat_true] at hregions'
  exact ⟨by omega, by omega, by omega⟩

theorem regionByte_counted {depth : Nat} {k : Matcher} (h : p.IsCounted n)
    (hp : p.mode = .region depth k) (b : UInt8) :
    (p.regionByte options depth k b).IsCounted (n + 1) := by
  have hin : p.inRegion = true := by rw [inRegion, hp]
  have hdepth : p.mode.depth = depth := by rw [hp]; rfl
  have hleave := depth_leave_le options depth
  unfold regionByte
  split
  case h_1 =>
    refine h.region hin rfl (Nat.le_refl _) ?_
    dsimp only
    split <;> exact Nat.le_of_eq (congrArg (· + 1) hdepth.symm)
  case h_2 =>
    refine h.region hin rfl (Nat.le_succ _) ?_
    dsimp only
    split
    · omega
    · exact Nat.le_succ_of_le (Nat.le_of_eq hdepth.symm)
  case h_3 =>
    exact h.region hin rfl (Nat.le_succ _) (Nat.le_succ_of_le (Nat.le_of_eq hdepth.symm))

theorem regionTagByte_counted {depth : Nat} {side : Side} {quote : Option UInt8}
    (h : p.IsCounted n) (hp : p.mode = .regionTag depth side quote) (b : UInt8) :
    (p.regionTagByte options depth side quote b).IsCounted (n + 1) := by
  have hin : p.inRegion = true := by rw [inRegion, hp]
  have hdepth : p.mode.depth = depth := by rw [hp]; rfl
  have hleave := depth_leave_le options depth
  unfold regionTagByte
  split
  case h_1 | h_2 =>
    exact h.region hin rfl (Nat.le_succ _) (Nat.le_succ_of_le (Nat.le_of_eq hdepth.symm))
  case h_3 => exact h.region hin rfl (Nat.le_succ _) (by dsimp only; omega)

/-- The region that closes has been counted as open. -/
theorem release_counted (h : p.IsCounted n) (hin : p.inRegion = true) (held : Bytes) :
    (p.release supply options held).1.IsCounted (n + 1) := by
  have hregions := h.regions
  rw [hin, Bool.toNat_true] at hregions
  exact ⟨Nat.le_succ_of_le hregions, Nat.le_succ_of_le h.merged, Nat.zero_le _⟩

theorem gapByte_counted {latest : Bytes} {room : Nat} {k : Matcher} (h : p.IsCounted n)
    (hp : p.mode = .gap latest room k) (b : UInt8) :
    (p.gapByte supply options latest room k b).1.IsCounted (n + 1) := by
  have hin : p.inRegion = true := by rw [inRegion, hp]
  unfold gapByte
  split
  case isTrue =>
    cases room with
    | zero => exact release_counted h hin _
    | succ room => exact h.region hin rfl (Nat.le_succ _) (Nat.zero_le _)
  case isFalse =>
    split
    case h_1 =>
      refine h.region hin rfl (Nat.le_refl _) ?_
      dsimp only
      split <;> exact Nat.le_add_left 1 _
    case h_2 =>
      refine h.region hin rfl (Nat.le_succ _) ?_
      dsimp only
      split <;> exact Nat.zero_le _
    case h_3 => exact h.region hin rfl (Nat.le_succ _) (Nat.zero_le _)
    case h_4 => exact release_counted h hin _

/-- A byte counts for one region, one style tag and one element at most. -/
theorem step_counted (h : p.IsCounted n) (b : UInt8) :
    (p.step supply options b).1.IsCounted (n + 1) := by
  unfold step
  cases hp : p.mode with
  | markup s =>
      have hregions : p.counts.regions ≤ n := Nat.le_trans (Nat.le_add_right _ _) h.regions
      simp only [markupByte]
      refine ⟨?_, Nat.le_succ_of_le h.merged, ?_⟩
      · exact Nat.add_le_add hregions (Bool.toNat_le _)
      · dsimp only
        split
        · exact Nat.le_add_left 1 n
        · exact Nat.zero_le _
  | region depth k => exact regionByte_counted h hp b
  | regionTag depth side quote => exact regionTagByte_counted h hp b
  | gap latest room k => exact gapByte_counted h hp b
  | gapTag quote =>
      have hin : p.inRegion = true := by rw [inRegion, hp]
      dsimp only
      split <;> exact h.region hin rfl (Nat.le_succ _) (Nat.zero_le _)

theorem run_counted (h : p.IsCounted n) (bytes : Bytes) :
    (p.run supply options bytes).1.IsCounted (n + bytes.length) := by
  induction bytes generalizing p n with
  | nil => exact h
  | cons b bytes ih =>
      rw [List.length_cons, ← Nat.add_assoc, Nat.add_right_comm]
      exact ih (step_counted h b)

theorem isCounted_start : ({} : Progress).IsCounted 0 :=
  ⟨Nat.le_refl 0, Nat.le_refl 0, Nat.le_refl 0⟩

/-! ### Bytes held back -/

variable {xs : List Passage} {m d h read written : Bytes}

/-- What is held back is the end of what has been read. -/
theorem Reads.held_eq (hx : Reads supply options p xs m d h read written) : p.mode.held = h := by
  have hs := hx.stands
  generalize p.mode = mode at hs
  cases hs with
  | markup | region | regionTag | gapTag | gap => rfl

theorem Reads.inSync (hx : Reads supply options p xs m d h read written)
    (hbounded : p.mode.IsBounded) : p.mode.InSync options.maxLookback where
  bounded := hbounded
  held latest room k hp := by
    have hs := hx.stands
    rw [hp] at hs
    cases hs with
    | @gap _ _ _ _ _ w t _ _ hh hw hroom hk =>
        have hread := hk.sameName_read
        obtain ⟨side, hside⟩ := k.read_prefix styleName
        refine ⟨w, t, hh, hw, hroom, hread, side, ?_⟩
        have hlower : (side.head ++ styleName).map lowerByte = side.head ++ styleName := by
          cases side <;> decide
        rw [hread, ← hlower]
        exact hside.map lowerByte

end Progress

/-- Spaces and the start of a style tag: no more than the limit, and seven bytes. -/
theorem Mode.InSync.length_held_le {limit : Nat} {mode : Mode} (h : mode.InSync limit) :
    mode.held.length ≤ limit + 7 := by
  cases mode with
  | markup | region | regionTag | gapTag => exact Nat.zero_le _
  | gap latest room k =>
      obtain ⟨w, t, hheld, -, hroom, -, side, ht⟩ := h.held latest room k rfl
      have hlen := ht.length_le
      have hmost : (side.head ++ styleName).length ≤ 7 := by cases side <;> decide
      rw [List.length_map] at hlen
      rw [Mode.held, hheld, List.length_append]
      omega

/-- Where a page in pieces goes on, all is as behind the page in one piece, but for the bytes that
are counted. -/
theorem Rewriter.pushAll_progress (supply : Supply) (options : Options) (pieces : List Bytes) :
    (pushAll { supply, options } pieces).1.progress =
      (Progress.run supply options {} pieces.flatten).1.count pieces.flatten.length
        (Progress.run supply options {} pieces.flatten).2.length := by
  rw [pushAll_eq]
  rfl

open Progress in
/-- **What is kept of a page is bounded.**  Wherever a page in pieces goes on, the mode is in sync,
and what is held back is the end of what has been read, no longer than the limit and seven bytes;
but behind a region it is nothing.  The scanner has read the markup that went out, and its buffer
is bounded; in a region and behind one it is idle.  The regions, style tags and open elements that
are counted are no more than the bytes read, so they fit a word where the length of the page
does. -/
theorem Rewriter.pushAll_inSync (supply : Supply) (options : Options) (pieces : List Bytes) :
    let p := (pushAll { supply, options } pieces).1.progress
    let scanner := (Scanner.text.run (copied supply options {} pieces.flatten)).1
    p.mode.InSync options.maxLookback ∧
      ((∀ latest room k, p.mode ≠ .gap latest room k) → p.mode.held = []) ∧
      p.mode.held.length ≤ options.maxLookback + 7 ∧ p.mode.held <:+ pieces.flatten ∧
      scanner.buffer.length ≤ maxName ∧ (∀ s, p.mode = .markup s → s = scanner) ∧
      (p.inRegion = true → scanner.isIdle = true) ∧ p.IsCounted pieces.flatten.length := by
  intro p scanner
  let q := (Progress.run supply options {} pieces.flatten).1
  have hmode : p.mode = q.mode :=
    (congrArg Progress.mode (pushAll_progress supply options pieces)).trans rfl
  have hregion : p.inRegion = q.inRegion := by simp only [inRegion, hmode]
  have hcounted : p.IsCounted pieces.flatten.length := by
    have hrun : q.IsCounted (0 + pieces.flatten.length) := run_counted isCounted_start _
    rw [Nat.zero_add] at hrun
    have hp : p = q.count pieces.flatten.length _ := pushAll_progress supply options pieces
    rw [hp]
    exact ⟨hrun.regions, hrun.merged, hrun.depth⟩
  rw [hmode, hregion]
  obtain ⟨xs, m, d, h, hreads⟩ := run_reads (reads_start supply options) pieces.flatten
  have hseen : q.Seen supply options _ := run_seen seen_start pieces.flatten
  have hsync : q.mode.InSync options.maxLookback :=
    hreads.inSync (run_bounded (p := {}) (Nat.zero_le _) pieces.flatten)
  refine ⟨hsync, fun hgap => ?_, hsync.length_held_le, ?_,
    Scanner.run_buffer (s := .text) (Nat.zero_le _) _, fun s hs => ?_, fun hin => ?_, hcounted⟩
  · cases e : q.mode with
    | gap latest room k => exact absurd e (hgap latest room k)
    | markup | region | regionTag | gapTag => rfl
  · rw [hreads.held_eq]
    have hread := hreads.read
    rw [List.nil_append] at hread
    exact ⟨xs.flatMap Passage.source ++ (m ++ d), by rw [hread]; simp⟩
  · exact (hseen.scanner.trans (congrArg scannerOf hs)).symm
  · have hidle : scanner = .text := hseen.scanner.trans (scannerOf_inRegion hin)
    rw [hidle]
    rfl

/-- As much is held back as can be. -/
example :
    (Progress.run (Catalog.supply {}) { maxLookback := 2 } {}
      (Utf8.encode "<style></style>\n </sTyLe".toList)).1.mode.held.length = 2 + 7 := by
  decide +kernel

end Rewrite

end StyleSieve
