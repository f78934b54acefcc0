import StyleSieve.Proofs.Markup.Scanner

/-!
# Where a start tag ends

Behind its name a start tag is read in six states, and a `>` ends it in all of them but one: in a
value with quotes (`Scanner.quote?`).  Such a value starts with its quote, right behind the `=` and
spaces.  A quote that stands elsewhere is a byte like another (`Scanner.takesQuotes`).

* `Scanner.step_inTag`: a byte of a start tag.
* `Scanner.opens_boundary_iff`: where a style tag ends.
-/

namespace StyleSieve.Markup.Scanner

/-- The kind of the start tag that is being read, behind its name. -/
def tag? : Scanner → Option TagKind
  | .beforeAttr tag | .attrName tag _ | .afterAttr tag _ | .beforeValue tag _
  | .quoted tag _ _ _ | .unquoted tag _ _ => some tag
  | _ => none

/-- The quote of the value that is being read. -/
def quote? : Scanner → Option UInt8
  | .quoted _ _ quote _ => some quote
  | _ => none

/-- A quote here would start a value, or stand in one that has started with a quote. -/
def takesQuotes : Scanner → Bool
  | .beforeValue _ _ | .quoted _ _ _ _ => true
  | _ => false

variable {s : Scanner} {tag : TagKind} {n v u : Bytes} {b x : UInt8}

/-- A `>` outside quotes ends a start tag, and any other byte stays within it. -/
theorem step_inTag (h : s.tag? = some tag) (x : UInt8) :
    if x = 0x3E ∧ s.quote? = none then ∃ key, s.step x = closeTag tag key
    else (s.step x).1.tag? = some tag ∧ (s.step x).2.opensStyle = false := by
  simp only [← Mark.of_eq_greater]
  cases s with
  | beforeAttr | attrName | afterAttr | beforeValue | unquoted =>
      obtain rfl := Option.some.inj h
      cases e : Mark.of x
      case greater => simp [quote?, step, e]
      all_goals simp [tag?, step, e]
  | quoted tag attr quote word =>
      obtain rfl := Option.some.inj h
      have hopen : ¬ (Mark.of x = .greater ∧ (quoted tag attr quote word).quote? = none) := by
        rintro ⟨-, hnone⟩
        cases hnone
      rw [if_neg hopen]
      simp only [step]
      split
      all_goals exact ⟨rfl, rfl⟩
  | text | tagOpen | endTag | tagName | declaration | declarationDash | commentStart | comment
  | bogus | script => cases h

/-- In a style tag a byte opens a region if and only if it is a `>` outside quotes. -/
theorem opensStyle_iff (h : s.tag? = some .style) :
    (s.step x).2.opensStyle = true ↔ x = 0x3E ∧ s.quote? = none := by
  have hstep := step_inTag h x
  split at hstep
  case isTrue e =>
    obtain ⟨key, hclose⟩ := hstep
    rw [hclose]
    exact ⟨fun _ => e, fun _ => rfl⟩
  case isFalse e => simp [hstep.2, e]

theorem silent_snoc_iff {m : Bytes} (h : (s.run m).1.tag? = some .style) :
    s.Silent (m ++ [x]) ↔ s.Silent m ∧ ¬ (x = 0x3E ∧ (s.run m).1.quote? = none) := by
  rw [silent_snoc, ← opensStyle_iff h, Bool.not_eq_true]

/-! ### Behind the name -/

/-- Up to the end of its name a style tag opens nothing. -/
theorem run_boundary (h : Boundary styleName .opening (n ++ [b])) :
    Scanner.text.Silent n ∧ (Scanner.text.run n).1 = .tagName styleName := by
  obtain ⟨m, c, e, hm, -⟩ := h
  obtain ⟨rfl, -⟩ := List.append_inj' e rfl
  have hword := styleName_isWord.of_sameName hm
  have hlower : m.map lowerByte = styleName := hm.trans (by decide)
  have hlen : m.length ≤ maxName := by
    have hl := congrArg List.length hlower
    rw [List.length_map] at hl
    rw [hl]
    decide
  obtain ⟨hrun, hsilent⟩ := run_opening hword.ne_nil hword.letter hlen
  exact ⟨hsilent, hrun.trans (congrArg _ hlower)⟩

/-- Behind its name a style tag is read as one, unless the `>` stands there. -/
theorem run_boundary_byte (h : Boundary styleName .opening (n ++ [b])) (hb : b ≠ 0x3E) :
    Scanner.text.Silent (n ++ [b]) ∧
      (Scanner.text.run (n ++ [b])).1 = .beforeAttr .style := by
  obtain ⟨hsilent, hrun⟩ := run_boundary h
  obtain ⟨m, c, e, -, hends⟩ := h
  obtain rfl := List.singleton_inj.1 (List.append_inj' e rfl).2
  rw [silent_snoc, run_snoc, hrun]
  have hgreater := mt (Mark.of_eq_greater b).1 hb
  simp only [step]
  split
  case h_1 e => exact absurd e hgreater
  case h_2 | h_3 => exact ⟨⟨hsilent, rfl⟩, rfl⟩
  case h_4 hslash hspace =>
    revert hends hgreater hslash hspace
    cases Mark.of b <;> simp [Mark.endsName]

/-- A `>` right behind its name ends a style tag. -/
theorem opens_name_iff (h : Boundary styleName .opening (n ++ [0x3E])) :
    Scanner.text.Opens (n ++ [0x3E] ++ u) ↔ u = [] := by
  obtain ⟨hsilent, hrun⟩ := run_boundary h
  have hopens : ((Scanner.text.run n).1.step 0x3E).2.opensStyle = true := by
    rw [hrun]
    decide
  rcases List.eq_nil_or_concat u with rfl | ⟨v, x, rfl⟩
  · rw [List.append_nil, opens_snoc]
    exact ⟨fun _ => rfl, fun _ => ⟨hsilent, hopens⟩⟩
  · rw [List.concat_eq_append, ← List.append_assoc, opens_snoc, silent_append, silent_snoc, hopens]
    simp

/-- While it has not ended, a style tag is read as one. -/
theorem tag?_of_silent (h : Boundary styleName .opening (n ++ [b])) (hb : b ≠ 0x3E)
    (hv : Scanner.text.Silent (n ++ [b] ++ v)) :
    (Scanner.text.run (n ++ [b] ++ v)).1.tag? = some .style := by
  induction v using List.reverseRecOn with
  | nil =>
      rw [List.append_nil, (run_boundary_byte h hb).2]
      rfl
  | append_singleton v x ih =>
      rw [← List.append_assoc] at hv
      have htag := ih (silent_snoc.1 hv).1
      have hstep := step_inTag htag x
      rw [if_neg ((silent_snoc_iff htag).1 hv).2] at hstep
      rw [← List.append_assoc, run_snoc]
      exact hstep.1

/-- **Where a style tag ends.**  At the first `>` that stands in no value with quotes. -/
theorem opens_boundary_iff (h : Boundary styleName .opening (n ++ [b])) (hb : b ≠ 0x3E) :
    Scanner.text.Opens (n ++ [b] ++ u) ↔ ∃ v, u = v ++ [0x3E] ∧
      Scanner.text.Silent (n ++ [b] ++ v) ∧
        (Scanner.text.run (n ++ [b] ++ v)).1.quote? = none := by
  rcases List.eq_nil_or_concat u with rfl | ⟨v, x, rfl⟩
  · -- it is still open behind the name
    obtain ⟨hsilent, hstate⟩ := run_boundary_byte h hb
    rw [List.append_nil, opens_snoc, (silent_snoc.1 hsilent).2]
    simp
  · rw [List.concat_eq_append, ← List.append_assoc, opens_snoc]
    constructor
    · rintro ⟨hsilent, hopens⟩
      obtain ⟨rfl, hquote⟩ := (opensStyle_iff (tag?_of_silent h hb hsilent)).1 hopens
      exact ⟨v, rfl, hsilent, hquote⟩
    · rintro ⟨v', e, hsilent, hquote⟩
      obtain ⟨rfl, hx⟩ := List.append_inj' e rfl
      exact ⟨hsilent, (opensStyle_iff (tag?_of_silent h hb hsilent)).2
        ⟨List.singleton_inj.1 hx, hquote⟩⟩

end StyleSieve.Markup.Scanner
