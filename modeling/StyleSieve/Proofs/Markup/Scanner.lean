import StyleSieve.Markup.Scanner
import StyleSieve.Proofs.Markup.Boundary

/-!
# Runs of a scanner

A run over two pieces is a run over the first and then the second.  `Scanner.Silent` says that a run
meets the end of no `style` tag, `Scanner.Opens` that it meets one, with its last byte.

* `Scanner.silent_of_holds`: spaces and the start of a style boundary open nothing, and neither does
  the byte that breaks it off.  So bytes that were held back for such a boundary can go out as
  markup.
-/

namespace StyleSieve.Markup

theorem styleName_isWord : IsWord styleName := ⟨by decide, by decide +kernel⟩

theorem scriptName_isWord : IsWord scriptName := ⟨by decide, by decide +kernel⟩

namespace Scanner

/-! ### Runs -/

theorem run_append (s : Scanner) (a b : Bytes) :
    s.run (a ++ b) =
      (((s.run a).1.run b).1, (s.run a).2 ++ ((s.run a).1.run b).2) := by
  induction a generalizing s with
  | nil => rfl
  | cons x a ih => simp only [List.cons_append, run, ih]

theorem run_snoc (s : Scanner) (a : Bytes) (b : UInt8) :
    s.run (a ++ [b]) =
      (((s.run a).1.step b).1, (s.run a).2 ++ [((s.run a).1.step b).2]) :=
  run_append s a [b]

/-- No style tag ends in `bytes`, read from state `s` on. -/
def Silent (s : Scanner) (bytes : Bytes) : Prop :=
  ∀ x ∈ (s.run bytes).2, x.opensStyle = false

/-- Read from state `s` on, a style tag ends with the last of `bytes`, and none before. -/
def Opens (s : Scanner) (bytes : Bytes) : Prop :=
  ∃ a b, bytes = a ++ [b] ∧ s.Silent a ∧ ((s.run a).1.step b).2.opensStyle = true

theorem silent_append {s : Scanner} {a b : Bytes} :
    s.Silent (a ++ b) ↔ s.Silent a ∧ (s.run a).1.Silent b := by
  simp only [Silent, run_append, List.mem_append, or_imp, forall_and]

theorem silent_snoc {s : Scanner} {a : Bytes} {b : UInt8} :
    s.Silent (a ++ [b]) ↔ s.Silent a ∧ ((s.run a).1.step b).2.opensStyle = false := by
  rw [silent_append]
  simp only [Silent, run, List.mem_singleton, forall_eq]

theorem opens_snoc {s : Scanner} {a : Bytes} {b : UInt8} :
    s.Opens (a ++ [b]) ↔ s.Silent a ∧ ((s.run a).1.step b).2.opensStyle = true := by
  refine ⟨?_, fun h => ⟨a, b, rfl, h⟩⟩
  rintro ⟨a', b', e, h⟩
  obtain ⟨rfl, hb⟩ := List.append_inj' e rfl
  rwa [List.singleton_inj.1 hb]

/-- Whether a style tag ends, and where, can be told from the sightings. -/
theorem opens_iff {s : Scanner} {bytes : Bytes} :
    s.Opens bytes ↔ ∃ k, (s.run bytes).2.map (·.opensStyle) = List.replicate k false ++ [true] := by
  constructor
  · rintro ⟨a, b, rfl, hq, hb⟩
    refine ⟨(s.run a).2.length, ?_⟩
    rw [run_snoc, List.map_append, List.map_singleton, hb, List.append_left_inj,
      List.eq_replicate_iff]
    refine ⟨by rw [List.length_map], fun x hx => ?_⟩
    obtain ⟨y, hy, rfl⟩ := List.mem_map.1 hx
    exact hq y hy
  · rintro ⟨k, h⟩
    induction bytes using List.reverseRecOn with
    | nil => simp [run] at h
    | append_singleton a b _ =>
        rw [run_snoc, List.map_append, List.map_singleton] at h
        obtain ⟨ha, hb⟩ := List.append_inj' h rfl
        refine ⟨a, b, rfl, fun x hx => ?_, List.singleton_inj.1 hb⟩
        have hmem := List.mem_map_of_mem (f := Sighting.opensStyle) hx
        rw [ha] at hmem
        exact List.eq_of_mem_replicate hmem

/-- A byte ends a start tag, or it opens nothing. -/
theorem step_cases (s : Scanner) (b : UInt8) :
    (∃ tag key, s.step b = closeTag tag key) ∨ (s.step b).2.opensStyle = false := by
  cases s with
  | tagName | beforeAttr | attrName | afterAttr | beforeValue | unquoted =>
      simp only [step]
      split <;> first | exact .inl ⟨_, _, rfl⟩ | exact .inr rfl
  | text | endTag | bogus => exact .inr rfl
  | tagOpen | quoted | declaration | declarationDash | commentStart | comment | script =>
      simp only [step]
      split <;> exact .inr rfl

example : ((Scanner.tagName styleName).step 0x3E).2.opensStyle = true := by cbv

/-- Where a style tag ends, the scanner is back between tags. -/
theorem step_of_opensStyle {s : Scanner} {b : UInt8} (h : (s.step b).2.opensStyle = true) :
    (s.step b).1 = .text := by
  rcases step_cases s b with ⟨tag, key, e⟩ | e
  · rw [e] at h ⊢
    cases tag with
    | style => rfl
    | script | other => cases h
  · rw [e] at h
    cases h

/-- Where a style tag ends, the scanner is between tags. -/
theorem Opens.text {m : Bytes} (h : Scanner.text.Opens m) : (Scanner.text.run m).1 = .text := by
  obtain ⟨a, b, rfl, -, hb⟩ := h
  rw [run_snoc]
  exact step_of_opensStyle hb

theorem run_stretches {ms : List Bytes} (h : ∀ m ∈ ms, Scanner.text.Opens m) :
    (Scanner.text.run ms.flatten).1 = .text := by
  induction ms with
  | nil => rfl
  | cons m ms ih =>
      obtain ⟨hm, hms⟩ := List.forall_mem_cons.1 h
      rw [List.flatten_cons, run_append, hm.text]
      exact ih hms

/-! ### Bytes held back -/

theorem run_spaces {w : Bytes} (h : ∀ b ∈ w, Mark.of b = .space) :
    (Scanner.text.run w).1 = .text ∧ Scanner.text.Silent w := by
  induction w with
  | nil => exact ⟨rfl, fun _ h => nomatch h⟩
  | cons b w ih =>
      have hb : Scanner.text.step b = (.text, {}) := by
        simp only [step, h b (by simp), reduceCtorEq, if_false]
      obtain ⟨hs, hq⟩ := ih fun c hc => h c (List.mem_cons_of_mem _ hc)
      simp only [Silent, run, hb, List.mem_cons, forall_eq_or_imp] at hs hq ⊢
      exact ⟨hs, trivial, hq⟩

theorem run_endTag {n : Bytes} (h : ∀ b ∈ n, Mark.of b = .letter) :
    (Scanner.endTag.run n).1 = .endTag ∧ Scanner.endTag.Silent n := by
  induction n with
  | nil => exact ⟨rfl, fun _ h => nomatch h⟩
  | cons b n ih =>
      have hb : Scanner.endTag.step b = (.endTag, {}) := by
        simp only [step, h b (by simp), reduceCtorEq, if_false]
      obtain ⟨hs, hq⟩ := ih fun c hc => h c (List.mem_cons_of_mem _ hc)
      simp only [Silent, run, hb, List.mem_cons, forall_eq_or_imp] at hs hq ⊢
      exact ⟨hs, trivial, hq⟩

theorem run_tagName (name : Bytes) {n : Bytes} (h : ∀ b ∈ n, Mark.of b = .letter)
    (hlen : name.length + n.length ≤ maxName) :
    ((Scanner.tagName name).run n).1 = .tagName (name ++ n.map lowerByte) ∧
      (Scanner.tagName name).Silent n := by
  induction n generalizing name with
  | nil => exact ⟨by simp [run], fun _ h => nomatch h⟩
  | cons b n ih =>
      simp only [List.length_cons] at hlen
      have hb : (Scanner.tagName name).step b = (.tagName (name ++ [lowerByte b]), {}) := by
        simp only [step, h b (by simp), pushByte, if_pos (show name.length < maxName by omega)]
      obtain ⟨hs, hq⟩ := ih (name ++ [lowerByte b])
        (fun c hc => h c (List.mem_cons_of_mem _ hc)) (by
          simp only [List.length_append, List.length_singleton]
          omega)
      simp only [Silent, run, hb, List.mem_cons, forall_eq_or_imp, List.map_cons,
        List.append_assoc, List.singleton_append] at hs hq ⊢
      exact ⟨hs, trivial, hq⟩

/-- The start of a start tag leaves the scanner within the name. -/
theorem run_opening {n : Bytes} (hne : n ≠ []) (h : ∀ b ∈ n, Mark.of b = .letter)
    (hlen : n.length ≤ maxName) :
    (Scanner.text.run (0x3C :: n)).1 = .tagName (n.map lowerByte) ∧
      Scanner.text.Silent (0x3C :: n) := by
  obtain ⟨b, n, rfl⟩ := List.exists_cons_of_ne_nil hne
  obtain ⟨hb, h⟩ := List.forall_mem_cons.1 h
  rw [List.length_cons] at hlen
  obtain ⟨hs, hq⟩ := run_tagName [lowerByte b] h (by
    rw [List.length_singleton]
    omega)
  have h₁ : Scanner.text.step 0x3C = (.tagOpen, {}) := rfl
  have h₂ : Scanner.tagOpen.step b = (.tagName [lowerByte b], {}) := by simp only [step, hb]
  refine ⟨?_, ?_⟩
  · simp only [run, h₁, h₂]
    exact hs
  · simp only [Silent, run, h₁, h₂, List.mem_cons, forall_eq_or_imp, true_and]
    exact hq

/-- The start of a style boundary opens nothing.  Of a start tag it leaves the scanner within the
name. -/
theorem run_holds {m : Matcher} {t : Bytes} (h : m.Holds styleName t) :
    Scanner.text.Silent t ∧
      ((Scanner.text.run t).1 = .text ∨ (Scanner.text.run t).1 = .tagOpen ∨
        (Scanner.text.run t).1 = .endTag ∨
        ∃ n rest, m = .name .opening rest ∧ SameName (n ++ rest) styleName ∧
          (Scanner.text.run t).1 = .tagName (n.map lowerByte)) := by
  cases h with
  | idle => exact ⟨fun _ h => (nomatch h), .inl rfl⟩
  | less => exact ⟨by simp [Silent, run, step, Mark.of], .inr (.inl rfl)⟩
  | slash => exact ⟨by simp [Silent, run, step, Mark.of], .inr (.inr (.inl rfl))⟩
  | @name side n rest hne hn =>
      -- the name is a part of `style`, so it is all letters and never cut
      have hword := styleName_isWord.of_sameName hn
      have hlen : n.length + rest.length = 5 := by
        have hl := congrArg List.length hn
        rw [List.length_map, List.length_map, List.length_append] at hl
        exact hl
      have hletters : ∀ b ∈ n, Mark.of b = .letter := fun b hb =>
        hword.letter b (List.mem_append_left _ hb)
      cases side with
      | opening =>
          obtain ⟨hs, hq⟩ := run_opening hne hletters (by
            rw [maxName]
            omega)
          exact ⟨hq, .inr (.inr (.inr ⟨n, rest, rfl, hn, hs⟩))⟩
      | closing =>
          obtain ⟨hs, hq⟩ := run_endTag hletters
          have h₁ : Scanner.text.step 0x3C = (.tagOpen, {}) := rfl
          have h₂ : Scanner.tagOpen.step 0x2F = (.endTag, {}) := rfl
          refine ⟨?_, .inr (.inr (.inl ?_))⟩
          · simp only [Silent, Side.head, List.cons_append, List.nil_append, run, h₁, h₂]
              at hq ⊢
            simp only [List.mem_cons, forall_eq_or_imp, true_and] at hq ⊢
            exact hq
          · simp only [Side.head, List.cons_append, List.nil_append, run, h₁, h₂] at hs ⊢
            exact hs

/-- Spaces and the start of a style boundary open nothing, and neither does the byte that breaks it
off. -/
theorem silent_of_holds {m : Matcher} {w t : Bytes} (hw : ∀ b ∈ w, Mark.of b = .space)
    (h : m.Holds styleName t) :
    Scanner.text.Silent (w ++ t) ∧
      ∀ b, (∀ side, (m.step styleName b).2 ≠ .found side) →
        Scanner.text.Silent (w ++ t ++ [b]) := by
  obtain ⟨hs, hq⟩ := run_spaces hw
  obtain ⟨ht, hstate⟩ := run_holds h
  have held : Scanner.text.Silent (w ++ t) := silent_append.2 ⟨hq, by rwa [hs]⟩
  refine ⟨held, fun b hb => silent_snoc.2 ⟨held, ?_⟩⟩
  rw [run_append, hs]
  rcases hstate with e | e | e | ⟨n, rest, rfl, hn, e⟩
  · simp only [e, step]
  · simp only [e, step]
    split <;> rfl
  · simp only [e, step]
  · simp only [e, step]
    split
    case h_1 hg =>
      -- a `>` would complete the boundary if the name were complete
      have hne : n.map lowerByte ≠ styleName := fun e => by
        have hlen := congrArg List.length hn
        have hlen' := congrArg List.length e
        simp only [List.length_map, List.length_append] at hlen hlen'
        have : rest = [] := List.eq_nil_of_length_eq_zero (by omega)
        subst this
        exact hb .opening (by simp [Matcher.step, hg, Mark.endsName])
      simp only [TagKind.of, if_neg hne]
      split <;> rfl
    all_goals rfl

end Scanner

end StyleSieve.Markup
