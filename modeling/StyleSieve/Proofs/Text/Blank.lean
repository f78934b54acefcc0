import StyleSieve.Css.Place
import StyleSieve.Text.Blank

/-!
# Texts without blank characters at either end

* `isTrimmed_trim`, `trim_of_isTrimmed`: `trim` gives such a text, and leaves one as it is.
* `trim_cons`, `trim_concat`: a blank character at either end does not matter.
* `IsTrimmed.startsBare`: a trimmed text that is not empty starts with no space.
* `exists_eq_trim`: only blank characters are lost.
-/

namespace StyleSieve.Text

/-- No blank character stands at either end. -/
def IsTrimmed (t : Text) : Prop := t.head?.any isBlank = false ∧ t.getLast?.any isBlank = false

variable {t : Text} {c : Char}

theorem isBlank_of_isSpace (h : Css.isSpace c = true) : isBlank c = true := by
  simp only [Css.isSpace, Css.isNewline, Bool.or_eq_true, beq_iff_eq] at h
  rcases h with (((rfl | rfl) | rfl) | rfl) | rfl
  all_goals rfl

theorem trimStart_of_head? (h : t.head?.any isBlank = false) : trimStart t = t := by
  cases t with
  | nil => rfl
  | cons c t => exact List.dropWhile_cons_of_neg (by simpa using h)

theorem trimEnd_of_getLast? (h : t.getLast?.any isBlank = false) : trimEnd t = t := by
  rw [← List.head?_reverse] at h
  have hstart : t.reverse.dropWhile isBlank = t.reverse := trimStart_of_head? h
  rw [trimEnd, hstart, List.reverse_reverse]

theorem trim_of_isTrimmed (h : IsTrimmed t) : trim t = t := by
  rw [trim, trimStart_of_head? h.1, trimEnd_of_getLast? h.2]

/-- A text starts, and with no space. -/
def StartsBare (t : Text) : Prop := ∃ c rest, t = c :: rest ∧ Css.isSpace c = false

theorem StartsBare.append (h : StartsBare t) (rest : Text) : StartsBare (t ++ rest) := by
  obtain ⟨c, t, rfl, hc⟩ := h
  exact ⟨c, t ++ rest, rfl, hc⟩

theorem IsTrimmed.startsBare (h : IsTrimmed t) (hne : t ≠ []) : StartsBare t := by
  cases t with
  | nil => exact absurd rfl hne
  | cons c rest =>
      refine ⟨c, rest, rfl, ?_⟩
      rw [← Bool.not_eq_true]
      intro hspace
      have hblank : isBlank c = false := h.1
      rw [isBlank_of_isSpace hspace] at hblank
      cases hblank

theorem head?_trimStart (t : Text) : (trimStart t).head?.any isBlank = false := by
  have h := List.head?_dropWhile_not isBlank t
  rw [trimStart]
  cases e : (t.dropWhile isBlank).head? with
  | none => rfl
  | some c =>
      rw [e] at h
      exact h

theorem getLast?_trimEnd (t : Text) : (trimEnd t).getLast?.any isBlank = false := by
  rw [trimEnd, List.getLast?_reverse]
  exact head?_trimStart t.reverse

theorem trimEnd_prefix (t : Text) : trimEnd t <+: t := by
  have h := List.dropWhile_suffix (l := t.reverse) isBlank
  rwa [← List.reverse_prefix, List.reverse_reverse] at h

theorem isTrimmed_trim (t : Text) : IsTrimmed (trim t) := by
  refine ⟨?_, getLast?_trimEnd _⟩
  obtain ⟨rest, hrest⟩ := trimEnd_prefix (trimStart t)
  have hhead := head?_trimStart t
  unfold trim
  generalize trimEnd (trimStart t) = u at hrest
  cases u with
  | nil => rfl
  | cons c u => rwa [← hrest] at hhead

theorem trim_cons (hc : isBlank c = true) (t : Text) : trim (c :: t) = trim t := by
  rw [trim, trimStart, List.dropWhile_cons_of_pos hc]
  rfl

theorem trimEnd_concat (hc : isBlank c = true) (t : Text) : trimEnd (t ++ [c]) = trimEnd t := by
  rw [trimEnd, List.reverse_append, List.reverse_singleton, List.singleton_append,
    List.dropWhile_cons_of_pos hc]
  rfl

theorem trim_concat (hc : isBlank c = true) (t : Text) : trim (t ++ [c]) = trim t := by
  have hsplit : trimStart (t ++ [c]) = trimStart t ++ [c] ∨
      trimStart (t ++ [c]) = [] ∧ trimStart t = [] := by
    induction t with
    | nil => exact .inr ⟨List.dropWhile_cons_of_pos hc, rfl⟩
    | cons d t ih =>
        by_cases hd : isBlank d = true
        · simpa [trimStart, List.dropWhile_cons_of_pos hd] using ih
        · exact .inl (by simp [trimStart, List.dropWhile_cons_of_neg hd])
  unfold trim
  rcases hsplit with h | ⟨h, h'⟩
  · rw [h, trimEnd_concat hc]
  · rw [h, h']

theorem trimStart_of_blank (h : ∀ c ∈ t, isBlank c = true) : trimStart t = [] := by
  have hdrop : (t ++ []).dropWhile isBlank = [] := List.dropWhile_append_of_pos h
  rwa [List.append_nil] at hdrop

theorem trimEnd_of_blank (h : ∀ c ∈ t, isBlank c = true) : trimEnd t = [] := by
  rw [trimEnd, List.reverse_eq_nil_iff]
  exact trimStart_of_blank fun c hc => h c (List.mem_reverse.1 hc)

theorem trimStart_append (h : t.head?.any isBlank = false) (u : Text) :
    trimStart (u ++ t) = trimStart u ++ t := by
  have ht : t.dropWhile isBlank = t := trimStart_of_head? h
  rw [trimStart, trimStart, List.dropWhile_append, ht]
  split
  case isTrue hnil => rw [List.isEmpty_iff.1 hnil, List.nil_append]
  case isFalse => rfl

theorem trimEnd_append (h : t.getLast?.any isBlank = false) (u : Text) :
    trimEnd (t ++ u) = t ++ trimEnd u := by
  rw [← List.head?_reverse] at h
  have hstart : trimStart (u.reverse ++ t.reverse) = trimStart u.reverse ++ t.reverse :=
    trimStart_append h _
  unfold trimStart at hstart
  rw [trimEnd, trimEnd, List.reverse_append, hstart, List.reverse_append, List.reverse_reverse]

/-- Of what stands around a trimmed text only the outer ends are lost. -/
theorem trim_append (h : IsTrimmed t) (hne : t ≠ []) (u v : Text) :
    trim (u ++ (t ++ v)) = trimStart u ++ (t ++ trimEnd v) := by
  obtain ⟨c, rest, rfl⟩ := List.exists_cons_of_ne_nil hne
  have hlast : (trimStart u ++ c :: rest).getLast?.any isBlank = false := by
    rw [List.getLast?_append, Option.or_of_isSome (by simp)]
    exact h.2
  have hhead : (c :: rest ++ v).head?.any isBlank = false := h.1
  rw [trim, trimStart_append hhead, ← List.append_assoc, trimEnd_append hlast, List.append_assoc]

/-- Only blank characters are lost. -/
theorem exists_eq_trim (t : Text) :
    ∃ front back, (∀ c ∈ front, isBlank c = true) ∧ (∀ c ∈ back, isBlank c = true) ∧
      t = front ++ (trim t ++ back) := by
  refine ⟨t.takeWhile isBlank, ((trimStart t).reverse.takeWhile isBlank).reverse,
    List.all_eq_true.1 List.all_takeWhile,
    fun c hc => List.all_eq_true.1 List.all_takeWhile c (List.mem_reverse.1 hc), ?_⟩
  have hback : trim t ++ ((trimStart t).reverse.takeWhile isBlank).reverse = trimStart t := by
    rw [trim, trimEnd, ← List.reverse_append, List.takeWhile_append_dropWhile, List.reverse_reverse]
  rw [hback]
  exact List.takeWhile_append_dropWhile.symm

end StyleSieve.Text
