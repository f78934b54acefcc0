import StyleSieve.Proofs.Css.Ahead

/-!
# Names that are written as they are

A name is bare if it holds no escape and can start where a number can.  In front of a blank, a colon
or a semicolon it is read as itself.

* `Token.tokenAt_atKeyword`: behind an `@`.
* `Token.tokenAt_ident`: where nothing stands before it.
-/

namespace StyleSieve.Css

namespace Name

/-- A name that is written as it is: it can start where a number can, and holds no escape. -/
def isBare (name : Text) : Bool := starts name && name.all fun c => isPlain c && c != '\x00'

variable {name rest : Text}

theorem starts_of_isBare (h : isBare name = true) : starts name = true :=
  (Bool.and_eq_true_iff.1 h).1

theorem isPlain_of_isBare (h : isBare name = true) : ∀ c ∈ name, isPlain c = true := fun c hc =>
  (Bool.and_eq_true_iff.1 (List.all_eq_true.1 (Bool.and_eq_true_iff.1 h).2 c hc)).1

theorem exists_of_isBare (h : isBare name = true) :
    ∃ c rest, name = c :: rest ∧ isPlain c = true := by
  cases name with
  | nil => cases h
  | cons c rest => exact ⟨c, rest, rfl, isPlain_of_isBare h c List.mem_cons_self⟩

/-- What stands behind a name where names are written: a blank, a colon or a stop. -/
def Ends (rest : Text) : Prop := ∃ c more, rest = c :: more ∧ (c = ' ' ∨ c = ':' ∨ isStop c = true)

theorem Ends.head?_any {p : Char → Bool} (hrest : Ends rest)
    (hp : p ' ' = false ∧ p ':' = false ∧ p ';' = false ∧ p '{' = false ∧ p '}' = false) :
    rest.head?.any p = false := by
  obtain ⟨c, more, rfl, hc⟩ := hrest
  obtain ⟨hblank, hcolon, hstop⟩ := hp
  rcases hc with rfl | rfl | hc
  · exact hblank
  · exact hcolon
  · exact false_of_isStop hstop hc

theorem ne_of_isPlain {c d : Char} (h : isPlain c = true) (hd : isPlain d = false) : c ≠ d := by
  rintro rfl
  exact absurd h (by simp [hd])

theorem not_isSpace_of_isPlain {c : Char} (h : isPlain c = true) : isSpace c = false := by
  have hne {d : Char} (hd : isPlain d = false) : (c == d) = false :=
    beq_false_of_ne (ne_of_isPlain h hd)
  unfold isSpace isNewline
  rw [hne (d := '\n') (by decide), hne (d := '\r') (by decide), hne (d := '\x0c') (by decide),
    hne (d := ' ') (by decide), hne (d := '\t') (by decide)]
  rfl

theorem extent_append (h : ∀ c ∈ name, isPlain c = true) (hrest : Ends rest) :
    extent (name ++ rest) = name.length := by
  unfold extent
  induction name with
  | nil =>
      have hplain := hrest.head?_any (p := isPlain) (by decide)
      have hslash := hrest.head?_any (p := (· == '\\')) (by decide)
      cases rest with
      | nil => rfl
      | cons c rest =>
          rw [List.nil_append, extentFrom, if_neg (by simpa using hslash),
            if_neg (by simpa using hplain)]
          rfl
  | cons c name ih =>
      obtain ⟨hc, hname⟩ := List.forall_mem_cons.1 h
      have hne : c ≠ '\\' := ne_of_isPlain hc (by decide)
      rw [List.cons_append, extentFrom, if_neg hne, if_pos hc, ih hname, List.length_cons]

theorem value_bare (h : isBare name = true) : value name = name := by
  have hall : ∀ c ∈ name, isPlain c = true ∧ c ≠ '\x00' := by
    simpa [isBare, List.all_eq_true] using (Bool.and_eq_true_iff.1 h).2
  unfold value
  clear h
  induction name with
  | nil => rfl
  | cons c name ih =>
      obtain ⟨⟨hc, hnull⟩, hname⟩ := List.forall_mem_cons.1 hall
      have hne : c ≠ '\\' := ne_of_isPlain hc (by decide)
      rw [valueFrom, if_neg hne, if_neg hnull, ih hname]

theorem starts_append (h : starts name = true) (hplain : ∀ c ∈ name, isPlain c = true)
    (rest : Text) : starts (name ++ rest) = true := by
  cases name with
  | nil => cases h
  | cons c name =>
      have hslash : c ≠ '\\' := ne_of_isPlain (hplain _ List.mem_cons_self) (by decide)
      by_cases hdash : c = '-'
      · subst hdash
        rw [starts_dash] at h
        rw [List.cons_append, starts_dash]
        cases name with
        | nil => cases h
        | cons d name => exact h
      · rw [starts_other hdash hslash] at h
        rw [List.cons_append, starts_other hdash hslash, h]

theorem not_isDigit_of_isStart {c : Char} (h : isStart c = true) : c.isDigit = false := by
  have halpha : c.isAlpha =
      (decide (65 ≤ c.val ∧ c.val ≤ 90) || decide (97 ≤ c.val) && decide (c.val ≤ 122)) := rfl
  rw [← Bool.not_eq_true]
  intro hdigit
  simp only [isStart, halpha, Char.isDigit, Bool.or_eq_true, Bool.and_eq_true, decide_eq_true_eq,
    beq_iff_eq, ge_iff_le, UInt32.le_iff_toNat_le] at h hdigit
  change 48 ≤ c.toNat ∧ c.toNat ≤ 57 at hdigit
  rcases h with (((h | h) | rfl) | rfl) | h
  · change 65 ≤ c.toNat ∧ c.toNat ≤ 90 at h
    omega
  · change 97 ≤ c.toNat ∧ c.toNat ≤ 122 at h
    omega
  · exact absurd hdigit (by decide)
  · exact absurd hdigit (by decide)
  · omega

end Name

namespace Token

/-- Where a name starts no number does. -/
theorem startsNumber_of_starts {t : Text} (h : Name.starts t = true) : startsNumber t = false := by
  have hother {c : Char} {t : Text} (hdigit : c.isDigit = false) (hpoint : c ≠ '.') :
      digitsExtent (c :: t) = 0 ∧ fractionExtent (c :: t) = 0 := by
    refine ⟨by simp [digitsExtent, hdigit], ?_⟩
    unfold fractionExtent
    split
    case h_1 e => exact absurd (List.cons.inj e).1 hpoint
    case h_2 => rfl
  have hstart {c : Char} {t : Text} (h : Name.isStart c = true) :
      digitsExtent (c :: t) = 0 ∧ fractionExtent (c :: t) = 0 :=
    hother (Name.not_isDigit_of_isStart h) (by rintro rfl; exact absurd h (by decide))
  unfold Name.starts at h
  unfold startsNumber
  split at h
  case h_1 c t =>
    have hsign : signExtent ('-' :: c :: t) = 1 := rfl
    have hc : digitsExtent (c :: t) = 0 ∧ fractionExtent (c :: t) = 0 := by
      simp only [Bool.or_eq_true, beq_iff_eq] at h
      rcases h with (h | rfl) | rfl
      · exact hstart h
      · exact hother (by decide) (by decide)
      · exact hother (by decide) (by decide)
    simp [hsign, hc]
  case h_2 t =>
    have hsign : signExtent ('\\' :: t) = 0 := rfl
    have hc := hother (c := '\\') (t := t) (by decide) (by decide)
    simp [hsign, hc]
  case h_3 c t _ _ =>
    have hsign : signExtent (c :: t) = 0 := by
      refine if_neg ?_
      rw [List.head?_cons, Option.any_some, isSign, Bool.or_eq_true, beq_iff_eq, beq_iff_eq]
      rintro (rfl | rfl)
      all_goals exact absurd h (by decide)
    simp [hsign, hstart h]
  case h_4 => cases h

variable {name rest : Text}

theorem tokenAt_atKeyword (h : Name.isBare name = true) (hrest : Name.Ends rest) :
    tokenAt '@' (name ++ rest) = (.atKeyword name, name.length) := by
  have hplain := Name.isPlain_of_isBare h
  have hstarts := Name.starts_append (Name.starts_of_isBare h) hplain rest
  have hextent := Name.extent_append hplain hrest
  have hname : (name ++ rest).take name.length = name := List.take_left
  unfold tokenAt
  simp [hstarts, hextent, hname, Name.value_bare h, isSpace, isNewline]

theorem tokenAt_ident {c : Char} (h : Name.isBare (c :: name) = true) (hrest : Name.Ends rest) :
    tokenAt c (name ++ rest) = (.ident (c :: name), name.length) := by
  have hplain := Name.isPlain_of_isBare h
  have hc : Name.isPlain c = true := hplain c List.mem_cons_self
  have hstarts : Name.starts (c :: (name ++ rest)) = true :=
    Name.starts_append (Name.starts_of_isBare h) hplain rest
  have hextent : Name.extent (c :: (name ++ rest)) = name.length + 1 :=
    Name.extent_append hplain hrest
  have hdrop : (c :: (name ++ rest)).drop (name.length + 1) = rest := List.drop_left
  have htake : (c :: (name ++ rest)).take (name.length + 1) = c :: name :=
    @List.take_left _ (c :: name) rest
  have hnamed : named (c :: (name ++ rest)) (name.length + 1) =
      (.ident (c :: name), name.length + 1) := by
    have hopen := hrest.head?_any (p := (· == '(')) (by decide)
    rw [named_of_not_open, htake, Name.value_bare h]
    rw [hdrop]
    intro e
    rw [e] at hopen
    cases hopen
  have hquote : ¬(c = '\x22' ∨ c = '\x27') := by
    rintro (rfl | rfl)
    all_goals exact absurd hc (by decide)
  -- a name that starts with two hyphens ends before a `>` that would make it a mark
  have hmark : ¬['-', '>'] <+: name ++ rest := by
    have hends {d : Char} {t : Text} (hd : d = '-' ∨ d = '>') : d :: t ≠ rest := by
      rintro rfl
      have h := hrest.head?_any (p := fun c => c == '-' || c == '>') (by decide)
      rcases hd with rfl | rfl
      all_goals cases h
    rintro ⟨t, ht⟩
    match name with
    | [] => exact hends (.inl rfl) ht
    | [_] => exact hends (.inr rfl) (List.cons.inj ht).2
    | _ :: e :: name =>
        have he : '>' = e := (List.cons.inj (List.cons.inj ht).2).1
        exact absurd (hplain e (by simp)) (by rw [← he]; decide)
  unfold tokenAt
  simp [Name.not_isSpace_of_isPlain hc, hquote, Name.ne_of_isPlain hc (d := '#') (by decide),
    Name.ne_of_isPlain hc (d := '@') (by decide), Name.ne_of_isPlain hc (d := '/') (by decide),
    Name.ne_of_isPlain hc (d := '<') (by decide), startsNumber_of_starts hstarts, hmark, hstarts,
    hextent, hnamed]

end Token

end StyleSieve.Css
