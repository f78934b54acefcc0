import StyleSieve.Css.Token

/-!
# How far a token reads ahead

A semicolon or a curly bracket belongs to no other token, unless it stands in a string, in a comment
or in a URL, or behind a backslash.  So what comes behind such a stop decides nothing about a token
that ends in front of it.

* `Stopped`: a text with a stop behind it.
* `Token.tokenAt_congr`: which stop it is, and what comes behind it, does not matter.
-/

namespace StyleSieve.Css

/-- A character that belongs to no other token, outside strings, comments, URLs and escapes. -/
def isStop (c : Char) : Bool := c == ';' || c == '{' || c == '}'

theorem isStop_iff {c : Char} : isStop c = true ↔ c = ';' ∨ c = '{' ∨ c = '}' := by
  simp [isStop, or_assoc]

/-- What is false of the three stops is false of every stop. -/
theorem false_of_isStop {p : Char → Bool} (hp : p ';' = false ∧ p '{' = false ∧ p '}' = false)
    {c : Char} (h : isStop c = true) : p c = false := by
  rcases isStop_iff.1 h with rfl | rfl | rfl
  · exact hp.1
  · exact hp.2.1
  · exact hp.2.2

theorem not_isSpace_of_isStop (c : Char) (h : isStop c = true) : isSpace c = false :=
  false_of_isStop (by decide) h

/-- `t` is `r`, with a stop behind it. -/
inductive Stopped : (r t : Text) → Prop where
  | here {c : Char} {rest : Text} : isStop c = true → Stopped [] (c :: rest)
  | there {c : Char} {r t : Text} : Stopped r t → Stopped (c :: r) (c :: t)

namespace Stopped

variable {r t t' : Text} {p : Char → Bool}

theorem append {c : Char} (r rest : Text) (h : isStop c = true) : Stopped r (r ++ c :: rest) := by
  induction r with
  | nil => exact .here h
  | cons b r ih => exact .there ih

theorem length_lt (hs : Stopped r t) : r.length < t.length := by
  induction hs with
  | here => exact Nat.succ_pos _
  | there _ ih => exact Nat.succ_lt_succ ih

theorem drop (hs : Stopped r t) {n : Nat} (h : n ≤ r.length) : Stopped (r.drop n) (t.drop n) := by
  induction n generalizing r t with
  | zero => exact hs
  | succ n ih =>
      cases hs with
      | here => cases h
      | there hs => exact ih hs (Nat.le_of_succ_le_succ h)

theorem take (hs : Stopped r t) {n : Nat} (h : n ≤ r.length) : t.take n = r.take n := by
  induction n generalizing r t with
  | zero => rfl
  | succ n ih =>
      cases hs with
      | here => cases h
      | there hs => rw [List.take_succ_cons, List.take_succ_cons, ih hs (Nat.le_of_succ_le_succ h)]

theorem takeWhile (hs : Stopped r t) (hp : ∀ c, isStop c = true → p c = false) :
    t.takeWhile p = r.takeWhile p := by
  induction hs with
  | here h => exact List.takeWhile_cons_of_neg (by simp [hp _ h])
  | there _ ih => rw [List.takeWhile_cons, List.takeWhile_cons, ih]

theorem dropWhile (hs : Stopped r t) (hp : ∀ c, isStop c = true → p c = false) :
    Stopped (r.dropWhile p) (t.dropWhile p) := by
  induction hs with
  | here h =>
      rw [List.dropWhile_cons_of_neg (by simp [hp _ h])]
      exact .here h
  | @there c r t hs ih =>
      rw [List.dropWhile_cons, List.dropWhile_cons]
      split
      · exact ih
      · exact .there hs

/-- What holds of every stop holds of the character behind a text whatever the stop. -/
theorem head?_any_congr (hs : Stopped r t) (hs' : Stopped r t')
    (hp : ∀ c, isStop c = true → p c = true) : t'.head?.any p = t.head?.any p := by
  cases hs with
  | here h =>
      cases hs' with
      | here h' => exact (hp _ h').trans (hp _ h).symm
  | there =>
      cases hs' with
      | there => rfl

theorem head?_any (hs : Stopped r t) (hp : ∀ c, isStop c = true → p c = false) :
    t.head?.any p = r.head?.any p := by
  cases hs with
  | here h => exact hp _ h
  | there => rfl

theorem head?_eq (hs : Stopped r t) {c : Char} (hc : isStop c = false) :
    t.head? = some c ↔ r.head? = some c := by
  cases hs with
  | here h =>
      simp only [List.head?_cons, Option.some.injEq, List.head?_nil, reduceCtorEq, iff_false]
      rintro rfl
      rw [h] at hc
      cases hc
  | there => rfl

theorem isPrefixOf (hs : Stopped r t) (pattern : Text) (hp : ∀ c ∈ pattern, isStop c = false) :
    pattern.isPrefixOf t = pattern.isPrefixOf r := by
  induction hs generalizing pattern with
  | @here c rest h =>
      cases pattern with
      | nil => rfl
      | cons b pattern =>
          have hne : b ≠ c := by
            rintro rfl
            have hb := hp b List.mem_cons_self
            rw [h] at hb
            cases hb
          simp [List.isPrefixOf, hne]
  | there _ ih =>
      cases pattern with
      | nil => rfl
      | cons b pattern =>
          rw [List.isPrefixOf, List.isPrefixOf, ih _ fun c hc => hp c (List.mem_cons_of_mem _ hc)]

end Stopped

variable {r t t' : Text}

/-! ### Names -/

namespace Name

theorem starts_dash (t : Text) :
    starts ('-' :: t) = t.head?.any fun c => isStart c || c == '-' || c == '\\' := by
  cases t <;> rfl

theorem starts_other {c : Char} (hdash : c ≠ '-') (hbackslash : c ≠ '\\') (t : Text) :
    starts (c :: t) = isStart c := by
  unfold starts
  split
  case h_1 e => exact absurd (List.cons.inj e).1 hdash
  case h_2 e => exact absurd (List.cons.inj e).1 hbackslash
  case h_3 e => rw [(List.cons.inj e).1]
  case h_4 e => cases e

theorem startsLine_of_stopped (hs : Stopped r t) : startsLine t = startsLine r :=
  hs.head?_any fun _ => false_of_isStop (by decide)

theorem starts_of_stopped (hs : Stopped r t) : starts t = starts r := by
  cases hs with
  | @here c rest h =>
      rcases isStop_iff.1 h with rfl | rfl | rfl
      all_goals rfl
  | @there c r t hs =>
      by_cases hdash : c = '-'
      · rw [hdash, starts_dash, starts_dash]
        refine hs.head?_any fun c hc => ?_
        rcases isStop_iff.1 hc with rfl | rfl | rfl
        all_goals rfl
      by_cases hbackslash : c = '\\'
      · subst hbackslash
        exact congrArg (!·) (startsLine_of_stopped hs)
      rw [starts_other hdash hbackslash, starts_other hdash hbackslash]

theorem escapeDigits_of_stopped (hs : Stopped r t) : escapeDigits t = escapeDigits r := by
  unfold escapeDigits
  generalize 6 = n
  induction hs generalizing n with
  | @here c rest h =>
      cases n with
      | zero => rfl
      | succ n =>
          have hc : Text.isHexDigit c = false := false_of_isStop (by decide) h
          exact List.takeWhile_cons_of_neg (by simp [hc])
  | there _ ih =>
      cases n with
      | zero => rfl
      | succ n =>
          rw [List.take_succ_cons, List.take_succ_cons, List.takeWhile_cons, List.takeWhile_cons,
            ih n]

theorem length_escapeDigits_le (t : Text) : (escapeDigits t).length ≤ t.length :=
  Nat.le_trans (List.takeWhile_prefix _).length_le (List.length_take_le' 6 t)

theorem spaceExtent_of_stopped (hs : Stopped r t) : spaceExtent t = spaceExtent r := by
  cases hs with
  | @here c rest h =>
      rcases isStop_iff.1 h with rfl | rfl | rfl
      all_goals rfl
  | @there c r t hs =>
      by_cases hreturn : c = '\r'
      · subst hreturn
        cases hs with
        | @here c rest h =>
            rcases isStop_iff.1 h with rfl | rfl | rfl
            all_goals rfl
        | @there c r t hs =>
            by_cases hfeed : c = '\n'
            · rw [hfeed]
              rfl
            · rw [spaceExtent.eq_2 _ _ (by simp [hfeed]), spaceExtent.eq_2 _ _ (by simp [hfeed])]
      · rw [spaceExtent.eq_2 _ _ (by simp [hreturn]), spaceExtent.eq_2 _ _ (by simp [hreturn])]

/-- An escape is the same before every stop.  Of a bare backslash the stop is a part. -/
theorem escapeExtent_congr (hs : Stopped r t) (hs' : Stopped r t') :
    escapeExtent t' = escapeExtent t := by
  unfold escapeExtent
  rw [escapeDigits_of_stopped hs, escapeDigits_of_stopped hs', startsLine_of_stopped hs,
    startsLine_of_stopped hs', spaceExtent_of_stopped hs, spaceExtent_of_stopped hs']
  have hdrop := hs.drop (length_escapeDigits_le r)
  have hdrop' := hs'.drop (length_escapeDigits_le r)
  have hlength := hs.length_lt
  have hlength' := hs'.length_lt
  split
  · split
    · rfl
    · omega
  · rw [spaceExtent_of_stopped hdrop, spaceExtent_of_stopped hdrop']

/-- The end of a name in front of a stop. -/
theorem extentFrom_congr {skip : Nat} (hs : Stopped r t) (hs' : Stopped r t')
    (h : extentFrom skip t ≤ r.length) : extentFrom skip t' = extentFrom skip t := by
  induction hs generalizing t' skip with
  | @here c rest hc =>
      cases skip with
      | succ skip => cases h
      | zero =>
          cases hs' with
          | @here c' rest' hc' =>
              have hname {c : Char} (hc : isStop c = true) (rest : Text) :
                  extentFrom 0 (c :: rest) = 0 := by
                rcases isStop_iff.1 hc with rfl | rfl | rfl
                all_goals rfl
              rw [hname hc, hname hc']
  | @there c r t hs ih =>
      cases hs' with
      | there hs' =>
          cases skip with
          | succ skip => exact congrArg (· + 1) (ih hs' (Nat.le_of_succ_le_succ h))
          | zero =>
              rw [extentFrom] at h ⊢
              rw [extentFrom, escapeExtent_congr hs hs', startsLine_of_stopped hs,
                startsLine_of_stopped hs']
              rw [startsLine_of_stopped hs] at h
              split
              case isTrue hbackslash =>
                rw [if_pos hbackslash] at h
                split
                case isTrue => rfl
                case isFalse hline =>
                  rw [if_neg hline] at h
                  rw [ih hs' (Nat.le_of_succ_le_succ h)]
              case isFalse hbackslash =>
                rw [if_neg hbackslash] at h
                split
                case isTrue hplain =>
                  rw [if_pos hplain] at h
                  rw [ih hs' (Nat.le_of_succ_le_succ h)]
                case isFalse => rfl

end Name

/-! ### Numbers -/

namespace Token

theorem digitsExtent_of_stopped (hs : Stopped r t) : digitsExtent t = digitsExtent r :=
  congrArg List.length (hs.takeWhile fun _ => false_of_isStop (by decide))

theorem digitsExtent_le (t : Text) : digitsExtent t ≤ t.length :=
  (List.takeWhile_prefix _).length_le

theorem fractionExtent_of_stopped (hs : Stopped r t) : fractionExtent t = fractionExtent r := by
  cases hs with
  | @here c rest h =>
      rcases isStop_iff.1 h with rfl | rfl | rfl
      all_goals rfl
  | @there c r t hs =>
      by_cases hpoint : c = '.'
      · subst hpoint
        rw [fractionExtent, fractionExtent, digitsExtent_of_stopped hs]
      · rw [fractionExtent.eq_2 _ (by simp [hpoint]), fractionExtent.eq_2 _ (by simp [hpoint])]

theorem fractionExtent_le (t : Text) : fractionExtent t ≤ t.length := by
  unfold fractionExtent
  split
  case h_1 rest =>
    have h := digitsExtent_le rest
    split
    · exact Nat.zero_le _
    · exact Nat.succ_le_succ h
  case h_2 => exact Nat.zero_le _

theorem signExtent_of_stopped (hs : Stopped r t) : signExtent t = signExtent r := by
  unfold signExtent
  rw [hs.head?_any fun _ => false_of_isStop (by decide)]

theorem signExtent_le (t : Text) : signExtent t ≤ t.length := by
  unfold signExtent
  cases t with
  | nil => exact Nat.le_refl 0
  | cons c t => split <;> simp

theorem exponentExtent_of_stopped (hs : Stopped r t) : exponentExtent t = exponentExtent r := by
  cases hs with
  | @here c rest h =>
      rcases isStop_iff.1 h with rfl | rfl | rfl
      all_goals rfl
  | @there c r t hs =>
      have hdrop := hs.drop (signExtent_le r)
      simp only [exponentExtent, signExtent_of_stopped hs, digitsExtent_of_stopped hdrop]

theorem exponentExtent_le (t : Text) : exponentExtent t ≤ t.length := by
  unfold exponentExtent
  split
  case h_1 c rest =>
    have hsign := signExtent_le rest
    have hdigits := digitsExtent_le (rest.drop (signExtent rest))
    rw [List.length_drop] at hdigits
    dsimp only
    split
    · rw [List.length_cons]
      omega
    · exact Nat.zero_le _
  case h_2 => exact Nat.le_refl 0

/-- How many characters a number takes without its unit. -/
def unitlessExtent (t : Text) : Nat :=
  let sign := signExtent t
  let whole := sign + digitsExtent (t.drop sign)
  let fraction := whole + fractionExtent (t.drop whole)
  fraction + exponentExtent (t.drop fraction)

theorem numberExtent_eq (t : Text) :
    numberExtent t = unitlessExtent t + unitExtent (t.drop (unitlessExtent t)) := rfl

theorem unitlessExtent_le (t : Text) : unitlessExtent t ≤ t.length := by
  have hsign := signExtent_le t
  have hwhole := digitsExtent_le (t.drop (signExtent t))
  have hfraction := fractionExtent_le (t.drop (signExtent t + digitsExtent (t.drop (signExtent t))))
  have hexponent := exponentExtent_le (t.drop (signExtent t +
    digitsExtent (t.drop (signExtent t)) +
      fractionExtent (t.drop (signExtent t + digitsExtent (t.drop (signExtent t))))))
  simp only [List.length_drop] at hwhole hfraction hexponent
  simp only [unitlessExtent]
  omega

theorem unitlessExtent_of_stopped (hs : Stopped r t) : unitlessExtent t = unitlessExtent r := by
  have hsign := signExtent_le r
  have hwhole := digitsExtent_le (r.drop (signExtent r))
  have hfraction := fractionExtent_le (r.drop (signExtent r + digitsExtent (r.drop (signExtent r))))
  simp only [List.length_drop] at hwhole hfraction
  simp only [unitlessExtent, signExtent_of_stopped hs, digitsExtent_of_stopped (hs.drop hsign)]
  rw [fractionExtent_of_stopped (hs.drop (by omega)),
    exponentExtent_of_stopped (hs.drop (by omega))]

theorem unitExtent_congr (hs : Stopped r t) (hs' : Stopped r t') (h : unitExtent t ≤ r.length) :
    unitExtent t' = unitExtent t := by
  unfold unitExtent at h ⊢
  simp only [hs.head?_eq (c := '%') (by decide), hs'.head?_eq (c := '%') (by decide),
    Name.starts_of_stopped hs, Name.starts_of_stopped hs'] at h ⊢
  split
  case isTrue => rfl
  case isFalse hpercent =>
    rw [if_neg hpercent] at h
    split
    case isTrue hstarts =>
      rw [if_pos hstarts] at h
      exact Name.extentFrom_congr hs hs' h
    case isFalse => rfl

theorem numberExtent_congr (hs : Stopped r t) (hs' : Stopped r t')
    (h : numberExtent t ≤ r.length) : numberExtent t' = numberExtent t := by
  have hle := unitlessExtent_le r
  rw [numberExtent_eq, unitlessExtent_of_stopped hs] at h
  rw [numberExtent_eq, numberExtent_eq, unitlessExtent_of_stopped hs,
    unitlessExtent_of_stopped hs', unitExtent_congr (hs.drop hle) (hs'.drop hle)]
  rw [List.length_drop]
  omega

theorem startsNumber_of_stopped (hs : Stopped r t) : startsNumber t = startsNumber r := by
  have hdrop := hs.drop (signExtent_le r)
  simp only [startsNumber, signExtent_of_stopped hs, digitsExtent_of_stopped hdrop,
    fractionExtent_of_stopped hdrop]

/-! ### Comments and strings -/

theorem commentExtent_cons (c : Char) (t : Text) :
    commentExtent (c :: t) =
      if c = '*' ∧ t.head? = some '/' then 2 else commentExtent t + 1 := by
  split
  case isTrue h =>
    obtain ⟨rfl, hslash⟩ := h
    obtain ⟨t, rfl⟩ := List.head?_eq_some_iff.1 hslash
    rfl
  case isFalse h =>
    refine commentExtent.eq_3 c t ?_
    rintro tail rfl rfl
    exact h ⟨rfl, rfl⟩

/-- A comment that ends in front of a stop. -/
theorem commentExtent_congr (hs : Stopped r t) (hs' : Stopped r t')
    (h : commentExtent t ≤ r.length) : commentExtent t' = commentExtent t := by
  induction hs generalizing t' with
  | @here c rest hc =>
      rw [commentExtent_cons, if_neg] at h
      · cases h
      · rintro ⟨rfl, -⟩
        cases hc
  | @there c r t hs ih =>
      cases hs' with
      | there hs' =>
          rw [commentExtent_cons] at h
          simp only [commentExtent_cons, hs.head?_eq (c := '/') (by decide),
            hs'.head?_eq (c := '/') (by decide)] at h ⊢
          split
          case isTrue => rfl
          case isFalse hend =>
            rw [if_neg hend] at h
            rw [ih hs' (Nat.le_of_succ_le_succ h)]

/-- A string that ends in front of a stop. -/
theorem stringExtent_congr {quote : Char} {skip : Nat} (hquote : isStop quote = false)
    (hs : Stopped r t) (hs' : Stopped r t') (h : stringExtent quote skip t ≤ r.length) :
    stringExtent quote skip t' = stringExtent quote skip t ∧
      stringBreaks quote skip t' = stringBreaks quote skip t := by
  induction hs generalizing t' skip with
  | @here c rest hc =>
      -- a stop is a part of the string
      have hne : c ≠ quote := by
        rintro rfl
        rw [hc] at hquote
        cases hquote
      have hline : isNewline c = false := false_of_isStop (by decide) hc
      exfalso
      cases skip with
      | succ skip => cases h
      | zero =>
          rw [stringExtent, if_neg hne, hline, if_neg Bool.false_ne_true] at h
          split at h <;> cases h
  | @there c r t hs ih =>
      cases hs' with
      | there hs' =>
          cases skip with
          | succ skip =>
              obtain ⟨hextent, hbreaks⟩ := ih hs' (Nat.le_of_succ_le_succ h)
              exact ⟨congrArg (· + 1) hextent, hbreaks⟩
          | zero =>
              simp only [stringExtent, stringBreaks, Name.escapeExtent_congr hs hs'] at h ⊢
              split
              case isTrue => exact ⟨rfl, rfl⟩
              case isFalse hend =>
                rw [if_neg hend] at h
                split
                case isTrue => exact ⟨rfl, rfl⟩
                case isFalse hline =>
                  rw [if_neg hline] at h
                  split
                  case isTrue hbackslash =>
                    rw [if_pos hbackslash] at h
                    obtain ⟨hextent, hbreaks⟩ := ih hs' (Nat.le_of_succ_le_succ h)
                    exact ⟨congrArg (· + 1) hextent, hbreaks⟩
                  case isFalse hbackslash =>
                    rw [if_neg hbackslash] at h
                    obtain ⟨hextent, hbreaks⟩ := ih hs' (Nat.le_of_succ_le_succ h)
                    exact ⟨congrArg (· + 1) hextent, hbreaks⟩

/-! ### URLs -/

/-- What a backslash may take along in a malformed URL. -/
def EscapesInUrl (c : Char) (t : Text) : Prop :=
  c = '\\' ∧ (t.head? = some ')' ∨ t.head? = some '\\')

instance (c : Char) (t : Text) : Decidable (EscapesInUrl c t) := inferInstanceAs (Decidable (_ ∧ _))

theorem badUrlExtent_cons (c : Char) (t : Text) :
    badUrlExtent (c :: t) =
      if EscapesInUrl c t then badUrlExtent t.tail + 2
      else if c = ')' then 1 else badUrlExtent t + 1 := by
  split
  case isTrue h =>
    obtain ⟨rfl, h | h⟩ := h
    all_goals
      obtain ⟨t, rfl⟩ := List.head?_eq_some_iff.1 h
      rfl
  case isFalse h =>
    refine badUrlExtent.eq_4 c t ?_ ?_
    · rintro tail rfl rfl
      exact h ⟨rfl, .inl rfl⟩
    · rintro tail rfl rfl
      exact h ⟨rfl, .inr rfl⟩

theorem escapesInUrl_of_stopped (hs : Stopped r t) (c : Char) :
    EscapesInUrl c t ↔ EscapesInUrl c r := by
  unfold EscapesInUrl
  rw [hs.head?_eq (c := ')') (by decide), hs.head?_eq (c := '\\') (by decide)]

/-- A malformed URL that ends in front of a stop. -/
theorem badUrlExtent_congr (hs : Stopped r t) (hs' : Stopped r t')
    (h : badUrlExtent t ≤ r.length) : badUrlExtent t' = badUrlExtent t := by
  induction hn : r.length using Nat.strongRecOn generalizing r t t' with
  | ind n ih =>
      subst hn
      cases hs with
      | @here c rest hc =>
          rcases isStop_iff.1 hc with rfl | rfl | rfl
          all_goals cases h
      | @there c r t hs =>
          cases hs' with
          | there hs' =>
              rw [badUrlExtent_cons] at h
              simp only [badUrlExtent_cons, escapesInUrl_of_stopped hs,
                escapesInUrl_of_stopped hs'] at h ⊢
              split
              case isTrue hescape =>
                rw [if_pos hescape] at h
                -- the escaped character stands in front of the stop
                cases hs with
                | here => obtain ⟨-, h | h⟩ := hescape <;> cases h
                | there hs =>
                    cases hs' with
                    | there hs' =>
                        simp only [List.tail_cons, List.length_cons] at h ih ⊢
                        rw [ih _ (by omega) hs hs' (by omega) rfl]
              case isFalse hescape =>
                rw [if_neg hescape] at h
                split
                case isTrue => rfl
                case isFalse hclose =>
                  rw [if_neg hclose] at h
                  rw [ih _ (by simp) hs hs' (Nat.le_of_succ_le_succ h) rfl]

/-- The end of a URL behind its address, in front of a stop. -/
theorem urlEndExtent_congr (hs : Stopped r t) (hs' : Stopped r t')
    (h : urlEndExtent t ≤ r.length) : urlEndExtent t' = urlEndExtent t := by
  cases hs with
  | @here c rest hc =>
      rcases isStop_iff.1 hc with rfl | rfl | rfl
      all_goals cases h
  | @there c r t hs =>
      cases hs' with
      | there hs' =>
          simp only [urlEndExtent] at h ⊢
          split
          case isTrue => rfl
          case isFalse hclose =>
            rw [if_neg hclose] at h
            rw [badUrlExtent_congr hs hs' (Nat.le_of_succ_le_succ h)]

/-- The end of a URL behind the blanks after its address, in front of a stop. -/
theorem urlBlank_congr (hs : Stopped r t) (hs' : Stopped r t')
    (h : urlEndExtent (t.drop (r.takeWhile isSpace).length) + (r.takeWhile isSpace).length ≤
      r.length) :
    urlEndExtent (t'.drop (r.takeWhile isSpace).length) =
        urlEndExtent (t.drop (r.takeWhile isSpace).length) ∧
      (t'.dropWhile isSpace).head?.any (· ≠ ')') = (t.dropWhile isSpace).head?.any (· ≠ ')') := by
  have hspaces : (r.takeWhile isSpace).length ≤ r.length := (List.takeWhile_prefix _).length_le
  constructor
  · refine urlEndExtent_congr (hs.drop hspaces) (hs'.drop hspaces) ?_
    rw [List.length_drop]
    omega
  · refine (hs.dropWhile not_isSpace_of_isStop).head?_any_congr
      (hs'.dropWhile not_isSpace_of_isStop) fun c hc => ?_
    rcases isStop_iff.1 hc with rfl | rfl | rfl
    all_goals rfl

/-- An address that ends in front of a stop, with its URL. -/
theorem urlBody_congr {skip : Nat} (hs : Stopped r t) (hs' : Stopped r t')
    (h : urlBodyExtent skip t ≤ r.length) :
    urlBodyExtent skip t' = urlBodyExtent skip t ∧ urlBreaks skip t' = urlBreaks skip t := by
  induction hs generalizing t' skip with
  | @here c rest hc =>
      exfalso
      cases skip with
      | succ skip => cases h
      | zero =>
          rcases isStop_iff.1 hc with rfl | rfl | rfl
          all_goals cases h
  | @there c r t hs ih =>
      cases hs' with
      | @there _ _ t' hs' =>
          cases skip with
          | succ skip =>
              obtain ⟨hextent, hbreaks⟩ := ih hs' (Nat.le_of_succ_le_succ h)
              exact ⟨congrArg (· + 1) hextent, hbreaks⟩
          | zero =>
              simp only [urlBodyExtent, urlBreaks, Name.escapeExtent_congr hs hs',
                Name.startsLine_of_stopped hs, Name.startsLine_of_stopped hs',
                hs.takeWhile not_isSpace_of_isStop, hs'.takeWhile not_isSpace_of_isStop] at h ⊢
              split
              case isTrue => exact ⟨rfl, rfl⟩
              case isFalse hclose =>
                rw [if_neg hclose] at h
                split
                case isTrue hblank =>
                  rw [if_pos hblank] at h
                  obtain ⟨hend, hbreaks⟩ := urlBlank_congr hs hs' (Nat.le_of_succ_le_succ h)
                  exact ⟨by rw [hend], hbreaks⟩
                case isFalse hblank =>
                  rw [if_neg hblank] at h
                  split
                  case isTrue hbad =>
                    rw [if_pos hbad] at h
                    rw [badUrlExtent_congr hs hs' (Nat.le_of_succ_le_succ h)]
                    exact ⟨rfl, rfl⟩
                  case isFalse hbad =>
                    rw [if_neg hbad] at h
                    split
                    case isTrue hbackslash =>
                      rw [if_pos hbackslash] at h
                      split
                      case isTrue hline =>
                        rw [if_pos hline] at h
                        rw [badUrlExtent_congr hs hs' (Nat.le_of_succ_le_succ h), hline]
                        exact ⟨rfl, rfl⟩
                      case isFalse hline =>
                        rw [if_neg hline] at h
                        obtain ⟨hextent, hbreaks⟩ := ih hs' (Nat.le_of_succ_le_succ h)
                        rw [hextent, hbreaks]
                        exact ⟨rfl, rfl⟩
                    case isFalse hbackslash =>
                      rw [if_neg hbackslash] at h
                      obtain ⟨hextent, hbreaks⟩ := ih hs' (Nat.le_of_succ_le_succ h)
                      exact ⟨congrArg (· + 1) hextent, hbreaks⟩

theorem url?_congr (hs : Stopped r t) (hs' : Stopped r t')
    (h : ∀ token extent, url? t = some (token, extent) → extent ≤ r.length) : url? t' = url? t := by
  have hspaces : (r.takeWhile isSpace).length ≤ r.length := (List.takeWhile_prefix _).length_le
  have hdrop := hs.drop hspaces
  have hdrop' := hs'.drop hspaces
  have hquote : ∀ c, isStop c = true → (c == '\x22' || c == '\x27') = false :=
    fun _ => false_of_isStop (p := fun c => c == '\x22' || c == '\x27') (by decide)
  simp only [url?, hs.takeWhile not_isSpace_of_isStop, hs'.takeWhile not_isSpace_of_isStop,
    hdrop.head?_any hquote, hdrop'.head?_any hquote] at h ⊢
  split
  case isTrue => rfl
  case isFalse hnone =>
    rw [if_neg hnone] at h
    have hle := h _ _ rfl
    obtain ⟨hextent, hbreaks⟩ := @urlBody_congr _ _ _ 0 hdrop hdrop' (by
      rw [List.length_drop]
      omega)
    rw [hextent, hbreaks]

/-! ### Tokens -/

/-- What a name before an opening parenthesis may be. -/
theorem named_of_open {t rest : Text} {length : Nat} (h : t.drop length = '(' :: rest) :
    named t length =
      match if Text.sameLetters (Name.value (t.take length)) "url".toList then url? rest
        else none with
      | some (token, address) => (token, length + 1 + address)
      | none => (.opening .round, length + 1) := by
  rw [named, h]
  rfl

theorem named_of_not_open {t : Text} {length : Nat} (h : (t.drop length).head? ≠ some '(') :
    named t length = (.ident (Name.value (t.take length)), length) := by
  unfold named
  split
  case h_1 e =>
    rw [e] at h
    exact absurd rfl h
  case h_2 => rfl

/-- A name and what it opens, in front of a stop. -/
theorem named_congr {length : Nat} (hs : Stopped r t) (hs' : Stopped r t')
    (hlength : length ≤ r.length) (h : (named t length).2 ≤ r.length) :
    named t' length = named t length := by
  have hdrop := hs.drop hlength
  have hdrop' := hs'.drop hlength
  by_cases hopen : (r.drop length).head? = some '('
  · obtain ⟨rest, hrest⟩ := List.head?_eq_some_iff.1 hopen
    rw [hrest] at hdrop hdrop'
    have hroom : rest.length + (length + 1) = r.length := by
      rw [← List.take_append_drop length r, List.length_append, hrest]
      simp [hlength]
      omega
    generalize hu : t.drop length = u at hdrop
    generalize hu' : t'.drop length = u' at hdrop'
    cases hdrop with
    | there hdrop =>
        cases hdrop' with
        | there hdrop' =>
            rw [named_of_open hu, hs.take hlength] at h
            rw [named_of_open hu, named_of_open hu', hs.take hlength, hs'.take hlength]
            by_cases hurl : Text.sameLetters (Name.value (r.take length)) "url".toList = true
            · rw [if_pos hurl] at h
              rw [if_pos hurl, if_pos hurl, url?_congr hdrop hdrop']
              intro token address haddress
              rw [haddress] at h
              simp only at h
              omega
            · rw [if_neg hurl, if_neg hurl]
  · rw [named_of_not_open, named_of_not_open, hs.take hlength, hs'.take hlength]
    · rwa [Ne, hdrop.head?_eq (by decide)]
    · rwa [Ne, hdrop'.head?_eq (by decide)]

theorem le_named (t : Text) (length : Nat) : length ≤ (named t length).2 := by
  by_cases hopen : (t.drop length).head? = some '('
  · obtain ⟨rest, hrest⟩ := List.head?_eq_some_iff.1 hopen
    rw [named_of_open hrest]
    split
    · exact Nat.le_trans (Nat.le_succ length) (Nat.le_add_right _ _)
    · exact Nat.le_succ length
  · exact Nat.le_of_eq (congrArg Prod.snd (named_of_not_open hopen)).symm

/-- Where one case of two is taken, its extent is the extent of the whole. -/
theorem ite_congr_of_le {P : Prop} [Decidable P] {a b a' b' : Token × Nat} {n : Nat}
    (h : (if P then a else b).2 ≤ n) (ha : P → a.2 ≤ n → a' = a) (hb : ¬P → b.2 ≤ n → b' = b) :
    (if P then a' else b') = if P then a else b := by
  split
  case isTrue hp =>
    rw [if_pos hp] at h
    exact ha hp h
  case isFalse hp =>
    rw [if_neg hp] at h
    exact hb hp h

/-- A token in front of a stop is the same before every stop. -/
theorem tokenAt_congr {c : Char} (hs : Stopped r t) (hs' : Stopped r t')
    (h : (tokenAt c t).2 ≤ r.length) : tokenAt c t' = tokenAt c t := by
  have hplain : ∀ c, isStop c = true → Name.isPlain c = false :=
    fun _ => false_of_isStop (by decide)
  have hopen : ∀ c ∈ "!--".toList, isStop c = false := by simp [isStop]
  have hclose : ∀ c ∈ "->".toList, isStop c = false := by simp [isStop]
  -- what decides between the kinds of token stands in front of the stop
  simp only [tokenAt, hs.takeWhile not_isSpace_of_isStop, hs'.takeWhile not_isSpace_of_isStop,
    hs.head?_any hplain, hs'.head?_any hplain,
    Name.starts_of_stopped hs, Name.starts_of_stopped hs',
    Name.starts_of_stopped hs.there, Name.starts_of_stopped hs'.there,
    startsNumber_of_stopped hs.there, startsNumber_of_stopped hs'.there,
    hs.head?_eq (c := '*') (by decide), hs'.head?_eq (c := '*') (by decide),
    hs.head?_eq (c := '=') (by decide), hs'.head?_eq (c := '=') (by decide),
    hs.isPrefixOf "!--".toList hopen, hs'.isPrefixOf "!--".toList hopen,
    hs.isPrefixOf "->".toList hclose, hs'.isPrefixOf "->".toList hclose] at h ⊢
  refine ite_congr_of_le h (fun _ _ => rfl) fun _ h => ?_
  refine ite_congr_of_le h (fun hquote h => ?_) fun _ h => ?_
  · -- a string
    have hc : isStop c = false := by
      simp only [Bool.or_eq_true, decide_eq_true_eq] at hquote
      rcases hquote with rfl | rfl
      all_goals rfl
    obtain ⟨hextent, hbreaks⟩ := stringExtent_congr hc hs hs' h
    rw [hextent, hbreaks]
  refine ite_congr_of_le h (fun _ h => ?_) fun _ h => ?_
  · -- a hash
    refine ite_congr_of_le h (fun _ h => ?_) fun _ _ => rfl
    rw [show Name.extent t' = Name.extent t from Name.extentFrom_congr hs hs' h]
  refine ite_congr_of_le h (fun _ h => ?_) fun _ h => ?_
  · -- an at-keyword
    refine ite_congr_of_le h (fun _ h => ?_) fun _ _ => rfl
    rw [show Name.extent t' = Name.extent t from Name.extentFrom_congr hs hs' h, hs.take h,
      hs'.take h]
  refine ite_congr_of_le h (fun hcomment h => ?_) fun _ h => ?_
  · -- a comment
    simp only [Bool.and_eq_true, decide_eq_true_eq] at hcomment
    obtain ⟨r, rfl⟩ := List.head?_eq_some_iff.1 hcomment.2
    have hdrop := hs.drop (n := 1) (Nat.succ_pos _)
    have hdrop' := hs'.drop (n := 1) (Nat.succ_pos _)
    rw [commentExtent_congr hdrop hdrop' (Nat.le_of_succ_le_succ h)]
  refine ite_congr_of_le h (fun _ _ => rfl) fun _ h => ?_
  refine ite_congr_of_le h (fun _ h => ?_) fun _ h => ?_
  · -- a number
    rw [numberExtent_congr hs.there hs'.there]
    rw [List.length_cons]
    dsimp only at h
    omega
  refine ite_congr_of_le h (fun _ _ => rfl) fun _ h => ?_
  refine ite_congr_of_le h (fun _ h => ?_) fun _ _ => rfl
  -- a name
  have hle : (named (c :: t) (Name.extent (c :: t))).2 ≤ (c :: r).length := by
    rw [List.length_cons]
    dsimp only at h
    omega
  have hlength := Nat.le_trans (le_named _ _) hle
  rw [show Name.extent (c :: t') = Name.extent (c :: t) from
    Name.extentFrom_congr hs.there hs'.there hlength, named_congr hs.there hs'.there hlength hle]

end Token

end StyleSieve.Css
