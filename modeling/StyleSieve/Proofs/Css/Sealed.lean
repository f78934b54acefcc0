import StyleSieve.Proofs.Css.Ahead
import StyleSieve.Proofs.Css.Flat

/-!
# Sealed texts

A text is sealed if it closes what it opens: a semicolon behind it is a semicolon, not a part of a
string, a comment, an escape or a block (`isSealed`).  What a sealed text is read as depends neither
on what stands behind it, if that starts with a stop, nor on the blocks around it, if these have
curly brackets.

* `Lexeme.bareOf_append_stop`: one stop behind a text decides what every other does.
* `Nesting.On.foldl`: what is read within blocks.
* `sealed_spec`: what a sealed text is read as.
-/

namespace StyleSieve.Css

/-! ### What stands behind a text -/

namespace Token

/-- Whether a space, a semicolon or a closing curly bracket can start with a character. -/
def startsWith : Token → Char → Bool
  | .space, c => isSpace c
  | .semicolon, c => c == ';'
  | .closing .curly, c => c == '}'
  | _, _ => true

theorem startsWith_named (t : Text) (length : Nat) (c : Char) :
    (named t length).1.startsWith c = true := by
  by_cases hopen : (t.drop length).head? = some '('
  · obtain ⟨rest, hrest⟩ := List.head?_eq_some_iff.1 hopen
    rw [named_of_open hrest]
    split
    case h_1 token address hurl =>
      obtain ⟨-, hurl⟩ := Option.ite_none_right_eq_some.1 hurl
      unfold url? at hurl
      dsimp only at hurl
      split at hurl
      · cases hurl
      · rw [← (Prod.mk.inj (Option.some.inj hurl)).1]
        split <;> rfl
    case h_2 => rfl
  · rw [named_of_not_open hopen]
    rfl

theorem startsWith_tokenAt (c : Char) (t : Text) : (tokenAt c t).1.startsWith c = true := by
  have step {P : Prop} [Decidable P] {a b : Token × Nat} (ha : P → a.1.startsWith c = true)
      (hb : b.1.startsWith c = true) : (if P then a else b).1.startsWith c = true := by
    split
    · exact ha ‹P›
    · exact hb
  unfold tokenAt
  refine step id (step (fun _ => ?_) (step (fun _ => ?_) (step (fun _ => ?_) (step (fun _ => rfl)
    (step (fun _ => rfl) (step (fun _ => rfl) (step (fun _ => rfl) (step (fun _ => ?_) ?_))))))))
  · dsimp only
    split <;> rfl
  · split <;> rfl
  · split <;> rfl
  · exact startsWith_named _ _ c
  · split
    case h_10 => split <;> rfl
    all_goals rfl

end Token

namespace Lexeme

theorem exists_of_mem_bareOf {t : Text} {l : Lexeme} (h : l ∈ bareOf t) :
    ∃ c rest, l = ⟨(Token.tokenAt c rest).1, c :: rest.take (Token.tokenAt c rest).2, {}⟩ := by
  induction t using textInduction with
  | nil => cases h
  | cons c t ih =>
      rw [bareOf_cons] at h
      rcases List.mem_cons.1 h with rfl | h
      · exact ⟨c, t, rfl⟩
      · exact ih h

/-- A semicolon without its place. -/
def semicolon : Lexeme := ⟨.semicolon, [';'], {}⟩

/-- A closing curly bracket without its place. -/
def closing : Lexeme := ⟨.closing .curly, ['}'], {}⟩

theorem eq_semicolon {t : Text} {l : Lexeme} (h : l ∈ bareOf t) (htoken : l.token = .semicolon) :
    l = semicolon := by
  obtain ⟨c, rest, rfl⟩ := exists_of_mem_bareOf h
  have hstart := Token.startsWith_tokenAt c rest
  dsimp only at htoken
  rw [htoken] at hstart
  obtain rfl := beq_iff_eq.1 hstart
  rfl

theorem eq_closing {t : Text} {l : Lexeme} (h : l ∈ bareOf t)
    (htoken : l.token = .closing .curly) : l = closing := by
  obtain ⟨c, rest, rfl⟩ := exists_of_mem_bareOf h
  have hstart := Token.startsWith_tokenAt c rest
  dsimp only at htoken
  rw [htoken] at hstart
  obtain rfl := beq_iff_eq.1 hstart
  rfl

/-- If a stop behind a text is read as it is elsewhere, then any stop is. -/
theorem bareOf_append_stop {t : Text} {ls : List Lexeme} {c d : Char} {rest more : Text}
    (hc : isStop c = true) (hd : isStop d = true)
    (h : bareOf (t ++ c :: rest) = ls ++ bareOf (c :: rest)) :
    bareOf (t ++ d :: more) = ls ++ bareOf (d :: more) := by
  induction hn : t.length using Nat.strongRecOn generalizing t ls with
  | ind n ih =>
      subst hn
      have htext : ls.flatMap text = t := by
        have h := congrArg (List.flatMap text) h
        rw [List.flatMap_append, flatMap_text_bareOf, flatMap_text_bareOf] at h
        exact (List.append_cancel_right h).symm
      cases t with
      | nil =>
          have hls : ls = [] := by
            have hlength := congrArg List.length h
            rw [List.length_append, List.nil_append] at hlength
            exact List.length_eq_zero_iff.1 (by omega)
          rw [hls]
          rfl
      | cons b t =>
          rw [List.cons_append, bareOf_cons] at h
          cases ls with
          | nil => cases htext
          | cons l ls =>
              -- the first lexeme is a part of the text
              obtain ⟨hl, hrest⟩ := List.cons.inj h
              have hlength : l.text.length ≤ (b :: t).length := by
                rw [← htext, List.flatMap_cons, List.length_append]
                exact Nat.le_add_right _ _
              have hle : (Token.tokenAt b (t ++ c :: rest)).2 ≤ t.length := by
                rw [← hl] at hlength
                simp only [List.length_cons, List.length_take, List.length_append] at hlength
                omega
              rw [List.take_append_of_le_length hle] at hl
              rw [List.drop_append_of_le_length hle] at hrest
              have htoken : Token.tokenAt b (t ++ d :: more) = Token.tokenAt b (t ++ c :: rest) :=
                Token.tokenAt_congr (.append t rest hc) (.append t more hd) hle
              have hmore := ih _ (by rw [List.length_drop, List.length_cons]; omega) hrest rfl
              rw [List.cons_append, bareOf_cons, htoken, List.drop_append_of_le_length hle,
                List.take_append_of_le_length hle, hmore, hl, List.cons_append]

end Lexeme

/-! ### Blocks around a text -/

namespace Component

/-- What is read within the blocks of `n`: the components at its own level, below all that it has
opened itself. -/
inductive Nesting.On (n : Nesting) : (own all : Nesting) → Prop where
  | level (cs : List Component) : On n ⟨cs, []⟩ ⟨cs ++ n.level, n.outer⟩
  | block {own all : Nesting} (opening : Lexeme) (cs : List Component) : On n own all →
      On n ⟨cs, ⟨opening, own.level⟩ :: own.outer⟩ ⟨cs, ⟨opening, all.level⟩ :: all.outer⟩

/-- No block is open, or the innermost one has a curly bracket. -/
def Nesting.InCurly (n : Nesting) : Prop := ∀ p ∈ n.outer.head?, p.opening.token = .opening .curly

/-- The outermost level. -/
def Nesting.base (n : Nesting) : List Component :=
  (n.outer.getLast?.map Pending.before).getD n.level

namespace Nesting

variable {n own all : Nesting}

theorem base_cons (level : List Component) (opening : Lexeme) (before : List Component)
    (outer : List Pending) :
    base ⟨level, ⟨opening, before⟩ :: outer⟩ = base ⟨before, outer⟩ := by
  cases outer <;> simp [base, List.getLast?_cons]

theorem base_push (n : Nesting) (c : Component) : n.base <:+ (n.push c).base := by
  obtain ⟨level, outer⟩ := n
  cases outer with
  | nil => exact List.suffix_cons c level
  | cons p outer => simp [base, push, List.getLast?_cons]

theorem base_step (n : Nesting) (l : Lexeme) : n.base <:+ (n.step l).base := by
  obtain ⟨level, outer⟩ := n
  unfold step
  split
  case h_1 => cases outer <;> simp [base, List.getLast?_cons]
  case h_2 =>
    dsimp only
    split
    case h_1 opening before outer =>
      split
      · rw [base_cons]
        exact base_push ⟨before, outer⟩ _
      · exact base_push _ _
    case h_2 => exact base_push _ _
  case h_3 => exact base_push _ _

theorem base_foldl (ls : List Lexeme) (n : Nesting) : n.base <:+ (ls.foldl step n).base := by
  induction ls generalizing n with
  | nil => exact List.suffix_refl _
  | cons l ls ih => exact (base_step n l).trans (ih (n.step l))

theorem On.push (h : On n own all) (c : Component) : On n (own.push c) (all.push c) := by
  cases h with
  | level cs => exact .level (c :: cs)
  | block opening cs h => exact .block opening (c :: cs) h

theorem On.step (h : On n own all) (hn : n.InCurly) {l : Lexeme}
    (hbase : n.outer ≠ [] → ∀ c ∈ (own.step l).base, c.is (.closing .curly) = false) :
    On n (own.step l) (all.step l) := by
  unfold Nesting.step at hbase ⊢
  cases htoken : l.token with
  | opening bracket => exact .block l [] h
  | closing bracket =>
      cases h with
      | level cs =>
          cases houter : n.outer with
          | nil =>
              have h := On.level (n := n) (.leaf l :: cs)
              rw [houter] at h
              exact h
          | cons p outer =>
              -- a bracket that closed a block of `n` would stand at the base
              have hbracket : bracket ≠ .curly := by
                have h := hbase (by simp [houter]) (.leaf l) <| by
                  rw [htoken]
                  exact List.mem_cons_self
                rintro rfl
                simp [is, token?, htoken] at h
              have hp : p.opening.token ≠ .opening bracket := by
                rw [hn p (by rw [houter]; rfl)]
                simpa using hbracket.symm
              have h := On.level (n := n) (.leaf l :: cs)
              rw [houter] at h
              dsimp only
              rw [if_neg hp]
              exact h
      | block opening cs h =>
          dsimp only
          split
          · exact h.push _
          · exact (On.block opening cs h).push _
  | _ => exact h.push _

theorem On.foldl (h : On n own all) (hn : n.InCurly) {ls : List Lexeme}
    (hbase : n.outer ≠ [] →
      ∀ c ∈ (ls.foldl Nesting.step own).base, c.is (.closing .curly) = false) :
    On n (ls.foldl Nesting.step own) (ls.foldl Nesting.step all) := by
  induction ls generalizing own all with
  | nil => exact h
  | cons l ls ih =>
      refine ih (h.step hn fun houter c hc => hbase houter c ?_) hbase
      exact (base_foldl ls _).subset hc

end Nesting

/-! ### Sealed texts -/

/-- The components of a text that a semicolon ends. -/
def ended (t : Text) : List Component := (bareOf (ofText (t ++ [';']))).dropLast

/-- A semicolon behind the text is one, and no bracket in the text ends a block around it. -/
def isSealed (t : Text) : Bool :=
  (bareOf (ofText (t ++ [';']))).getLast?.any isSemicolon &&
    (ended t).all fun c => !c.is (.closing .curly)

theorem Nesting.getLast?_close (stop : Place) (level : List Component) (p : Pending)
    (outer : List Pending) :
    ∃ opening cs,
      (close stop level (p :: outer)).getLast? = some (.block opening cs none stop) := by
  induction outer generalizing level p with
  | nil => exact ⟨p.opening, level.reverse, by simp [close]⟩
  | cons q outer ih => exact ih _ q

/-- The component that is read last, outside blocks, is the last lexeme, or a block that it
closes. -/
theorem Nesting.eq_of_step {n : Nesting} {l : Lexeme} {c : Component} {cs : List Component}
    (h : n.step l = ⟨c :: cs, []⟩) :
    n = ⟨cs, []⟩ ∧ c = .leaf l ∨
      ∃ opening bracket, c = .block opening n.level.reverse (some l) l.start ∧
        opening.token = .opening bracket ∧ l.token = .closing bracket := by
  have hpush (h : n.push (.leaf l) = ⟨c :: cs, []⟩) : n = ⟨cs, []⟩ ∧ c = .leaf l := by
    obtain ⟨level, outer⟩ := n
    obtain ⟨hlevel, rfl⟩ := Nesting.mk.inj h
    obtain ⟨rfl, rfl⟩ := List.cons.inj hlevel
    exact ⟨rfl, rfl⟩
  unfold step at h
  split at h
  case h_1 => cases h
  case h_2 bracket htoken =>
    split at h
    case h_1 opening before outer _ =>
      split at h
      case isTrue hopening =>
        obtain ⟨rfl, -⟩ := List.cons.inj (Nesting.mk.inj h).1
        exact .inr ⟨opening, bracket, rfl, hopening, htoken⟩
      case isFalse => exact .inl (hpush h)
    case h_2 => exact .inl (hpush h)
  case h_3 => exact .inl (hpush h)

/-- What is read last has a last lexeme. -/
theorem Nesting.exists_of_fold {ls : List Lexeme} {c : Component} {cs : List Component}
    (h : ls.foldl step {} = ⟨c :: cs, []⟩) :
    ∃ ms l, ls = ms ++ [l] ∧ step (ms.foldl step {}) l = ⟨c :: cs, []⟩ := by
  rcases List.eq_nil_or_concat ls with rfl | ⟨ms, l, rfl⟩
  · cases h
  · refine ⟨ms, l, List.concat_eq_append, ?_⟩
    rwa [List.concat_eq_append, List.foldl_append] at h

/-- If no block is open where a text ends, all of it is at the outermost level. -/
theorem Nesting.fold_of_getLast? {ls : List Lexeme} {c : Component}
    (h : (ofLexemes ls {}).getLast? = some c) (hc : ∀ opening cs, c ≠ .block opening cs none {}) :
    ls.foldl step {} = ⟨(ofLexemes ls {}).reverse, []⟩ := by
  unfold ofLexemes at h ⊢
  generalize ls.foldl step {} = n at h ⊢
  obtain ⟨level, outer⟩ := n
  cases outer with
  | nil => simp [close]
  | cons p outer =>
      obtain ⟨opening, content, hblock⟩ := getLast?_close {} level p outer
      rw [hblock] at h
      exact absurd (Option.some.inj h).symm (hc opening content)

/-- What a sealed text is read as, whatever stands behind it and around it. -/
theorem sealed_spec {t : Text} (h : isSealed t = true) :
    textOf (ended t) = t ∧
      ∃ ls, (∀ c rest, isStop c = true →
          Lexeme.bareOf (t ++ c :: rest) = ls ++ Lexeme.bareOf (c :: rest)) ∧
        ∀ n : Nesting, n.InCurly →
          ls.foldl Nesting.step n = { n with level := (ended t).reverse ++ n.level } := by
  obtain ⟨hlast, hstray⟩ := Bool.and_eq_true_iff.1 h
  obtain ⟨c, hc, hsemi⟩ := (Option.any_eq_true _ _).1 hlast
  have hcs : bareOf (ofText (t ++ [';'])) = ofLexemes (Lexeme.bareOf (t ++ [';'])) {} :=
    bareOf_ofText _
  have hsplit : bareOf (ofText (t ++ [';'])) = ended t ++ [c] := by
    obtain ⟨cs, hcs⟩ := List.getLast?_eq_some_iff.1 hc
    rw [ended, hcs, List.dropLast_concat]
  -- no block is open where the semicolon is read, so it is the last lexeme
  have hread := Nesting.fold_of_getLast? (hcs ▸ hc) (by rintro opening cs rfl; cases hsemi)
  rw [← hcs, hsplit, List.reverse_append, List.reverse_singleton, List.singleton_append] at hread
  obtain ⟨ls, l, hls, hstep⟩ := Nesting.exists_of_fold hread
  obtain ⟨hfold, rfl⟩ : ls.foldl Nesting.step {} = ⟨(ended t).reverse, []⟩ ∧ c = .leaf l := by
    rcases Nesting.eq_of_step hstep with h | ⟨opening, bracket, rfl, -⟩
    · exact h
    · cases hsemi
  have htoken : l.token = .semicolon := by simpa [isSemicolon, is, token?] using hsemi
  obtain rfl := Lexeme.eq_semicolon (hls ▸ List.mem_append_right ls List.mem_cons_self) htoken
  refine ⟨?_, ls, fun d more hd => Lexeme.bareOf_append_stop rfl hd hls, fun n hn => ?_⟩
  · have htext := textOf_ofText (t ++ [';'])
    rw [← textOf_bareOf, hsplit, textOf_append] at htext
    exact List.append_cancel_right htext
  · have hbase : ∀ c ∈ (ls.foldl Nesting.step {}).base, c.is (.closing .curly) = false := by
      rw [hfold]
      intro c hc
      simpa using List.all_eq_true.1 hstray c (List.mem_reverse.1 hc)
    have hon : n.On (ls.foldl Nesting.step {}) (ls.foldl Nesting.step n) :=
      (Nesting.On.level (n := n) []).foldl hn fun _ => hbase
    rw [hfold] at hon
    generalize ls.foldl Nesting.step n = all at hon ⊢
    cases hon
    rfl

end Component

end StyleSieve.Css
