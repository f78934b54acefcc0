import StyleSieve.Proofs.Selector.Break
import StyleSieve.Selector.Compound

/-!
# Balanced text

What may stand in the brackets of an attribute or of a pseudo-class: text in which every string and
every bracket closes, where a backslash takes the character behind it out of the count
(`Balanced`).  The three readers of a selector keep different accounts of it.  A cursor knows
strings and backslashes, so it passes all of it.  The reader of an attribute knows strings but no
backslashes, and stops where quotes pair up as they come (`pairsQuotes`).  The reader of arguments
knows neither, and stops where parentheses close wherever they stand (`nests`).

* `Balanced.keeps`: a cursor passes balanced text.
* `closingExtent_of_pairsQuotes`, `argumentExtent_of_nests`: where the other two stop.
-/

namespace StyleSieve.Selector

/-- Either quote. -/
def isQuote (c : Char) : Bool := c = '\x22' || c = '\x27'

/-- A quote, a bracket or a backslash. -/
def isSpecial (c : Char) : Bool :=
  isQuote c || c = '[' || c = ']' || c = '(' || c = ')' || c = '\\'

/-- `t` can stand in a string between quotes `q`. -/
inductive StringBody (q : Char) : (t : Text) → Prop where
  | nil : StringBody q []
  | char {c : Char} {t : Text} : c ≠ q → c ≠ '\\' → StringBody q t → StringBody q (c :: t)
  | escape {c : Char} {t : Text} : StringBody q t → StringBody q ('\\' :: c :: t)

/-- Every string and every bracket in `t` closes. -/
inductive Balanced : (t : Text) → Prop where
  | nil : Balanced []
  | char {c : Char} {t : Text} : isSpecial c = false → Balanced t → Balanced (c :: t)
  | escape {c : Char} {t : Text} : Balanced t → Balanced ('\\' :: c :: t)
  | string {q : Char} {s t : Text} :
      isQuote q = true → StringBody q s → Balanced t → Balanced (q :: (s ++ q :: t))
  | round {s t : Text} : Balanced s → Balanced t → Balanced ('(' :: (s ++ ')' :: t))
  | square {s t : Text} : Balanced s → Balanced t → Balanced ('[' :: (s ++ ']' :: t))

/-- In quotes, if one is open, each quote is closed by the next of its kind, and no `]` stands
outside quotes. -/
def pairsQuotes : (quote : Option Char) → Text → Bool
  | quote, [] => quote.isNone
  | some q, c :: t => pairsQuotes (if c = q then none else some q) t
  | none, c :: t =>
    if isQuote c then pairsQuotes (some c) t else c != ']' && pairsQuotes none t

/-- With `depth` parentheses open, each is closed by the end and none is closed that is not open,
wherever they stand. -/
def nests : (depth : Nat) → Text → Bool
  | depth, [] => depth == 0
  | depth, c :: t =>
    if c = '(' then nests (depth + 1) t
    else if c = ')' then depth != 0 && nests (depth - 1) t
    else nests depth t

theorem isHexDigit_of_isSpecial {c : Char} (h : isSpecial c = true) :
    Text.isHexDigit c = false := by
  simp only [isSpecial, isQuote, Bool.or_eq_true, decide_eq_true_eq, or_assoc] at h
  rcases h with rfl | rfl | rfl | rfl | rfl | rfl | rfl
  all_goals decide

theorem isSpace_of_isSpecial {c : Char} (h : isSpecial c = true) : Text.isSpace c = false := by
  simp only [isSpecial, isQuote, Bool.or_eq_true, decide_eq_true_eq, or_assoc] at h
  rcases h with rfl | rfl | rfl | rfl | rfl | rfl | rfl
  all_goals decide

/-- A character that is not special is none of the special ones. -/
theorem ne_of_isSpecial {c d : Char} (hc : isSpecial c = false) (hd : isSpecial d = true) :
    c ≠ d := by
  rintro rfl
  rw [hc] at hd
  cases hd

namespace Cursor

/-! ### Cursors in brackets -/

variable {s : Cursor} {quote : Option Char} {depth : Nat} {t u : Text}

/-- The quote and the brackets that are open, where no backslash waits for its character. -/
structure Settled (quote : Option Char) (depth : Nat) (s : Cursor) : Prop where
  quote : s.quote = quote
  depth : s.depth = depth
  escape : s.escape ≠ .begun

theorem settled_plain (quote : Option Char) (depth : Nat) :
    Settled quote depth { quote, depth } := ⟨rfl, rfl, nofun⟩

theorem settled_hex (n : Nat) (quote : Option Char) (depth : Nat) :
    Settled quote depth { escape := .hex n, quote, depth } := ⟨rfl, rfl, nofun⟩

/-- What an escape still takes is read as nothing else. -/
theorem Settled.step_cases (h : Settled quote depth s) (c : Char) :
    s.step c = plain { quote, depth } c ∨
      (isSpecial c = false ∧ ∃ s', Settled quote depth s' ∧ s.step c = (s', none)) := by
  obtain ⟨escape, quote, depth⟩ := s
  obtain ⟨rfl, rfl, hescape⟩ := h
  have hplain (e : Escape) : plain ⟨e, quote, depth⟩ c = plain { quote, depth } c := rfl
  have hspecial (hc : Text.isHexDigit c = true ∨ Text.isSpace c = true) :
      isSpecial c = false := by
    rw [← Bool.not_eq_true]
    intro e
    rw [isHexDigit_of_isSpecial e, isSpace_of_isSpecial e] at hc
    simp at hc
  cases escape with
  | begun => exact absurd rfl hescape
  | none => exact .inl rfl
  | hex n =>
      simp only [step]
      split
      case isTrue hc =>
        have hc : n < 6 ∧ Text.isHexDigit c = true := by simpa using hc
        exact .inr ⟨hspecial (.inl hc.2), ⟨.hex (n + 1), quote, depth⟩, settled_hex .., rfl⟩
      case isFalse =>
        split
        case isTrue hc =>
          exact .inr ⟨hspecial (.inr hc), ⟨.none, quote, depth⟩, settled_plain .., rfl⟩
        case isFalse => exact .inl (hplain _)

/-- A special character is read as such. -/
theorem Settled.step_special (h : Settled quote depth s) {c : Char} (hc : isSpecial c = true) :
    s.step c = plain { quote, depth } c := by
  rcases h.step_cases c with e | ⟨e, -⟩
  · exact e
  · rw [hc] at e
    cases e

/-- Read where `quote` and `depth` brackets are open, no character of `t` is active, and the same
are open behind it. -/
def Keeps (quote : Option Char) (depth : Nat) (t : Text) : Prop :=
  ∀ s, Settled quote depth s → ∃ s', Settled quote depth s' ∧ s.Leads t s'

theorem keeps_nil (quote : Option Char) (depth : Nat) : Keeps quote depth [] :=
  fun s hs => ⟨s, hs, .nil s⟩

theorem Keeps.cons {c : Char} (hc : ∀ s, Settled quote depth s →
    ∃ s', Settled quote depth s' ∧ s.step c = (s', none)) (h : Keeps quote depth t) :
    Keeps quote depth (c :: t) := by
  intro s hs
  obtain ⟨s₁, hs₁, hstep⟩ := hc s hs
  obtain ⟨s₂, hs₂, hlead⟩ := h s₁ hs₁
  exact ⟨s₂, hs₂, .cons hstep hlead⟩

/-- A backslash and its character. -/
theorem Keeps.escape {c : Char} (h : Keeps quote depth t) :
    Keeps quote depth ('\\' :: c :: t) := by
  intro s hs
  have hslash : s.step '\\' = ({ quote, depth, escape := .begun }, none) :=
    hs.step_special (by decide)
  let s₁ : Cursor := ⟨if Text.isHexDigit c then .hex 1 else .none, quote, depth⟩
  have hs₁ : Settled quote depth s₁ := by
    refine ⟨rfl, rfl, ?_⟩
    simp only [s₁]
    split <;> nofun
  obtain ⟨s₂, hs₂, hlead⟩ := h s₁ hs₁
  exact ⟨s₂, hs₂, .cons hslash (.cons rfl hlead)⟩

/-- In brackets only special characters matter. -/
theorem step_inert {c : Char} (hc : isSpecial c = false) (hs : Settled none (depth + 1) s) :
    ∃ s', Settled none (depth + 1) s' ∧ s.step c = (s', none) := by
  rcases hs.step_cases c with e | ⟨-, e⟩
  · refine ⟨{ depth := depth + 1 }, settled_plain _ _, e.trans ?_⟩
    have hne {d : Char} (hd : isSpecial d = true) : c ≠ d := ne_of_isSpecial hc hd
    exact step_plain (hne (by decide)) (hne (by decide)) (hne (by decide)) (hne (by decide))
      (hne (by decide)) (hne (by decide)) (hne (by decide)) fun h => nomatch h
  · exact e

/-- What stands between brackets is passed with them. -/
theorem Keeps.leads (h : Keeps none (depth + 1) t) {o c : Char} (ho : isSpecial o = true)
    (hc : isSpecial c = true) (hopen : plain { depth } o = ({ depth := depth + 1 }, none))
    (hclose : plain { depth := depth + 1 } c = ({ depth }, none)) (hs : Settled none depth s) :
    s.Leads (o :: (t ++ [c])) { depth } := by
  obtain ⟨s', hs', hlead⟩ := h _ (settled_plain none (depth + 1))
  exact .cons ((hs.step_special ho).trans hopen)
    (hlead.append (.cons ((hs'.step_special hc).trans hclose) (.nil _)))

/-- Behind what leads back to the same brackets, the same is passed. -/
theorem Keeps.behind (h : ∀ s, Settled none depth s → s.Leads t { depth })
    (hu : Keeps none depth u) : Keeps none depth (t ++ u) := by
  intro s hs
  obtain ⟨s', hs', hlead⟩ := hu _ (settled_plain none depth)
  exact ⟨s', hs', (h s hs).append hlead⟩

/-- Of two quotes the first opens a string and the second closes it. -/
theorem plain_isQuote {q : Char} (hq : isQuote q = true) (depth : Nat) :
    plain { depth := depth + 1 } q = ({ quote := some q, depth := depth + 1 }, none) ∧
      plain { quote := some q, depth } q = ({ depth }, none) := by
  simp only [isQuote, Bool.or_eq_true, decide_eq_true_eq] at hq
  rcases hq with rfl | rfl
  all_goals exact ⟨rfl, rfl⟩

end Cursor

open Cursor

variable {t : Text}

/-- In a string only its quote and a backslash matter. -/
theorem StringBody.keeps {q : Char} (h : StringBody q t) (depth : Nat) :
    Keeps (some q) depth t := by
  induction h with
  | nil => exact keeps_nil _ _
  | @char c t hq hslash _ ih =>
      refine .cons (fun s hs => ?_) ih
      rcases hs.step_cases c with e | ⟨-, e⟩
      · refine ⟨{ quote := some q, depth }, settled_plain _ _, e.trans ?_⟩
        simp [plain, hq, hslash]
      · exact e
  | escape _ ih => exact ih.escape

/-- A string in brackets leads back to the same brackets. -/
theorem StringBody.leads {q : Char} {s : Cursor} {depth : Nat} (h : StringBody q t)
    (hq : isQuote q = true) (hs : Settled none (depth + 1) s) :
    s.Leads (q :: (t ++ [q])) { depth := depth + 1 } := by
  have hspecial : isSpecial q = true := by simp [isSpecial, hq]
  obtain ⟨s', hs', hlead⟩ := h.keeps (depth + 1) _ (settled_plain (some q) (depth + 1))
  exact .cons ((hs.step_special hspecial).trans (plain_isQuote hq depth).1)
    (hlead.append (.cons ((hs'.step_special hspecial).trans (plain_isQuote hq (depth + 1)).2)
      (.nil _)))

/-- A cursor in brackets passes balanced text. -/
theorem Balanced.keeps (h : Balanced t) (depth : Nat) : Keeps none (depth + 1) t := by
  have hsplit (o c : Char) (b t : Text) : o :: (b ++ c :: t) = o :: (b ++ [c]) ++ t := by simp
  induction h generalizing depth with
  | nil => exact keeps_nil _ _
  | char hc _ ih => exact .cons (fun s hs => step_inert hc hs) (ih depth)
  | escape _ ih => exact (ih depth).escape
  | @string q b t hq hb _ ih =>
      rw [hsplit]
      exact .behind (fun s hs => hb.leads hq hs) (ih depth)
  | @round b t _ _ ihb iht =>
      rw [hsplit]
      exact .behind (fun s hs => (ihb (depth + 1)).leads rfl rfl rfl rfl hs) (iht depth)
  | @square b t _ _ ihb iht =>
      rw [hsplit]
      exact .behind (fun s hs => (ihb (depth + 1)).leads rfl rfl rfl rfl hs) (iht depth)

/-! ### The other readers -/

theorem closingExtent_of_pairsQuotes {quote : Option Char} {v : Text}
    (h : pairsQuotes quote v = true) (t : Text) :
    closingExtent quote (v ++ ']' :: t) = v.length + 1 := by
  induction v generalizing quote with
  | nil =>
      obtain rfl : quote = none := by simpa [pairsQuotes] using h
      rfl
  | cons c v ih =>
      rw [List.cons_append, List.length_cons]
      cases quote with
      | some q =>
          rw [closingExtent, ih h]
      | none =>
          rw [pairsQuotes] at h
          show (if isQuote c = true then _ else _) = _
          split at h
          case isTrue hc => rw [if_pos hc, ih h]
          case isFalse hc =>
            obtain ⟨hbracket, h⟩ : c ≠ ']' ∧ pairsQuotes none v = true := by simpa using h
            rw [if_neg hc, if_neg hbracket, ih h]

theorem argumentExtent_of_nests {depth : Nat} {a : Text} (h : nests depth a = true) (t : Text) :
    argumentExtent (depth + 1) (a ++ ')' :: t) = a.length + 1 := by
  induction a generalizing depth with
  | nil =>
      obtain rfl : depth = 0 := by simpa [nests] using h
      rfl
  | cons c a ih =>
      rw [nests] at h
      rw [List.cons_append, List.length_cons, argumentExtent]
      split at h
      case isTrue hc => rw [if_pos hc, ih h]
      case isFalse hc =>
        rw [if_neg hc]
        split at h
        case isTrue hc' =>
          obtain ⟨hdepth, h⟩ : depth ≠ 0 ∧ nests (depth - 1) a = true := by simpa using h
          obtain ⟨n, rfl⟩ := Nat.exists_eq_succ_of_ne_zero hdepth
          rw [if_pos hc', if_neg (by omega)]
          exact congrArg (· + 1) (ih h)
        case isFalse hc' => rw [if_neg hc', ih h]

end StyleSieve.Selector
