import StyleSieve.Proofs.Css.Named
import StyleSieve.Proofs.Css.Sealed

/-!
# What a text is read as where it is written

`Reads F t cs` says that a text is read as some components, whatever blocks in curly brackets stand
around it, as long as the text behind it is one that `F` allows.  Texts that read so read so one
after the other (`Reads.append`), and in a block of their own (`Reads.block`).

* `Reads.of_isSealed`: a sealed text in front of a stop.
* `Reads.atKeyword`, `Reads.ident`: a bare name.
* `Reads.bareOf_ofText`: a whole stylesheet.
-/

namespace StyleSieve.Css

open Component (textOf Nesting)

/-- With text behind it that `F` allows, a text is read as some components, wherever it stands. -/
structure Reads (F : Text → Prop) (t : Text) (cs : List Component) : Prop where
  text : textOf cs = t
  lexed : ∃ ls, (∀ rest, F rest → Lexeme.bareOf (t ++ rest) = ls ++ Lexeme.bareOf rest) ∧
    ∀ n : Nesting, n.InCurly → ls.foldl Nesting.step n = { n with level := cs.reverse ++ n.level }

/-- A stop comes next. -/
def StopNext (t : Text) : Prop := ∃ c rest, t = c :: rest ∧ isStop c = true

/-- No space comes next. -/
def NoSpaceNext (t : Text) : Prop := t.head?.any isSpace = false

/-- Spaces that no space follows are one token. -/
theorem Token.tokenAt_space {c : Char} {s rest : Text} (hc : isSpace c = true)
    (hs : ∀ d ∈ s, isSpace d = true) (hrest : NoSpaceNext rest) :
    tokenAt c (s ++ rest) = (.space, s.length) := by
  have hnone : rest.takeWhile isSpace = [] := by
    cases rest with
    | nil => rfl
    | cons d rest => exact List.takeWhile_cons_of_neg (by simpa [NoSpaceNext] using hrest)
  unfold tokenAt
  rw [if_pos hc, List.takeWhile_append_of_pos hs, hnone, List.append_nil]

/-- The token opens or closes a block. -/
def Token.isBracket : Token → Bool
  | .opening _ | .closing _ => true
  | _ => false

namespace Component

/-- A character that is a lexeme. -/
def mark (token : Token) (c : Char) : Component := .leaf ⟨token, [c], {}⟩

/-- A block in curly brackets. -/
def curly (content : List Component) : Component :=
  .block ⟨.opening .curly, ['{'], {}⟩ content (some ⟨.closing .curly, ['}'], {}⟩) {}

end Component

open Component (mark curly)

namespace Reads

variable {F G : Text → Prop} {t u : Text} {cs ds : List Component}

theorem nil : Reads F [] [] := ⟨rfl, [], fun _ _ => rfl, fun _ _ => rfl⟩

theorem append (ht : Reads F t cs) (hu : Reads G u ds) (h : ∀ rest, G rest → F (u ++ rest)) :
    Reads G (t ++ u) (cs ++ ds) := by
  obtain ⟨htext, ls, hlex, hfold⟩ := ht
  obtain ⟨hutext, ms, hulex, hufold⟩ := hu
  refine ⟨by rw [Component.textOf_append, htext, hutext], ls ++ ms, fun rest hG => ?_, ?_⟩
  · rw [List.append_assoc, hlex _ (h rest hG), hulex rest hG, List.append_assoc]
  · intro n hn
    have hn' : Nesting.InCurly { n with level := cs.reverse ++ n.level } := hn
    rw [List.foldl_append, hfold n hn, hufold _ hn', List.reverse_append, List.append_assoc]

/-- One lexeme that is no bracket. -/
theorem leaf {c : Char} {token : Token} (htoken : token.isBracket = false)
    (h : ∀ rest, F rest → Token.tokenAt c (t ++ rest) = (token, t.length)) :
    Reads F (c :: t) [.leaf ⟨token, c :: t, {}⟩] := by
  refine ⟨by simp, [⟨token, c :: t, {}⟩], fun rest hF => ?_, fun n _ => ?_⟩
  · rw [List.cons_append, Lexeme.bareOf_cons, h rest hF, List.take_left, List.drop_left]
    rfl
  · cases token with
    | opening => cases htoken
    | closing => cases htoken
    | _ => rfl

theorem semicolon : Reads (fun _ => True) [';'] [mark .semicolon ';'] :=
  leaf rfl fun _ _ => rfl

theorem colon : Reads (fun _ => True) [':'] [mark .colon ':'] :=
  leaf rfl fun _ _ => rfl

theorem space {c : Char} (hc : isSpace c = true) : Reads NoSpaceNext [c] [mark .space c] :=
  leaf rfl fun _ hrest => Token.tokenAt_space hc (fun _ h => nomatch h) hrest

theorem atKeyword (h : Name.isBare t = true) :
    Reads Name.Ends ('@' :: t) [.leaf ⟨.atKeyword t, '@' :: t, {}⟩] :=
  leaf rfl fun _ hrest => Token.tokenAt_atKeyword h hrest

theorem ident (h : Name.isBare t = true) : Reads Name.Ends t [.leaf ⟨.ident t, t, {}⟩] := by
  cases t with
  | nil => cases h
  | cons c t => exact leaf rfl fun _ hrest => Token.tokenAt_ident h hrest

/-- A sealed text in front of a stop. -/
theorem of_isSealed (h : Component.isSealed t = true) : Reads StopNext t (Component.ended t) := by
  obtain ⟨htext, ls, hlex, hfold⟩ := Component.sealed_spec h
  refine ⟨htext, ls, ?_, hfold⟩
  rintro _ ⟨c, rest, rfl, hc⟩
  exact hlex c rest hc

/-- A text in curly brackets. -/
theorem block (h : Reads F t cs) (hF : ∀ rest, F ('}' :: rest)) :
    Reads (fun _ => True) ('{' :: (t ++ ['}'])) [curly cs] := by
  obtain ⟨htext, ls, hlex, hfold⟩ := h
  refine ⟨by simp [curly, htext],
    ⟨.opening .curly, ['{'], {}⟩ :: (ls ++ [⟨.closing .curly, ['}'], {}⟩]), fun rest _ => ?_,
    fun n _ => ?_⟩
  · have hopen (rest : Text) : Lexeme.bareOf ('{' :: rest) =
        ⟨.opening .curly, ['{'], {}⟩ :: Lexeme.bareOf rest := Lexeme.bareOf_cons '{' rest
    have hclose : Lexeme.bareOf ('}' :: rest) =
        ⟨.closing .curly, ['}'], {}⟩ :: Lexeme.bareOf rest := Lexeme.bareOf_cons '}' rest
    rw [List.cons_append, List.append_assoc, List.singleton_append, hopen, hlex _ (hF rest), hclose]
    simp
  · have hinner : Nesting.InCurly ⟨[], ⟨⟨.opening .curly, ['{'], {}⟩, n.level⟩ :: n.outer⟩ := by
      rintro p hp
      obtain rfl := Option.some.inj hp
      rfl
    have hopen : n.step ⟨.opening .curly, ['{'], {}⟩ =
        ⟨[], ⟨⟨.opening .curly, ['{'], {}⟩, n.level⟩ :: n.outer⟩ := rfl
    rw [List.foldl_cons, hopen, List.foldl_append, hfold _ hinner, List.append_nil]
    simp [Nesting.step, curly]

/-- The components of a whole stylesheet. -/
theorem bareOf_ofText (h : Reads F t cs) (hF : F []) :
    Component.bareOf (Component.ofText t) = cs := by
  obtain ⟨-, ls, hlex, hfold⟩ := h
  have hnone := hlex [] hF
  rw [List.append_nil, Lexeme.bareOf_nil, List.append_nil] at hnone
  rw [Component.bareOf_ofText, hnone, Component.ofLexemes, hfold {} (by simp [Nesting.InCurly])]
  simp [Nesting.close]

end Reads

end StyleSieve.Css
