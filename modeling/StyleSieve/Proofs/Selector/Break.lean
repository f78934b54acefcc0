import StyleSieve.Proofs.Selector.Name
import StyleSieve.Selector.Break

/-!
# What does not end a compound

A cursor passes a text if no character of it is active and it is then where it was
(`Cursor.Passes`).  It passes names, however they are spelled, and what stands in brackets.  The
leading compound is all that is passed (`breakLength_append`).
-/

namespace StyleSieve.Selector

open Name (Spells isPlain)

/-- A character of a kind is none that is not. -/
theorem ne_of_kind {p : Char → Bool} {c d : Char} (hc : p c = true) (hd : p d = false) : c ≠ d := by
  rintro rfl
  rw [hc] at hd
  cases hd

theorem isPlain_of_isSpace {c : Char} (h : Text.isSpace c = true) : isPlain c = false := by
  simp only [Text.isSpace, Bool.or_eq_true, beq_iff_eq] at h
  rcases h with (((rfl | rfl) | rfl) | rfl) | rfl
  all_goals decide

theorem BreakKind.of?_eq_none {c : Char} (h₀ : Text.isSpace c = false) (h₁ : c ≠ '>')
    (h₂ : c ≠ '~') (h₃ : c ≠ '+') (h₄ : c ≠ ':') : BreakKind.of? c = none := by
  simp only [BreakKind.of?, h₀, h₁, h₂, h₃, h₄, if_false, Bool.false_eq_true]

/-- No character of a name ends a compound. -/
theorem BreakKind.of?_of_isPlain {c : Char} (h : isPlain c = true) : BreakKind.of? c = none := by
  refine of?_eq_none ?_ (ne_of_kind h (by decide)) (ne_of_kind h (by decide))
    (ne_of_kind h (by decide)) (ne_of_kind h (by decide))
  rw [← Bool.not_eq_true]
  intro hs
  rw [isPlain_of_isSpace hs] at h
  cases h

namespace Cursor

/-- The cursor after a text. -/
def after (s : Cursor) (t : Text) : Cursor := t.foldl (fun s c => (s.step c).1) s

theorem kinds_append (s : Cursor) (t u : Text) :
    kinds s (t ++ u) = kinds s t ++ kinds (s.after t) u := by
  induction t generalizing s with
  | nil => rfl
  | cons c t ih =>
      rw [List.cons_append, kinds, ih]
      rfl

theorem length_kinds (s : Cursor) (t : Text) : (kinds s t).length = t.length := by
  induction t generalizing s with
  | nil => rfl
  | cons c t ih => rw [kinds, List.length_cons, ih, List.length_cons]

/-- From `s` no character of `t` is active, and it leads to `s'`. -/
structure Leads (s : Cursor) (t : Text) (s' : Cursor) : Prop where
  kinds : ∀ k ∈ kinds s t, k = none
  after : s.after t = s'

/-- Where `depth` brackets are open, no character of `t` is active, and as many are open then. -/
def Passes (depth : Nat) (t : Text) : Prop := Leads { depth } t { depth }

variable {s s' s'' : Cursor} {t u : Text} {depth : Nat}

theorem Leads.nil (s : Cursor) : s.Leads [] s := ⟨fun _ h => (nomatch h), rfl⟩

theorem Leads.cons {c : Char} (hc : s.step c = (s', none)) (h : s'.Leads t s'') :
    s.Leads (c :: t) s'' := by
  refine ⟨?_, ?_⟩
  · rw [Cursor.kinds, hc]
    exact List.forall_mem_cons.2 ⟨rfl, h.kinds⟩
  · rw [Cursor.after, List.foldl_cons, hc]
    exact h.after

theorem Leads.append (h : s.Leads t s') (h' : s'.Leads u s'') : s.Leads (t ++ u) s'' := by
  obtain ⟨hk, rfl⟩ := h
  refine ⟨?_, ?_⟩
  · rw [kinds_append]
    intro k hmem
    rcases List.mem_append.1 hmem with hmem | hmem
    · exact hk k hmem
    · exact h'.kinds k hmem
  · rw [Cursor.after, List.foldl_append]
    exact h'.after

/-! ### Single characters -/

/-- A character that is no bracket, quote or backslash, and would end nothing here. -/
theorem step_plain {c : Char} (h₁ : c ≠ '\\') (h₂ : c ≠ '\x22') (h₃ : c ≠ '\x27') (h₄ : c ≠ '[')
    (h₅ : c ≠ '(') (h₆ : c ≠ ']') (h₇ : c ≠ ')') (hkind : depth = 0 → BreakKind.of? c = none) :
    ({ depth } : Cursor).step c = ({ depth }, none) := by
  simp only [step, plain, h₁, h₂, h₃, h₄, h₅, h₆, h₇, if_false, decide_false, Bool.or_self,
    Bool.and_false, Bool.false_eq_true]
  split
  case isTrue e => rw [hkind e]
  case isFalse => rfl

theorem step_isPlain {c : Char} (h : isPlain c = true) (depth : Nat) :
    ({ depth } : Cursor).step c = ({ depth }, none) :=
  step_plain (ne_of_kind h (by decide)) (ne_of_kind h (by decide))
    (ne_of_kind h (by decide)) (ne_of_kind h (by decide)) (ne_of_kind h (by decide))
    (ne_of_kind h (by decide)) (ne_of_kind h (by decide))
    fun _ => BreakKind.of?_of_isPlain h

/-- A blank ends nothing in brackets, nor where it is no space. -/
theorem step_blank {c : Char} (h : Text.isBlank c = true)
    (hspace : depth = 0 → Text.isSpace c = false) :
    ({ depth } : Cursor).step c = ({ depth }, none) := by
  refine step_plain (ne_of_kind h (by decide)) (ne_of_kind h (by decide))
    (ne_of_kind h (by decide)) (ne_of_kind h (by decide)) (ne_of_kind h (by decide))
    (ne_of_kind h (by decide)) (ne_of_kind h (by decide)) fun e => ?_
  exact BreakKind.of?_eq_none (hspace e) (ne_of_kind h (by decide)) (ne_of_kind h (by decide))
    (ne_of_kind h (by decide)) (ne_of_kind h (by decide))

/-! ### Names -/

/-- More digits of an escape. -/
theorem leads_digits {n : Nat} {digits : Text} (hlen : n + digits.length ≤ 6)
    (hdigits : ∀ d ∈ digits, Text.isHexDigit d = true) :
    Leads { escape := .hex n, depth } digits { escape := .hex (n + digits.length), depth } := by
  induction digits generalizing n with
  | nil => exact .nil _
  | cons d digits ih =>
      obtain ⟨hd, hdigits⟩ := List.forall_mem_cons.1 hdigits
      rw [List.length_cons] at hlen
      have hn : n < 6 := by omega
      have hstep : ({ escape := .hex n, depth } : Cursor).step d =
          ({ escape := .hex (n + 1), depth }, none) := by simp [step, hd, hn]
      have h := ih (n := n + 1) (by omega) hdigits
      rw [Nat.add_assoc, Nat.add_comm 1] at h
      exact .cons hstep h

/-- The blank that ends an escape. -/
theorem step_endEscape {b : Char} (hb : Text.isBlank b = true) (n depth : Nat) :
    ({ escape := .hex n, depth } : Cursor).step b = ({ depth }, none) := by
  have hhex := Text.isHexDigit_of_isBlank hb
  cases hspace : Text.isSpace b with
  | true => simp [step, hhex, hspace]
  | false =>
      have h : ({ depth } : Cursor).step b = ({ depth }, none) := step_blank hb fun _ => hspace
      simpa [step, hhex, hspace, plain] using h

theorem step_backslash (depth : Nat) :
    ({ depth } : Cursor).step '\\' = ({ escape := .begun, depth }, none) := rfl

theorem passes_spells {name : Text} (h : Spells name t) (depth : Nat) : Passes depth t := by
  induction h with
  | nil => exact .nil _
  | plain hc _ ih => exact .cons (step_isPlain hc depth) ih
  | @escape c name t hc _ ih =>
      have hstep : ({ escape := .begun, depth } : Cursor).step c = ({ depth }, none) := by
        simp [step, hc]
      exact .cons (step_backslash depth) (.cons hstep ih)
  | @hex c b name digits t hne hlen hdigits _ hb _ ih =>
      obtain ⟨d, digits, rfl⟩ := List.exists_cons_of_ne_nil hne
      obtain ⟨hd, hdigits⟩ := List.forall_mem_cons.1 hdigits
      rw [List.length_cons, Nat.add_comm] at hlen
      have hstep : ({ escape := .begun, depth } : Cursor).step d =
          ({ escape := .hex 1, depth }, none) := by simp [step, hd]
      have hrest := (leads_digits hlen hdigits).append (.cons (step_endEscape hb _ depth) ih)
      exact .cons (step_backslash depth) (.cons hstep hrest)

end Cursor

/-! ### The break -/

/-- Whether a kind ends a compound that starts with a character of kind `first`. -/
def ends (first kind : Option BreakKind) : Bool := kind.isSome && kind != first

theorem breakLength_of_cons {selector : Text} {first : Option BreakKind}
    {rest : List (Option BreakKind)} (h : Cursor.kinds {} selector = first :: rest) :
    breakLength selector = rest.findIdx (ends first) + 1 := by
  rw [breakLength, h]
  rfl

/-- What may follow a compound: nothing, or a combinator or pseudo-class with all after it. -/
def Follows (rest : Text) : Prop := ∀ c ∈ rest.head?, (BreakKind.of? c).isSome = true

/-- Outside brackets a character that opens nothing is active if it can follow a compound. -/
theorem Cursor.step_flat {c : Char} (h₁ : c ≠ '\\') (h₂ : c ≠ '[') (h₃ : c ≠ '(') :
    ({} : Cursor).step c = ({}, BreakKind.of? c) := by
  simp only [Cursor.step, Cursor.plain, h₁, h₂, h₃, if_false, decide_false, Bool.or_self,
    Bool.false_eq_true, ne_eq, not_true_eq_false, Bool.false_and]
  split
  case isTrue h =>
    obtain rfl | rfl : c = ']' ∨ c = ')' := by simpa using h
    all_goals rfl
  case isFalse => rfl

/-- Outside brackets a character that can follow a compound is active. -/
theorem Cursor.step_active {c : Char} (hc : (BreakKind.of? c).isSome = true) :
    ({} : Cursor).step c = ({}, BreakKind.of? c) := by
  have hne {d : Char} (hd : (BreakKind.of? d).isSome = false) : c ≠ d :=
    ne_of_kind (p := fun c => (BreakKind.of? c).isSome) hc hd
  exact step_flat (hne (by decide)) (hne (by decide)) (hne (by decide))

/-- A character that can follow a compound is active behind it. -/
theorem Follows.active {rest : Text} (h : Follows rest) :
    ∀ k ∈ (Cursor.kinds {} rest).head?, k.isSome = true := by
  cases rest with
  | nil => exact fun _ h => nomatch h
  | cons c rest =>
      have hc := h c rfl
      rw [Cursor.kinds, List.head?_cons, Cursor.step_active hc]
      rintro k ⟨⟩
      exact hc

/-- The leading compound ends at the first active character behind its first that is not of the
kind of that one. -/
theorem breakLength_of_kinds {c : Char} {t rest : Text} {first : Option BreakKind}
    (hfirst : (({} : Cursor).step c).2 = first) (hafter : ({} : Cursor).after (c :: t) = {})
    (hkinds : ∀ k ∈ Cursor.kinds {} (c :: t), k = none ∨ k = first)
    (hrest : ∀ k ∈ (Cursor.kinds {} rest).head?, k.isSome = true ∧ k ≠ first) :
    breakLength (c :: t ++ rest) = (c :: t).length := by
  have hpasses : ∀ k ∈ Cursor.kinds (({} : Cursor).step c).1 t, ends first k = false := by
    intro k hk
    rcases hkinds k (List.mem_cons_of_mem _ hk) with rfl | rfl
    all_goals simp [ends]
  have hstops : (Cursor.kinds {} rest).findIdx (ends first) = 0 := by
    cases h : Cursor.kinds {} rest with
    | nil => rfl
    | cons k ks =>
        obtain ⟨hsome, hne⟩ := hrest k (by rw [h]; rfl)
        rw [List.findIdx_cons, ends, hsome, bne_iff_ne.2 hne]
        rfl
  have hall : (Cursor.kinds (({} : Cursor).step c).1 t).findIdx (ends first) = t.length :=
    (List.findIdx_eq_length_of_false hpasses).trans (Cursor.length_kinds _ t)
  have hsplit : Cursor.kinds {} (c :: t ++ rest) =
      first :: (Cursor.kinds (({} : Cursor).step c).1 t ++ Cursor.kinds {} rest) := by
    rw [Cursor.kinds_append, hafter, Cursor.kinds, List.cons_append, hfirst]
  rw [breakLength_of_cons hsplit]
  simp only [List.findIdx_append, hall, hstops, Cursor.length_kinds, Nat.lt_irrefl, if_false,
    Nat.zero_add, List.length_cons]

/-- The leading compound of a selector is all that a cursor passes. -/
theorem breakLength_append {t rest : Text} (h : Cursor.Passes 0 t) (hne : t ≠ [])
    (hrest : Follows rest) : breakLength (t ++ rest) = t.length := by
  obtain ⟨c, t, rfl⟩ := List.exists_cons_of_ne_nil hne
  refine breakLength_of_kinds (h.kinds _ (List.mem_cons_self ..)) h.after
    (fun k hk => .inl (h.kinds k hk)) fun k hk => ?_
  have hk := hrest.active k hk
  exact ⟨hk, fun e => by simp [e] at hk⟩

end StyleSieve.Selector
