import StyleSieve.Selector.Name

/-!
# Spellings of a name

A name can be spelled in many ways: each character as it stands, behind a backslash, or as its
number.  Reading any of them gives the name (`Name.read_spells`).
-/

namespace StyleSieve

namespace Text

/-- The characters that are hexadecimal digits are few. -/
theorem toNat_of_isHexDigit {c : Char} (h : isHexDigit c = true) :
    (0x30 ≤ c.toNat ∧ c.toNat ≤ 0x39) ∨ (0x41 ≤ c.toNat ∧ c.toNat ≤ 0x46) ∨
      (0x61 ≤ c.toNat ∧ c.toNat ≤ 0x66) := by
  simp only [isHexDigit, Char.isDigit, Bool.or_eq_true, Bool.and_eq_true, decide_eq_true_eq,
    Char.le_def, ge_iff_le, UInt32.le_iff_toNat_le] at h
  rcases h with (h | h) | h
  · exact .inl h
  · exact .inr (.inr h)
  · exact .inr (.inl h)

theorem isHexDigit_of_isBlank {c : Char} (h : isBlank c = true) : isHexDigit c = false := by
  rw [← Bool.not_eq_true]
  intro hd
  have hn := toNat_of_isHexDigit hd
  simp only [isBlank, Bool.or_eq_true, Bool.and_eq_true, decide_eq_true_eq, beq_iff_eq] at h
  omega

end Text

namespace Selector.Name

/-- `s` spells `name`: each character as it stands, behind a backslash, or as its number and a
blank. -/
inductive Spells : (name s : Text) → Prop where
  | nil : Spells [] []
  | plain {c : Char} {name s : Text} :
      isPlain c = true → Spells name s → Spells (c :: name) (c :: s)
  | escape {c : Char} {name s : Text} :
      Text.isHexDigit c = false → Spells name s → Spells (c :: name) ('\\' :: c :: s)
  | hex {c b : Char} {name digits s : Text} :
      digits ≠ [] → digits.length ≤ 6 → (∀ d ∈ digits, Text.isHexDigit d = true) →
        Text.charOfCode (Text.hexValue digits) = c → Text.isBlank b = true → Spells name s →
          Spells (c :: name) ('\\' :: (digits ++ b :: s))

/-- What ends a name: nothing more, or a character that is none of a name. -/
def Ends (t : Text) : Prop := ∀ c ∈ t.head?, isPlain c = false ∧ c ≠ '\\'

variable {name s t : Text}

theorem Ends.nil : Ends [] := fun _ h => nomatch h

theorem Spells.eq_nil_iff (h : Spells name s) : name = [] ↔ s = [] := by
  cases h <;> simp

/-! ### How far a name reaches -/

theorem backslash_ne {c : Char} (h : isPlain c = true) : c ≠ '\\' := by
  rintro rfl
  exact absurd h (by decide)

theorem extentFrom_skip (a t : Text) :
    extentFrom a.length (a ++ t) = a.length + extentFrom 0 t := by
  induction a with
  | nil => exact (Nat.zero_add _).symm
  | cons c a ih =>
      rw [List.length_cons, List.cons_append, extentFrom, ih]
      omega

theorem valueFrom_skip (a t : Text) : valueFrom a.length (a ++ t) = valueFrom 0 t := by
  induction a with
  | nil => rfl
  | cons c a ih => rw [List.length_cons, List.cons_append, valueFrom, ih]

/-- The digits of an escape end at the blank behind them. -/
theorem escapeDigits_append {b : Char} {digits : Text} (hlen : digits.length ≤ 6)
    (hdigits : ∀ d ∈ digits, Text.isHexDigit d = true) (hb : Text.isBlank b = true) (t : Text) :
    escapeDigits (digits ++ b :: t) = digits := by
  rw [escapeDigits, List.take_append, List.take_of_length_le hlen,
    List.takeWhile_append_of_pos hdigits]
  cases h : 6 - digits.length with
  | zero => simp
  | succ n => simp [Text.isHexDigit_of_isBlank hb]

theorem escapeDigits_cons {c : Char} (hc : Text.isHexDigit c = false) (t : Text) :
    escapeDigits (c :: t) = [] := by
  simp [escapeDigits, hc]

/-- An escape takes its digits and the blank. -/
theorem escape_hex {b : Char} {digits : Text} (hne : digits ≠ []) (hlen : digits.length ≤ 6)
    (hdigits : ∀ d ∈ digits, Text.isHexDigit d = true) (hb : Text.isBlank b = true) (t : Text) :
    escapeExtent (digits ++ b :: t) = (digits ++ [b]).length ∧
      escapeValue (digits ++ b :: t) = some (Text.charOfCode (Text.hexValue digits)) := by
  obtain ⟨d, ds, rfl⟩ := List.exists_cons_of_ne_nil hne
  have h := escapeDigits_append hlen hdigits hb t
  unfold escapeExtent escapeValue
  rw [h]
  simp [hb]

/-- An escape without digits takes one character. -/
theorem escape_cons {c : Char} (hc : Text.isHexDigit c = false) (t : Text) :
    escapeExtent (c :: t) = 1 ∧ escapeValue (c :: t) = some c := by
  unfold escapeExtent escapeValue
  rw [escapeDigits_cons hc]
  simp

/-- A spelling is read to its end. -/
theorem extent_spells (h : Spells name s) (ht : Ends t) : extent (s ++ t) = s.length := by
  unfold extent
  induction h with
  | nil =>
      cases t with
      | nil => rfl
      | cons c t =>
          obtain ⟨hplain, hslash⟩ := ht c rfl
          rw [List.nil_append, extentFrom, if_neg hslash, if_neg (by simp [hplain])]
          rfl
  | @plain c name s hc _ ih =>
      rw [List.cons_append, extentFrom, if_neg (backslash_ne hc), if_pos hc, ih, List.length_cons]
  | @escape c name s hc _ ih =>
      rw [List.cons_append, List.cons_append, extentFrom, if_pos rfl, (escape_cons hc _).1,
        extentFrom, ih, List.length_cons, List.length_cons]
  | @hex c b name digits s hne hlen hdigits _ hb _ ih =>
      have hsplit : digits ++ b :: s ++ t = digits ++ [b] ++ (s ++ t) := by simp
      rw [List.cons_append, extentFrom, if_pos rfl, List.append_assoc, List.cons_append,
        (escape_hex hne hlen hdigits hb _).1, ← List.cons_append, ← List.append_assoc, hsplit,
        extentFrom_skip, ih]
      simp
      omega

theorem value_spells (h : Spells name s) : value s = name := by
  unfold value
  induction h with
  | nil => rfl
  | @plain c name s hc _ ih => rw [valueFrom, if_neg (backslash_ne hc), ih]
  | @escape c name s hc _ ih =>
      rw [valueFrom, if_pos rfl, (escape_cons hc s).1, (escape_cons hc s).2, valueFrom, ih]
      rfl
  | @hex c b name digits s hne hlen hdigits hcode hb _ ih =>
      obtain ⟨hextent, hvalue⟩ := escape_hex hne hlen hdigits hb s
      have hsplit : digits ++ b :: s = digits ++ [b] ++ s := by simp
      rw [valueFrom, if_pos rfl, hextent, hvalue, hsplit, valueFrom_skip, ih, hcode]
      rfl

/-- Whatever the spelling, the name is read. -/
theorem read_spells (h : Spells name s) (ht : Ends t) : read (s ++ t) = name := by
  rw [read, extent_spells h ht, List.take_left, value_spells h]

end Selector.Name

end StyleSieve
