import Mathlib.Data.List.Basic
import StyleSieve.Proofs.Text.Utf8

/-!
# What decodes is a text

`Utf8.units_encode` has the units of a text, which are its characters.  Here it is the other way
about: a unit that is a character is the bytes of that character, so bytes whose units are all
characters are a text.

* `Utf8.encodeChar_code`: the bytes that spell a code.
* `Utf8.isText_iff_units`, `Utf8.decode?_eq_some_iff`: bytes that decode.
-/

namespace StyleSieve.Utf8

/-! ### The tails of a unit -/

theorem tails_prefix (b : UInt8) (count : Nat) (rest : Bytes) : tails b count rest <+: rest := by
  cases rest with
  | nil => exact List.nil_prefix
  | cons x rest =>
      rw [tails]
      split
      · exact (List.prefix_cons_inj x).2 ((List.takeWhile_prefix _).trans (List.take_prefix _ _))
      · exact List.nil_prefix

theorem follows_of_mem_head? {b x : UInt8} {count : Nat} {rest : Bytes}
    (h : x ∈ (tails b count rest).head?) : follows b x = true := by
  cases rest with
  | nil => cases h
  | cons y rest =>
      rw [tails] at h
      split at h
      case isTrue e =>
        obtain rfl : y = x := by simpa using h
        simp only [Bool.and_eq_true] at e
        exact e.2
      case isFalse => cases h

theorem isTail_of_mem_tail {b x : UInt8} {count : Nat} {rest : Bytes}
    (h : x ∈ (tails b count rest).tail) : isTail x = true := by
  cases rest with
  | nil => cases h
  | cons y rest =>
      rw [tails] at h
      split at h
      · exact List.mem_takeWhile_imp h
      · cases h

/-! ### The code of a unit -/

theorem ofNat_eq {b : UInt8} {n : Nat} (h : n = b.toNat) : UInt8.ofNat n = b := by
  rw [h, UInt8.ofNat_toNat]

section

variable {c : Char} {b x y z : UInt8}

/-- The bytes of a character from the number that they spell. -/
theorem encodeChar_one (hb : b.toNat ≤ 0x7F) (hc : c.toNat = b.toNat) :
    String.utf8EncodeChar c = [b] := by
  rcases encodeChar_cases c with ⟨-, e⟩ | ⟨h, -⟩ | ⟨h, -⟩ | ⟨h, -⟩
  case inl => rw [e, ofNat_eq hc]
  all_goals omega

theorem encodeChar_two (hb : 0xC2 ≤ b.toNat ∧ b.toNat ≤ 0xDF)
    (hx : 0x80 ≤ x.toNat ∧ x.toNat ≤ 0xBF)
    (hc : c.toNat = b.toNat % 32 * 64 + x.toNat % 64) :
    String.utf8EncodeChar c = [b, x] := by
  rcases encodeChar_cases c with ⟨h, -⟩ | ⟨-, -, e⟩ | ⟨h, -⟩ | ⟨h, -⟩
  case inr.inl => rw [e, ofNat_eq (b := b) (by omega), ofNat_eq (b := x) (by omega)]
  all_goals omega

theorem encodeChar_three (hb : 0xE0 ≤ b.toNat ∧ b.toNat ≤ 0xEF)
    (hx : 0x80 ≤ x.toNat ∧ x.toNat ≤ 0xBF) (hlow : b.toNat = 0xE0 → 0xA0 ≤ x.toNat)
    (hy : 0x80 ≤ y.toNat ∧ y.toNat ≤ 0xBF)
    (hc : c.toNat = (b.toNat % 16 * 64 + x.toNat % 64) * 64 + y.toNat % 64) :
    String.utf8EncodeChar c = [b, x, y] := by
  rcases encodeChar_cases c with ⟨h, -⟩ | ⟨-, h, -⟩ | ⟨-, -, e⟩ | ⟨h, -⟩
  case inr.inr.inl =>
    rw [e, ofNat_eq (b := b) (by omega), ofNat_eq (b := x) (by omega),
      ofNat_eq (b := y) (by omega)]
  all_goals omega

theorem encodeChar_four (hb : 0xF0 ≤ b.toNat ∧ b.toNat ≤ 0xF4)
    (hx : 0x80 ≤ x.toNat ∧ x.toNat ≤ 0xBF) (hlow : b.toNat = 0xF0 → 0x90 ≤ x.toNat)
    (hy : 0x80 ≤ y.toNat ∧ y.toNat ≤ 0xBF) (hz : 0x80 ≤ z.toNat ∧ z.toNat ≤ 0xBF)
    (hc : c.toNat =
      ((b.toNat % 8 * 64 + x.toNat % 64) * 64 + y.toNat % 64) * 64 + z.toNat % 64) :
    String.utf8EncodeChar c = [b, x, y, z] := by
  rcases encodeChar_cases c with ⟨h, -⟩ | ⟨-, h, -⟩ | ⟨-, h, -⟩ | ⟨-, e⟩
  case inr.inr.inr =>
    rw [e, ofNat_eq (b := b) (by omega), ofNat_eq (b := x) (by omega),
      ofNat_eq (b := y) (by omega), ofNat_eq (b := z) (by omega)]
  all_goals omega

end

theorem tailCount_cases {b : UInt8} {count : Nat} (h : tailCount b = some count) :
    count = 0 ∧ b.toNat ≤ 0x7F ∨ count = 1 ∧ 0xC2 ≤ b.toNat ∧ b.toNat ≤ 0xDF ∨
      count = 2 ∧ 0xE0 ≤ b.toNat ∧ b.toNat ≤ 0xEF ∨
        count = 3 ∧ 0xF0 ≤ b.toNat ∧ b.toNat ≤ 0xF4 := by
  rw [tailCount_eq] at h
  grind

theorem toNat_ofNat_of_valid {n : Nat} (h : n < 0xD800 ∨ 0xDFFF < n ∧ n < 0x110000) :
    (Char.ofNat n).toNat = n := by
  rw [Char.ofNat, dif_pos h]
  rfl

/-- The character of a code has the bytes that spell it. -/
theorem encodeChar_code {b : UInt8} {ts : Bytes} (hcount : tailCount b = some ts.length)
    (hfirst : ∀ x ∈ ts.head?, follows b x = true) (htail : ∀ x ∈ ts.tail, isTail x = true) :
    String.utf8EncodeChar (Char.ofNat (code b ts)) = b :: ts := by
  rcases tailCount_cases hcount with ⟨hlen, hb⟩ | ⟨hlen, hb⟩ | ⟨hlen, hb⟩ | ⟨hlen, hb⟩
  · -- one byte
    obtain rfl := List.length_eq_zero_iff.1 hlen
    have hcode : code b [] = b.toNat := rfl
    rw [hcode]
    exact encodeChar_one hb (toNat_ofNat_of_valid (by omega))
  · -- two bytes
    obtain ⟨x, rfl⟩ := List.length_eq_one_iff.1 hlen
    obtain ⟨hx, hx', -⟩ := (follows_iff b x).1 (hfirst x rfl)
    have hcode : code b [x] = b.toNat % 32 * 64 + x.toNat % 64 := rfl
    rw [hcode]
    exact encodeChar_two hb ⟨hx, hx'⟩ (toNat_ofNat_of_valid (by omega))
  · -- three bytes
    obtain ⟨x, y, rfl⟩ := List.length_eq_two.1 hlen
    obtain ⟨hx, hx', hlow, hsurrogate, -⟩ := (follows_iff b x).1 (hfirst x rfl)
    have hy := (isTail_iff y).1 (htail y (by simp))
    have hcode : code b [x, y] = (b.toNat % 16 * 64 + x.toNat % 64) * 64 + y.toNat % 64 := by
      simp [code]
    rw [hcode]
    exact encodeChar_three hb ⟨hx, hx'⟩ hlow hy (toNat_ofNat_of_valid (by omega))
  · -- four bytes
    obtain ⟨x, ts, rfl, hts⟩ := List.length_eq_succ_iff.1 hlen
    obtain ⟨y, z, rfl⟩ := List.length_eq_two.1 hts
    obtain ⟨hx, hx', -, -, hlow, hhigh⟩ := (follows_iff b x).1 (hfirst x rfl)
    have hy := (isTail_iff y).1 (htail y (by simp))
    have hz := (isTail_iff z).1 (htail z (by simp))
    have hcode : code b [x, y, z] =
        ((b.toNat % 8 * 64 + x.toNat % 64) * 64 + y.toNat % 64) * 64 + z.toNat % 64 := by
      simp [code]
    rw [hcode]
    exact encodeChar_four hb ⟨hx, hx'⟩ hlow hy hz (toNat_ofNat_of_valid (by omega))

/-- A unit that is a character is the bytes of that character. -/
theorem unit_eq_some {b : UInt8} {rest : Bytes} {c : Char} (h : (unit b rest).1 = some c) :
    ∃ ts rest', rest = ts ++ rest' ∧ (unit b rest).2 = ts.length ∧
      String.utf8EncodeChar c = b :: ts := by
  cases hcount : tailCount b with
  | none => simp [unit, hcount] at h
  | some count =>
      simp only [unit, hcount] at h ⊢
      split at h
      case isTrue hlen =>
        obtain ⟨rest', hrest⟩ := tails_prefix b count rest
        refine ⟨tails b count rest, rest', hrest.symm, rfl, ?_⟩
        rw [← Option.some.inj h]
        exact encodeChar_code (hcount.trans (congrArg some hlen.symm))
          (fun x hx => follows_of_mem_head? hx) fun x hx => isTail_of_mem_tail hx
      case isFalse => cases h

/-! ### Bytes that decode -/

/-- Bytes of which every unit is a character are a text. -/
theorem isText_of_units (bytes : Bytes) (h : none ∉ units bytes) : IsText bytes := by
  match bytes with
  | [] => exact .nil
  | b :: rest =>
      rw [units, unitsFrom, List.mem_cons, not_or] at h
      obtain ⟨c, hc⟩ := Option.ne_none_iff_exists'.1 (Ne.symm h.1)
      obtain ⟨ts, rest', rfl, hlen, hchar⟩ := unit_eq_some hc
      rw [hlen, unitsFrom_skip] at h
      have hfirst : IsText (b :: ts) :=
        ⟨[c], by rw [encode_cons, hchar, encode_nil, List.append_nil]⟩
      exact hfirst.append (isText_of_units rest' h.2)
termination_by bytes.length

theorem isText_iff_units {bytes : Bytes} : IsText bytes ↔ none ∉ units bytes := by
  refine ⟨?_, isText_of_units bytes⟩
  rintro ⟨t, rfl⟩
  simp [units_encode]

theorem mapM_id_eq_some {α : Type} {xs : List (Option α)} {t : List α} :
    xs.mapM id = some t ↔ xs = t.map some := by
  induction xs generalizing t with
  | nil => cases t <;> simp
  | cons x xs ih =>
      rw [List.mapM_cons]
      cases t <;> cases x <;> simp [ih, Option.bind_eq_some_iff, and_comm]

/-- What decodes to a text is the bytes of that text. -/
theorem decode?_eq_some_iff {bytes : Bytes} {t : Text} :
    decode? bytes = some t ↔ bytes = encode t := by
  rw [decode?, mapM_id_eq_some]
  constructor
  · intro h
    have hunits : none ∉ units bytes := by simp [h]
    obtain ⟨t', rfl⟩ := isText_of_units bytes hunits
    rw [units_encode] at h
    rw [(List.map_inj_right fun _ _ => Option.some.inj).1 h]
  · rintro rfl
    exact units_encode t

end StyleSieve.Utf8
