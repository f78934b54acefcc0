import Mathlib.Data.List.TakeWhile
import StyleSieve.Text.Utf8

/-!
# Text survives UTF-8

The bytes of a text decode to that text (`Utf8.decodeLossy_encode`): each character is one unit,
whatever follows it.  So `encode` loses nothing, and bytes that are a text stay one when they are
cut behind a byte of ASCII (`Utf8.IsText.split`), for no such byte is a part of a longer character.
-/

namespace StyleSieve.Utf8

/-! ### A unit -/

theorem tails_append {b : UInt8} {ts : Bytes} (hfirst : ∀ x ∈ ts.head?, follows b x = true)
    (htail : ∀ x ∈ ts.tail, isTail x = true) (rest : Bytes) :
    tails b ts.length (ts ++ rest) = ts := by
  cases ts with
  | nil => cases rest <;> simp [tails]
  | cons x ts =>
      simp only [List.head?_cons, Option.mem_some_iff, forall_eq', List.tail_cons] at hfirst htail
      simp only [List.cons_append, tails, List.length_cons, hfirst]
      simp only [Nat.add_one_ne_zero, ne_eq, not_false_eq_true, decide_true, Bool.true_and,
        if_true, Nat.add_sub_cancel, List.take_left]
      rw [List.takeWhile_eq_self_iff.2 htail]

/-- A first byte and all its tails are a unit. -/
theorem unit_append {b : UInt8} {ts : Bytes} (hcount : tailCount b = some ts.length)
    (hfirst : ∀ x ∈ ts.head?, follows b x = true) (htail : ∀ x ∈ ts.tail, isTail x = true)
    (rest : Bytes) : unit b (ts ++ rest) = (some (Char.ofNat (code b ts)), ts.length) := by
  simp only [unit, hcount, tails_append hfirst htail, if_true]

/-! ### A character -/

theorem toNat_ofNat {n : Nat} (h : n < 256) : (UInt8.ofNat n).toNat = n := by
  rw [UInt8.toNat_ofNat', Nat.mod_eq_of_lt h]

theorem isTail_iff (b : UInt8) : isTail b = true ↔ 0x80 ≤ b.toNat ∧ b.toNat ≤ 0xBF := by
  simp only [isTail, Bool.and_eq_true, decide_eq_true_eq, UInt8.le_iff_toNat_le]
  rfl

theorem follows_iff (a b : UInt8) :
    follows a b = true ↔
      0x80 ≤ b.toNat ∧ b.toNat ≤ 0xBF ∧ (a.toNat = 0xE0 → 0xA0 ≤ b.toNat) ∧
        (a.toNat = 0xED → b.toNat ≤ 0x9F) ∧ (a.toNat = 0xF0 → 0x90 ≤ b.toNat) ∧
        (a.toNat = 0xF4 → b.toNat ≤ 0x8F) := by
  have h (n : UInt8) : a = n ↔ a.toNat = n.toNat := UInt8.toNat_inj.symm
  simp only [follows, h]
  split
  case isTrue e => simp [UInt8.le_iff_toNat_le, e]; omega
  case isFalse e₁ =>
    split
    case isTrue e => simp [UInt8.le_iff_toNat_le, e]; omega
    case isFalse e₂ =>
      split
      case isTrue e => simp [UInt8.le_iff_toNat_le, e]; omega
      case isFalse e₃ =>
        split
        case isTrue e => simp [UInt8.le_iff_toNat_le, e]; omega
        case isFalse e₄ =>
          rw [isTail_iff]
          simp at e₁ e₂ e₃ e₄
          omega

theorem tailCount_eq (b : UInt8) :
    tailCount b =
      if b.toNat ≤ 0x7F then some 0
      else if 0xC2 ≤ b.toNat ∧ b.toNat ≤ 0xDF then some 1
      else if 0xE0 ≤ b.toNat ∧ b.toNat ≤ 0xEF then some 2
      else if 0xF0 ≤ b.toNat ∧ b.toNat ≤ 0xF4 then some 3
      else none := by
  simp [tailCount, UInt8.le_iff_toNat_le]

/-- The bytes of a character, by the number of them. -/
theorem encodeChar_cases (c : Char) :
    (c.toNat ≤ 0x7F ∧ String.utf8EncodeChar c = [UInt8.ofNat c.toNat]) ∨
    (0x7F < c.toNat ∧ c.toNat ≤ 0x7FF ∧ String.utf8EncodeChar c =
      [.ofNat (c.toNat / 64 % 0x20 + 0xC0), .ofNat (c.toNat % 0x40 + 0x80)]) ∨
    (0x7FF < c.toNat ∧ c.toNat ≤ 0xFFFF ∧ String.utf8EncodeChar c =
      [.ofNat (c.toNat / 4096 % 0x10 + 0xE0), .ofNat (c.toNat / 64 % 0x40 + 0x80),
        .ofNat (c.toNat % 0x40 + 0x80)]) ∨
    (0xFFFF < c.toNat ∧ String.utf8EncodeChar c =
      [.ofNat (c.toNat / 262144 % 0x08 + 0xF0), .ofNat (c.toNat / 4096 % 0x40 + 0x80),
        .ofNat (c.toNat / 64 % 0x40 + 0x80), .ofNat (c.toNat % 0x40 + 0x80)]) := by
  by_cases h₁ : c.toNat ≤ 0x7F
  · exact .inl ⟨h₁, if_pos h₁⟩
  by_cases h₂ : c.toNat ≤ 0x7FF
  · exact .inr (.inl ⟨by omega, h₂, (if_neg h₁).trans (if_pos h₂)⟩)
  by_cases h₃ : c.toNat ≤ 0xFFFF
  · exact .inr (.inr (.inl ⟨by omega, h₃, (if_neg h₁).trans ((if_neg h₂).trans (if_pos h₃))⟩))
  · exact .inr (.inr (.inr ⟨by omega, (if_neg h₁).trans ((if_neg h₂).trans (if_neg h₃))⟩))

/-- The bytes of a character are one unit, whatever follows them. -/
theorem unit_encodeChar (c : Char) :
    ∃ b ts, String.utf8EncodeChar c = b :: ts ∧
      ∀ rest, unit b (ts ++ rest) = (some c, ts.length) := by
  have hvalid : c.toNat < 0xD800 ∨ 0xDFFF < c.toNat ∧ c.toNat < 0x110000 := c.valid
  have whole {b : UInt8} {ts : Bytes} (hcount : tailCount b = some ts.length)
      (hfirst : ∀ x ∈ ts.head?, follows b x = true) (htail : ∀ x ∈ ts.tail, isTail x = true)
      (hcode : code b ts = c.toNat) (rest : Bytes) : unit b (ts ++ rest) = (some c, ts.length) := by
    rw [unit_append hcount hfirst htail, hcode, Char.ofNat_toNat]
  rcases encodeChar_cases c with ⟨h, e⟩ | ⟨h, h', e⟩ | ⟨h, h', e⟩ | ⟨h, e⟩
  · -- one byte
    refine ⟨_, _, e, whole ?_ ?_ ?_ ?_⟩
    · rw [tailCount_eq, toNat_ofNat (by omega), if_pos h]
      rfl
    · simp
    · simp
    · simp [code, toNat_ofNat (show c.toNat < 256 by omega)]
  · -- two bytes
    refine ⟨_, _, e, whole ?_ ?_ ?_ ?_⟩
    · rw [tailCount_eq, toNat_ofNat (by omega), if_neg (by omega), if_pos (by omega)]
      rfl
    · simp only [List.head?_cons, Option.mem_some_iff, forall_eq', follows_iff]
      rw [toNat_ofNat (by omega), toNat_ofNat (by omega)]
      omega
    · simp
    · simp only [code, List.isEmpty_cons, List.length_singleton, List.foldl_cons, List.foldl_nil]
      rw [toNat_ofNat (by omega), toNat_ofNat (by omega)]
      simp
      omega
  · -- three bytes
    refine ⟨_, _, e, whole ?_ ?_ ?_ ?_⟩
    · rw [tailCount_eq, toNat_ofNat (by omega), if_neg (by omega), if_neg (by omega),
        if_pos (by omega)]
      rfl
    · simp only [List.head?_cons, Option.mem_some_iff, forall_eq', follows_iff]
      rw [toNat_ofNat (by omega), toNat_ofNat (by omega)]
      omega
    · simp only [List.tail_cons, List.forall_mem_singleton, isTail_iff]
      rw [toNat_ofNat (by omega)]
      omega
    · simp only [code, List.isEmpty_cons, List.length_cons, List.length_nil, List.foldl_cons,
        List.foldl_nil]
      rw [toNat_ofNat (by omega), toNat_ofNat (by omega), toNat_ofNat (by omega)]
      simp
      omega
  · -- four bytes
    refine ⟨_, _, e, whole ?_ ?_ ?_ ?_⟩
    · rw [tailCount_eq, toNat_ofNat (by omega), if_neg (by omega), if_neg (by omega),
        if_neg (by omega), if_pos (by omega)]
      rfl
    · simp only [List.head?_cons, Option.mem_some_iff, forall_eq', follows_iff]
      rw [toNat_ofNat (by omega), toNat_ofNat (by omega)]
      omega
    · simp only [List.tail_cons, List.forall_mem_cons, isTail_iff]
      rw [toNat_ofNat (by omega), toNat_ofNat (by omega)]
      refine ⟨by omega, by omega, by simp⟩
    · simp only [code, List.isEmpty_cons, List.length_cons, List.length_nil, List.foldl_cons,
        List.foldl_nil]
      rw [toNat_ofNat (by omega), toNat_ofNat (by omega), toNat_ofNat (by omega),
        toNat_ofNat (by omega)]
      simp
      omega
/-! ### A text -/

theorem encode_nil : encode [] = [] := rfl

theorem encode_cons (c : Char) (t : Text) : encode (c :: t) = String.utf8EncodeChar c ++ encode t :=
  List.flatMap_cons

theorem encode_append (s t : Text) : encode (s ++ t) = encode s ++ encode t :=
  List.flatMap_append

theorem unitsFrom_skip (ts rest : Bytes) : unitsFrom ts.length (ts ++ rest) = units rest := by
  induction ts with
  | nil => rfl
  | cons b ts ih => exact ih

/-- The units of the bytes of a text are its characters. -/
theorem units_encode (t : Text) : units (encode t) = t.map some := by
  induction t with
  | nil => rfl
  | cons c t ih =>
      obtain ⟨b, ts, e, hunit⟩ := unit_encodeChar c
      rw [encode_cons, e, List.cons_append, units, unitsFrom, hunit, unitsFrom_skip, ih,
        List.map_cons]

theorem decodeLossy_encode (t : Text) : decodeLossy (encode t) = t := by
  rw [decodeLossy, units_encode, List.map_map]
  exact List.map_id t

theorem encode_inj {s t : Text} : encode s = encode t ↔ s = t := by
  refine ⟨fun h => ?_, congrArg encode⟩
  rw [← decodeLossy_encode s, h, decodeLossy_encode]

theorem encode_eq_nil {t : Text} : encode t = [] ↔ t = [] := by
  rw [← encode_nil, encode_inj]

/-! ### Bytes that are a text -/

/-- The bytes are those of a text. -/
def IsText (bytes : Bytes) : Prop := ∃ t, bytes = encode t

theorem isText_encode (t : Text) : IsText (encode t) := ⟨t, rfl⟩

theorem IsText.nil : IsText [] := ⟨[], rfl⟩

theorem IsText.append {a b : Bytes} (ha : IsText a) (hb : IsText b) : IsText (a ++ b) := by
  obtain ⟨s, rfl⟩ := ha
  obtain ⟨t, rfl⟩ := hb
  exact ⟨s ++ t, (encode_append s t).symm⟩

theorem IsText.flatten {xs : List Bytes} (h : ∀ x ∈ xs, IsText x) : IsText xs.flatten := by
  induction xs with
  | nil => exact .nil
  | cons x xs ih =>
      obtain ⟨hx, hxs⟩ := List.forall_mem_cons.1 h
      exact hx.append (ih hxs)

theorem IsText.flatMap {α : Type} {xs : List α} {f : α → Bytes} (h : ∀ x ∈ xs, IsText (f x)) :
    IsText (xs.flatMap f) :=
  .flatten (List.forall_mem_map.2 h)

theorem IsText.encode_decodeLossy {bytes : Bytes} (h : IsText bytes) :
    encode (decodeLossy bytes) = bytes := by
  obtain ⟨t, rfl⟩ := h
  rw [decodeLossy_encode]

/-- A byte of ASCII is a character by itself. -/
theorem encodeChar_of_mem {c : Char} {x : UInt8} (h : x ∈ String.utf8EncodeChar c)
    (hx : x.toNat ≤ 0x7F) : String.utf8EncodeChar c = [x] := by
  rcases encodeChar_cases c with ⟨-, e⟩ | ⟨h₁, h₂, e⟩ | ⟨h₁, h₂, e⟩ | ⟨h₁, e⟩
  · rw [e, List.mem_singleton] at h
    rw [e, h]
  all_goals
    have hvalid : c.toNat < 0xD800 ∨ 0xDFFF < c.toNat ∧ c.toNat < 0x110000 := c.valid
    simp only [e, List.mem_cons, List.not_mem_nil, or_false] at h
    exfalso
  · rcases h with rfl | rfl
    all_goals
      rw [toNat_ofNat (by omega)] at hx
      omega
  · rcases h with rfl | rfl | rfl
    all_goals
      rw [toNat_ofNat (by omega)] at hx
      omega
  · rcases h with rfl | rfl | rfl | rfl
    all_goals
      rw [toNat_ofNat (by omega)] at hx
      omega

/-- No byte of a longer character is one of ASCII. -/
theorem le_of_mem_encodeChar {c : Char} (h : 0x7F < c.toNat) {x : UInt8}
    (hx : x ∈ String.utf8EncodeChar c) : 0x80 ≤ x.toNat := by
  by_contra hlt
  have hsingle := encodeChar_of_mem hx (by omega)
  rcases encodeChar_cases c with ⟨hle, -⟩ | ⟨-, -, e⟩ | ⟨-, -, e⟩ | ⟨-, e⟩
  · omega
  all_goals simp [e] at hsingle

/-- A text may be cut behind a byte of ASCII. -/
theorem IsText.split {a b : Bytes} {x : UInt8} (h : IsText (a ++ x :: b)) (hx : x.toNat ≤ 0x7F) :
    IsText (a ++ [x]) ∧ IsText b := by
  obtain ⟨t, h⟩ := h
  induction t generalizing a with
  | nil => simp [encode_nil] at h
  | cons c t ih =>
      rw [encode_cons] at h
      have hchar : IsText (String.utf8EncodeChar c) := ⟨[c], by simp [encode]⟩
      rcases List.append_eq_append_iff.1 h with ⟨d, hd, hb⟩ | ⟨d, rfl, ht⟩
      · cases d with
        | nil =>
            rw [List.append_nil] at hd
            obtain ⟨ha', hb'⟩ := ih (a := []) hb
            exact ⟨hd ▸ hchar.append ha', hb'⟩
        | cons y d =>
            -- the byte is a part of the character, so it is the whole of it
            obtain ⟨rfl, hrest⟩ := List.cons.inj hb
            have hc := encodeChar_of_mem (c := c) (x := x) (by simp [hd]) hx
            have hlen := congrArg List.length (hc.symm.trans hd)
            simp only [List.length_append, List.length_cons, List.length_nil] at hlen
            obtain rfl : a = [] := List.eq_nil_of_length_eq_zero (by omega)
            obtain rfl : d = [] := List.eq_nil_of_length_eq_zero (by omega)
            exact ⟨hc ▸ hchar, t, hrest⟩
      · obtain ⟨ha', hb'⟩ := ih ht.symm
        rw [List.append_assoc]
        exact ⟨hchar.append ha', hb'⟩

end StyleSieve.Utf8
