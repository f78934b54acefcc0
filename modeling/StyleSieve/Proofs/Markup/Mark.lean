import StyleSieve.Markup.Mark

/-!
# The bytes behind a mark

Which bytes have a given meaning, and what becomes of it when letters change case.  There are only
256 bytes, so a fact about all of them is checked byte by byte (`forall_byte`).
-/

namespace StyleSieve.Markup

/-- What holds of each of the 256 bytes holds of every byte. -/
theorem forall_byte {p : UInt8 → Prop} (h : ∀ n : Fin 256, p (UInt8.ofNat n)) (b : UInt8) :
    p b := by
  have hb := h ⟨b.toNat, b.toNat_lt⟩
  rwa [UInt8.ofNat_toNat] at hb

namespace Mark

/-- The byte of a mark that no other byte has. -/
def byte? : Mark → Option UInt8
  | .less => some 0x3C
  | .greater => some 0x3E
  | .slash => some 0x2F
  | .bang => some 0x21
  | .question => some 0x3F
  | .dash => some 0x2D
  | .equals => some 0x3D
  | .quote | .space | .letter | .other => none

theorem of_byte? {m : Mark} {v : UInt8} (h : m.byte? = some v) : Mark.of v = m := by
  cases m <;> cases h <;> rfl

theorem byte?_of (b : UInt8) : (Mark.of b).byte? = none ∨ (Mark.of b).byte? = some b := by
  revert b
  exact forall_byte (by decide +kernel)

theorem of_eq_iff {m : Mark} {v : UInt8} (h : m.byte? = some v) (b : UInt8) :
    Mark.of b = m ↔ b = v := by
  constructor
  · rintro rfl
    rcases byte?_of b with hb | hb
    · rw [hb] at h
      cases h
    · exact Option.some.inj (hb.symm.trans h)
  · rintro rfl
    exact of_byte? h

theorem of_eq_less (b : UInt8) : Mark.of b = .less ↔ b = 0x3C := of_eq_iff rfl b

theorem of_eq_greater (b : UInt8) : Mark.of b = .greater ↔ b = 0x3E := of_eq_iff rfl b

theorem of_eq_slash (b : UInt8) : Mark.of b = .slash ↔ b = 0x2F := of_eq_iff rfl b

theorem of_eq_bang (b : UInt8) : Mark.of b = .bang ↔ b = 0x21 := of_eq_iff rfl b

theorem of_eq_question (b : UInt8) : Mark.of b = .question ↔ b = 0x3F := of_eq_iff rfl b

theorem of_eq_dash (b : UInt8) : Mark.of b = .dash ↔ b = 0x2D := of_eq_iff rfl b

theorem of_eq_equals (b : UInt8) : Mark.of b = .equals ↔ b = 0x3D := of_eq_iff rfl b

/-- Only a letter has two cases. -/
theorem of_lowerByte (b : UInt8) : Mark.of (lowerByte b) = Mark.of b := by
  revert b
  exact forall_byte (by decide +kernel)

end Mark

theorem lowerByte_lowerByte (b : UInt8) : lowerByte (lowerByte b) = lowerByte b := by
  revert b
  exact forall_byte (by decide +kernel)

end StyleSieve.Markup
