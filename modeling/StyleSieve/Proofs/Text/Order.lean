import StyleSieve.Proofs.Text.Utf8

/-!
# The order of texts is that of their bytes

`Text.atMost` compares the codes of characters.  Of two characters the one with the smaller code has
the smaller bytes, at the first place where their bytes differ, so the order of texts is the
lexicographic order of the bytes that `Utf8.encode` writes (`Text.atMost_iff`).  That order is
linear, so there is one way to sort by it what is called by different texts
(`Text.mergeSort_eq_iff`).
-/

namespace StyleSieve

namespace Utf8

section

variable {m n : Nat} {s t : Bytes}

theorem ofNat_cons_lt (hm : m < 256) (hn : n < 256) (h : m < n ∨ m = n ∧ s < t) :
    UInt8.ofNat m :: s < UInt8.ofNat n :: t := by
  rw [List.cons_lt_cons_iff, UInt8.lt_iff_toNat_lt, ← UInt8.toNat_inj, toNat_ofNat hm,
    toNat_ofNat hn]
  exact h

/-- The last six bits of a code go to the byte behind those of the rest. -/
theorem tail_lt (h : m < n ∨ m = n ∧ s < t) :
    m / 64 < n / 64 ∨ m / 64 = n / 64 ∧
      UInt8.ofNat (m % 0x40 + 0x80) :: s < UInt8.ofNat (n % 0x40 + 0x80) :: t := by
  have hcons := ofNat_cons_lt (m := m % 0x40 + 0x80) (n := n % 0x40 + 0x80) (s := s) (t := t)
    (by omega) (by omega)
  rcases h with h | ⟨rfl, h⟩
  · by_cases hrest : m / 64 < n / 64
    · exact .inl hrest
    · exact .inr ⟨by omega, hcons (.inl (by omega))⟩
  · exact .inr ⟨rfl, hcons (.inr ⟨rfl, h⟩)⟩

end

/-- The character with the smaller code has the smaller bytes, whatever follows. -/
theorem encodeChar_lt {c d : Char} (h : c.toNat < d.toNat) (s t : Bytes) :
    String.utf8EncodeChar c ++ s < String.utf8EncodeChar d ++ t := by
  have hvalid : d.toNat < 0xD800 ∨ 0xDFFF < d.toNat ∧ d.toNat < 0x110000 := d.valid
  have h₁ := tail_lt (s := s) (t := t) (.inl h)
  have h₂ := tail_lt h₁
  have h₃ := tail_lt h₂
  simp only [Nat.div_div_eq_div_mul, Nat.reduceMul] at h₂ h₃
  rcases encodeChar_cases c with ⟨hc, e⟩ | ⟨hc, hc', e⟩ | ⟨hc, hc', e⟩ | ⟨hc, e⟩
  all_goals
    rcases encodeChar_cases d with ⟨hd, e'⟩ | ⟨hd, hd', e'⟩ | ⟨hd, hd', e'⟩ | ⟨hd, e'⟩
    all_goals
      rw [e, e']
      refine ofNat_cons_lt (by omega) (by omega) ?_
      -- the first bytes decide, but for characters with as many bytes, more than one
      try exact .inl (by omega)
  · exact h₁.imp (by omega) fun ⟨hfirst, htails⟩ => ⟨by omega, htails⟩
  · exact h₂.imp (by omega) fun ⟨hfirst, htails⟩ => ⟨by omega, htails⟩
  · exact h₃.imp (by omega) fun ⟨hfirst, htails⟩ => ⟨by omega, htails⟩

end Utf8

namespace Text

open Utf8

/-- One text is at most another if and only if its bytes are. -/
theorem atMost_iff {s t : Text} : atMost s t = true ↔ encode s ≤ encode t := by
  induction s generalizing t with
  | nil => exact iff_of_true rfl (List.nil_le _)
  | cons c s ih =>
      cases t with
      | nil =>
          refine iff_of_false Bool.false_ne_true fun h => ?_
          exact List.cons_ne_nil c s (encode_eq_nil.1 (List.le_antisymm h (List.nil_le _)))
      | cons d t =>
          rw [atMost, encode_cons, encode_cons]
          simp only [Bool.or_eq_true, decide_eq_true_eq, Bool.and_eq_true, beq_iff_eq]
          rcases Nat.lt_trichotomy c.toNat d.toNat with h | h | h
          · exact iff_of_true (.inl h) (List.le_of_lt (encodeChar_lt h _ _))
          · obtain rfl : c = d := Char.toNat_inj.1 h
            simp only [Nat.lt_irrefl, false_or, true_and, ih]
            exact ⟨List.append_left_le, fun hle hlt => hle (List.append_left_lt hlt)⟩
          · refine iff_of_false ?_ fun hle => hle (encodeChar_lt h _ _)
            rintro (hlt | ⟨rfl, -⟩)
            · exact Nat.lt_asymm h hlt
            · exact Nat.lt_irrefl _ h

theorem atMost_trans {s t u : Text} (hst : atMost s t = true) (htu : atMost t u = true) :
    atMost s u = true :=
  atMost_iff.2 (List.le_trans (atMost_iff.1 hst) (atMost_iff.1 htu))

theorem atMost_total (s t : Text) : (atMost s t || atMost t s) = true := by
  rw [Bool.or_eq_true, atMost_iff, atMost_iff]
  exact List.le_total _ _

theorem encode_lt_of_atMost {s t : Text} (h : atMost s t = true) (hne : s ≠ t) :
    encode s < encode t :=
  (List.le_iff_lt_or_eq.1 (atMost_iff.1 h)).resolve_right fun e => hne (encode_inj.1 e)

/-- Things that are called differently are sorted by their names in one way. -/
theorem mergeSort_eq_iff {α : Type} {xs ys : List (Text × α)}
    (h : xs.Pairwise fun a b => a.1 ≠ b.1) :
    xs.mergeSort (fun a b => atMost a.1 b.1) = ys ↔
      ys.Perm xs ∧ ys.Pairwise fun a b => encode a.1 < encode b.1 := by
  have hperm := xs.mergeSort_perm fun a b => atMost a.1 b.1
  have hsorted : (xs.mergeSort fun a b => atMost a.1 b.1).Pairwise
      fun a b => encode a.1 < encode b.1 := by
    have hle : (xs.mergeSort fun a b => atMost a.1 b.1).Pairwise fun a b => atMost a.1 b.1 = true :=
      List.pairwise_mergeSort (fun a b c => @atMost_trans a.1 b.1 c.1)
        (fun a b => atMost_total a.1 b.1) xs
    have hne := (hperm.pairwise_iff Ne.symm).2 h
    exact hle.imp₂ (fun _ _ => encode_lt_of_atMost) hne
  constructor
  · rintro rfl
    exact ⟨hperm, hsorted⟩
  · rintro ⟨hys, hlt⟩
    exact (hperm.trans hys.symm).eq_of_pairwise
      (fun _ _ _ _ hab hba => absurd hba (List.lt_asymm hab)) hsorted hlt

end Text

end StyleSieve
