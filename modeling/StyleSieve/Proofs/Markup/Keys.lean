import StyleSieve.Proofs.Markup.Grammar
import StyleSieve.Proofs.Markup.Mark
import StyleSieve.Proofs.Text.Utf8

/-!
# Where markup and selectors meet

A start tag carries a piece of a selector if its bytes are those of the name: as its own name, as
that of an attribute, as a word of a class, or as an id.  The key of the piece is then one of the
keys that the tag names (`Tag.Carries.key`), for case is folded alike on both sides.
-/

namespace StyleSieve

namespace Markup

/-! ### Case -/

theorem lowerByte_of_le {b : UInt8} (h : 0x80 ≤ b.toNat) : lowerByte b = b := by
  refine if_neg ?_
  simp only [Bool.and_eq_true, decide_eq_true_eq, UInt8.le_iff_toNat_le, not_and, Nat.not_le]
  intro _
  exact Nat.lt_of_lt_of_le (by decide) h

theorem encodeChar_toLower (c : Char) :
    String.utf8EncodeChar c.toLower = (String.utf8EncodeChar c).map lowerByte := by
  by_cases h : c.toNat ≤ 0x7F
  · -- the characters of ASCII, one by one
    have hall : ∀ n : Fin 128, String.utf8EncodeChar (Char.ofNat n).toLower =
        (String.utf8EncodeChar (Char.ofNat n)).map lowerByte := by decide +kernel
    have hc := hall ⟨c.toNat, by omega⟩
    rwa [Char.ofNat_toNat] at hc
  · have hlower : c.toLower = c := by
      refine dif_neg fun hupper => h ?_
      exact Nat.le_trans (UInt32.le_iff_toNat_le.1 hupper.2) (by decide)
    rw [hlower]
    refine (List.map_id _).symm.trans (List.map_congr_left fun x hx => ?_)
    exact (lowerByte_of_le (Utf8.le_of_mem_encodeChar (Nat.not_le.1 h) hx)).symm

/-- Case is folded in a text as in its bytes. -/
theorem encode_lower (t : Text) : Utf8.encode (Text.lower t) = (Utf8.encode t).map lowerByte := by
  induction t with
  | nil => rfl
  | cons c t ih =>
      rw [Text.lower, List.map_cons, Utf8.encode_cons, Utf8.encode_cons, List.map_append,
        encodeChar_toLower, ← Text.lower, ih]

theorem map_lowerByte (n : Bytes) : (n.map lowerByte).map lowerByte = n.map lowerByte := by
  rw [List.map_map]
  exact List.map_congr_left fun b _ => lowerByte_lowerByte b

/-! ### Keys -/

/-- The bytes of a name fit whole. -/
def Fits (name : Text) : Prop := (Utf8.encode name).length ≤ maxName

/-- What a selector asks for with a piece is written in a start tag, byte by byte; only names of
tags and attributes may differ in case. -/
def Tag.Carries (t : Tag) : Piece → Prop
  | .universal => False
  | .element name => t.name.map lowerByte = Utf8.encode name ∧ Fits name
  | .attr name => ∃ a ∈ t.attrs, a.name.map lowerByte = Utf8.encode name ∧ Fits name
  | .className name =>
    ∃ a ∈ t.attrs, AttrKind.of (a.name.map lowerByte) = .classes ∧
      ∃ v, a.value = some v ∧ Utf8.encode name ∈ v.splitOnP (fun b => Mark.of b = .space) ∧
        name ≠ [] ∧ Fits name
  | .id name =>
    ∃ a ∈ t.attrs, AttrKind.of (a.name.map lowerByte) = .id ∧
      a.value = some (Utf8.encode name) ∧ name ≠ [] ∧ (∀ c ∈ name, Text.isBlank c = false) ∧
        Fits name

variable {t : Tag} {a : Attr} {n : Bytes} {name : Text}

theorem Fits.take (h : Fits name) : (Utf8.encode name).take maxName = Utf8.encode name :=
  List.take_of_length_le h

/-- A name that is carried is kept whole. -/
theorem keptName_of_eq (h : n.map lowerByte = Utf8.encode name) (hfits : Fits name) :
    Utf8.decodeLossy (keptName n) = name := by
  rw [keptName, h, hfits.take, Utf8.decodeLossy_encode]

/-- A name in lower case is in lower case as a text. -/
theorem lower_of_eq (h : n.map lowerByte = Utf8.encode name) : Text.lower name = name := by
  refine Utf8.encode_inj.1 ?_
  rw [encode_lower, ← h, map_lowerByte]

/-- The attributes that are looked into have short names. -/
theorem kind_keptName {kind : AttrKind} (h : AttrKind.of (n.map lowerByte) = kind)
    (hkind : kind ≠ .other) : AttrKind.of (keptName n) = kind := by
  have hlen : (n.map lowerByte).length ≤ maxName := by
    unfold AttrKind.of at h
    split at h
    case isTrue e =>
      rw [e]
      decide
    case isFalse =>
      split at h
      case isTrue e =>
        rw [e]
        decide
      case isFalse => exact absurd h.symm hkind
  rw [keptName, List.take_of_length_le hlen, h]

theorem trim_of_isBlank {t : Text} (h : ∀ c ∈ t, Text.isBlank c = false) : Text.trim t = t := by
  have hstart : Text.trimStart t = t := by
    cases t with
    | nil => rfl
    | cons c t => simp [Text.trimStart, h c (by simp)]
  rw [Text.trim, hstart, Text.trimEnd]
  cases hr : t.reverse with
  | nil => simpa using hr
  | cons c u =>
      have hc : Text.isBlank c = false := h c (List.mem_reverse.1 (hr ▸ List.mem_cons_self))
      rw [List.dropWhile_cons_of_neg (by simp [hc]), ← hr, List.reverse_reverse]

theorem Attr.mem_keys {v : Bytes} {k : Text} (ha : a ∈ t.attrs) (hv : a.value = some v)
    (hk : k ∈ valueKeys (.of (keptName a.name)) v) : k ∈ t.keys := by
  refine List.mem_cons_of_mem _ (List.mem_flatMap.2 ⟨a, ha, List.mem_cons_of_mem _ ?_⟩)
  rwa [hv]

/-- What a tag carries, it names. -/
theorem Tag.Carries.key {p : Piece} (h : t.Carries p) : ∃ k, p.key = some k ∧ k ∈ t.keys := by
  cases p with
  | universal => exact h.elim
  | element name =>
      obtain ⟨hname, hfits⟩ := h
      refine ⟨name, rfl, ?_⟩
      rw [Tag.keys, keptName_of_eq hname hfits, Key.tag, lower_of_eq hname]
      exact List.mem_cons_self
  | attr name =>
      obtain ⟨a, ha, hname, hfits⟩ := h
      refine ⟨_, rfl, List.mem_cons_of_mem _ (List.mem_flatMap.2 ⟨a, ha, ?_⟩)⟩
      rw [Attr.keys, keptName_of_eq hname hfits]
      exact List.mem_cons_self
  | className name =>
      obtain ⟨a, ha, hkind, v, hv, hword, hne, hfits⟩ := h
      refine ⟨_, rfl, Attr.mem_keys ha hv ?_⟩
      rw [kind_keptName hkind (by decide), valueKeys, List.mem_filterMap]
      refine ⟨_, hword, ?_⟩
      have hbytes : Utf8.encode name ≠ [] := mt Utf8.encode_eq_nil.1 hne
      rw [hfits.take, Scanner.wordKey, if_neg (by simpa using hbytes), Utf8.decodeLossy_encode]
  | id name =>
      obtain ⟨a, ha, hkind, hv, hne, hblank, hfits⟩ := h
      refine ⟨_, rfl, Attr.mem_keys ha hv ?_⟩
      rw [kind_keptName hkind (by decide), valueKeys, hfits.take, Scanner.wordKey,
        Utf8.decodeLossy_encode, trim_of_isBlank hblank]
      simp [hne]

end Markup

end StyleSieve
