import Mathlib.Order.Bounds.Image
import StyleSieve.Proofs.Selector.Active
import StyleSieve.Proofs.Text.Utf8

/-!
# The break in bytes

`breakOffset` reads a selector byte by byte.  To a cursor every byte of a longer character is like
the character itself, for neither is anything that it knows, so what it finds active in the bytes is
what it finds active in the text (`kinds_encode`).

* `firstBreak_eq_some_iff`: the least place, but for the start, that is the first of its kind.
* `breakOffset_eq`: the break in bytes is the break in characters, so it cuts no character.
* `breakOffset_exact`: where a selector is cut.
-/

namespace StyleSieve

namespace Utf8

/-- How many bytes the first `n` characters of a text take. -/
def offset (t : Text) (n : Nat) : Nat := (encode (t.take n)).length

variable {t : Text} {m n : Nat}

theorem offset_zero (t : Text) : offset t 0 = 0 := rfl

theorem offset_succ (c : Char) (t : Text) (n : Nat) :
    offset (c :: t) (n + 1) = (String.utf8EncodeChar c).length + offset t n := by
  rw [offset, List.take_succ_cons, encode_cons, List.length_append, offset]

theorem offset_length (t : Text) : offset t t.length = (encode t).length := by
  rw [offset, List.take_length]

theorem offset_append (s t : Text) : offset (s ++ t) s.length = (encode s).length := by
  rw [offset, List.take_left]

theorem offset_mono (t : Text) : Monotone (offset t) := by
  intro m n h
  obtain ⟨rest, hrest⟩ := List.take_prefix_take_left (l := t) h
  rw [offset, offset, ← hrest, encode_append, List.length_append]
  exact Nat.le_add_right ..

/-- Up to the end of the text every character takes bytes. -/
theorem offset_lt_offset (h : m < n) (hm : m < t.length) : offset t m < offset t n := by
  induction t generalizing m n with
  | nil => exact absurd hm (Nat.not_lt_zero m)
  | cons c t ih =>
      obtain ⟨n, rfl⟩ := Nat.exists_eq_succ_of_ne_zero (Nat.ne_zero_of_lt h)
      rw [offset_succ]
      cases m with
      | zero =>
          have hc := List.length_pos_iff.2 (String.utf8EncodeChar_ne_nil (c := c))
          rw [offset_zero]
          omega
      | succ m =>
          have hlt := ih (Nat.lt_of_succ_lt_succ h) (Nat.lt_of_succ_lt_succ hm)
          rw [offset_succ]
          omega

end Utf8

namespace Selector

open Utf8 (encode offset)
open Cursor (kinds)

variable {ks : List (Option BreakKind)} {i n : Nat} {k : BreakKind} {t : Text}

/-! ### The first of each kind -/

/-- The kind that is found at place `i` is found there first. -/
def IsFirst (ks : List (Option BreakKind)) (i : Nat) : Prop :=
  ∃ k, ks[i]? = some (some k) ∧ ∀ j < i, ks[j]? ≠ some (some k)

theorem BreakKind.mem_all (k : BreakKind) : k ∈ BreakKind.all := by
  cases k <;> decide

theorem findIdx?_eq_some_iff_first :
    ks.findIdx? (· == some k) = some i ↔
      ks[i]? = some (some k) ∧ ∀ j < i, ks[j]? ≠ some (some k) := by
  rw [List.findIdx?_eq_some_iff_getElem]
  constructor
  · rintro ⟨h, hk, hbefore⟩
    refine ⟨?_, fun j hj e => ?_⟩
    · rw [List.getElem?_eq_getElem h, beq_iff_eq.1 hk]
    · obtain ⟨hlt, e⟩ := List.getElem?_eq_some_iff.1 e
      exact hbefore j hj (beq_iff_eq.2 e)
  · rintro ⟨hk, hbefore⟩
    obtain ⟨h, e⟩ := List.getElem?_eq_some_iff.1 hk
    refine ⟨h, beq_iff_eq.2 e, fun j hj e => ?_⟩
    refine hbefore j hj ?_
    rw [List.getElem?_eq_getElem (Nat.lt_trans hj h), beq_iff_eq.1 e]

theorem mem_firsts :
    i ∈ (BreakKind.all.filterMap fun k => ks.findIdx? (· == some k)).filter (0 < ·) ↔
      0 < i ∧ IsFirst ks i := by
  simp only [List.mem_filter, List.mem_filterMap, BreakKind.mem_all, true_and,
    findIdx?_eq_some_iff_first, decide_eq_true_eq, and_comm, IsFirst]

theorem firstBreak_eq_some_iff :
    firstBreak ks = some n ↔ IsLeast {i | 0 < i ∧ IsFirst ks i} n := by
  rw [firstBreak, List.min?_eq_some_iff]
  simp only [mem_firsts]
  rfl

theorem firstBreak_eq_none_iff : firstBreak ks = none ↔ ∀ i, 0 < i → ¬ IsFirst ks i := by
  rw [firstBreak, List.min?_eq_none_iff, List.eq_nil_iff_forall_not_mem]
  simp only [mem_firsts, not_and]

section

variable {first : Option BreakKind} {rest : List (Option BreakKind)}

/-- What is the first of its kind behind the start ends the compound. -/
theorem ends_of_isFirst (h : IsFirst (first :: rest) (i + 1)) :
    ∃ kind, rest[i]? = some kind ∧ ends first kind = true := by
  obtain ⟨k, hk, hbefore⟩ := h
  have hne : some k ≠ first := fun e => hbefore 0 (Nat.succ_pos i) (congrArg some e.symm)
  exact ⟨some k, hk, by simpa [ends] using hne⟩

/-- What ends the compound is the first of its kind, if nothing in front of it does. -/
theorem isFirst_of_ends {kind : Option BreakKind} (hkind : rest[i]? = some kind)
    (hends : ends first kind = true) (hbefore : ∀ j < i, ∀ k ∈ rest[j]?, ends first k = false) :
    IsFirst (first :: rest) (i + 1) := by
  obtain ⟨hsome, hne⟩ : kind.isSome = true ∧ kind ≠ first := by simpa [ends] using hends
  obtain ⟨k, rfl⟩ := Option.isSome_iff_exists.1 hsome
  refine ⟨k, hkind, fun j hj e => ?_⟩
  cases j with
  | zero => exact hne (Option.some.inj e).symm
  | succ j =>
      have hpasses := hbefore j (Nat.lt_of_succ_lt_succ hj) (some k) e
      rw [hends] at hpasses
      cases hpasses

theorem firstBreak_cons (first : Option BreakKind) (rest : List (Option BreakKind)) :
    firstBreak (first :: rest) = (rest.findIdx? (ends first)).map (· + 1) := by
  cases h : rest.findIdx? (ends first) with
  | none =>
      refine firstBreak_eq_none_iff.2 fun i hi hfirst => ?_
      obtain ⟨i, rfl⟩ := Nat.exists_eq_succ_of_ne_zero (Nat.ne_of_gt hi)
      obtain ⟨kind, hkind, hends⟩ := ends_of_isFirst hfirst
      rw [List.findIdx?_eq_none_iff.1 h kind (List.mem_of_getElem? hkind)] at hends
      cases hends
  | some m =>
      obtain ⟨hm, hends, hbefore⟩ := List.findIdx?_eq_some_iff_getElem.1 h
      refine firstBreak_eq_some_iff.2 ⟨⟨Nat.succ_pos m, ?_⟩, ?_⟩
      · refine isFirst_of_ends (List.getElem?_eq_getElem hm) hends fun j hj k hk => ?_
        obtain ⟨-, rfl⟩ := List.getElem?_eq_some_iff.1 hk
        exact Bool.eq_false_iff.2 (hbefore j hj)
      · rintro i ⟨hi, hfirst⟩
        obtain ⟨i, rfl⟩ := Nat.exists_eq_succ_of_ne_zero (Nat.ne_of_gt hi)
        obtain ⟨kind, hkind, hstops⟩ := ends_of_isFirst hfirst
        obtain ⟨hlt, rfl⟩ := List.getElem?_eq_some_iff.1 hkind
        exact Nat.succ_le_succ (Nat.le_of_not_lt fun hlt => hbefore i hlt hstops)

end

theorem breakLength_eq (selector : Text) :
    breakLength selector = (firstBreak (kinds {} selector)).getD selector.length := by
  have hlength := Cursor.length_kinds {} selector
  cases hks : kinds {} selector with
  | nil =>
      rw [breakLength, hks]
      rw [hks] at hlength
      exact hlength
  | cons first rest =>
      rw [hks, List.length_cons] at hlength
      rw [breakLength_of_cons hks, firstBreak_cons, ← hlength, Option.getD_map (· + 1),
        List.findIdx_eq_getD_findIdx?]

/-! ### A cursor over bytes -/

/-- The string that a cursor is in, if any, is between quotes. -/
def Cursor.Quoted (s : Cursor) : Prop := ∀ q ∈ s.quote, isQuote q = true

namespace Cursor

variable {s : Cursor} {c : Char}

theorem Quoted.start : Quoted {} := fun _ h => nomatch h

theorem Quoted.plain (h : s.Quoted) (c : Char) : (s.plain c).1.Quoted := by
  grind [Quoted, Cursor.plain, isQuote]

theorem Quoted.step (h : s.Quoted) (c : Char) : (s.step c).1.Quoted := by
  grind [Quoted, Cursor.step, Quoted.plain]

/-- A character outside ASCII is nothing that a cursor knows. -/
theorem step_wide (h : s.Quoted) (hc : 0x7F < c.toNat) :
    s.step c = ({ s with escape := .none }, none) := by
  have hne {d : Char} (hd : d.toNat ≤ 0x7F) : c ≠ d := by
    rintro rfl
    omega
  have hdigit : Text.isHexDigit c = false := by
    rw [← Bool.not_eq_true]
    intro h
    have := Text.toNat_of_isHexDigit h
    omega
  have hspace : Text.isSpace c = false := by
    simp only [Text.isSpace, Bool.or_eq_false_iff, beq_eq_false_iff_ne]
    exact ⟨⟨⟨⟨hne (by decide), hne (by decide)⟩, hne (by decide)⟩, hne (by decide)⟩,
      hne (by decide)⟩
  have hkind : BreakKind.of? c = none := BreakKind.of?_eq_none hspace (hne (by decide))
    (hne (by decide)) (hne (by decide)) (hne (by decide))
  have hquote : s.quote ≠ some c := by
    intro e
    have hc := h c e
    simp [isQuote, hne (d := '\x22') (by decide), hne (d := '\x27') (by decide)] at hc
  have hplain : s.plain c = ({ s with escape := .none }, none) := by
    simp only [Cursor.plain, hne (d := '\\') (by decide), hne (d := '\x22') (by decide),
      hne (d := '\x27') (by decide), hne (d := '[') (by decide), hne (d := '(') (by decide),
      hne (d := ']') (by decide), hne (d := ')') (by decide), hkind, if_false, decide_false,
      Bool.or_self, Bool.and_false, Bool.false_eq_true, ite_self]
    split
    case h_1 q hq => rw [if_neg (fun e => hquote (by rw [hq, e]))]
    case h_2 => rfl
  obtain ⟨escape, quote, depth⟩ := s
  cases escape with
  | none => exact hplain
  | begun => simp only [Cursor.step, hdigit, Bool.false_eq_true, if_false]
  | hex n =>
      simp only [Cursor.step, hdigit, hspace, Bool.and_false, Bool.false_eq_true, if_false]
      exact hplain

theorem toNat_ofUInt8 (b : UInt8) : (Char.ofUInt8 b).toNat = b.toNat := UInt8.toNat_toUInt32 b

/-- The bytes of a longer character leave the cursor as it is. -/
theorem leads_wide {bytes : Bytes} (h : s.Quoted) (hescape : s.escape = .none)
    (hbytes : ∀ b ∈ bytes, 0x7F < b.toNat) : s.Leads (bytes.map Char.ofUInt8) s := by
  induction bytes with
  | nil => exact .nil s
  | cons b bytes ih =>
      obtain ⟨hb, hbytes⟩ := List.forall_mem_cons.1 hbytes
      have hstep : s.step (Char.ofUInt8 b) = (s, none) := by
        rw [step_wide h (by rwa [toNat_ofUInt8]), ← hescape]
      exact .cons hstep (ih hbytes)

/-- The bytes of a character are read as the character is, the first of them in its place. -/
theorem kinds_encodeChar (h : s.Quoted) (c : Char) (rest : Text) :
    kinds s ((String.utf8EncodeChar c).map Char.ofUInt8 ++ rest) =
      (s.step c).2 :: (List.replicate ((String.utf8EncodeChar c).length - 1) none ++
        kinds (s.step c).1 rest) := by
  rcases Nat.lt_or_ge 0x7F c.toNat with hc | hc
  · obtain ⟨b, bytes, e⟩ :=
      List.exists_cons_of_ne_nil (String.utf8EncodeChar_ne_nil (c := c))
    have hwide : ∀ x ∈ b :: bytes, 0x7F < x.toNat := fun x hx => by
      rw [← e] at hx
      exact Utf8.le_of_mem_encodeChar hc hx
    obtain ⟨hb, hbytes⟩ := List.forall_mem_cons.1 hwide
    have hlead : ({ s with escape := .none } : Cursor).Leads (bytes.map Char.ofUInt8)
        { s with escape := .none } := leads_wide h rfl hbytes
    rw [e, List.map_cons, List.cons_append, kinds, step_wide h (by rwa [toNat_ofUInt8]),
      hlead.kinds_append, List.length_map, step_wide h hc]
    rfl
  · have hchar : Char.ofUInt8 (.ofNat c.toNat) = c := by
      rw [← Char.toNat_inj, toNat_ofUInt8, Utf8.toNat_ofNat (by omega)]
    rcases Utf8.encodeChar_cases c with ⟨-, e⟩ | ⟨h, -⟩ | ⟨h, -⟩ | ⟨h, -⟩
    case inl =>
      rw [e, List.map_singleton, hchar]
      rfl
    all_goals omega

end Cursor

/-- What the cursor finds active in the bytes of a text is what it finds active in the text. -/
theorem kinds_encode {s : Cursor} (h : s.Quoted) :
    (kinds s ((encode t).map Char.ofUInt8))[i]? = some (some k) ↔
      ∃ n, offset t n = i ∧ (kinds s t)[n]? = some (some k) := by
  induction t generalizing s i with
  | nil => simp [Utf8.encode_nil, kinds]
  | cons c t ih =>
      have hlength := List.length_pos_iff.2 (String.utf8EncodeChar_ne_nil (c := c))
      rw [Utf8.encode_cons, List.map_append, Cursor.kinds_encodeChar h c, kinds]
      constructor
      · intro hk
        cases i with
        | zero => exact ⟨0, rfl, hk⟩
        | succ i =>
            rw [List.getElem?_cons_succ, List.getElem?_append, List.length_replicate] at hk
            split at hk
            case isTrue hi =>
              rw [List.getElem?_replicate, if_pos hi] at hk
              cases hk
            case isFalse hi =>
              obtain ⟨n, hn, hk⟩ := (ih (h.step c)).1 hk
              refine ⟨n + 1, ?_, hk⟩
              rw [Utf8.offset_succ, hn]
              omega
      · rintro ⟨n, rfl, hk⟩
        cases n with
        | zero => exact hk
        | succ n =>
            have hoffset : offset (c :: t) (n + 1) =
                (List.replicate ((String.utf8EncodeChar c).length - 1)
                  (none : Option BreakKind)).length + offset t n + 1 := by
              rw [Utf8.offset_succ, List.length_replicate]
              omega
            rw [hoffset, List.getElem?_cons_succ, List.getElem?_append_right (Nat.le_add_right ..),
              Nat.add_sub_cancel_left]
            exact (ih (h.step c)).2 ⟨n, rfl, hk⟩

/-! ### The break -/

/-- The first of a kind in the bytes is the first of it in the text. -/
theorem isFirst_byteKinds :
    0 < i ∧ IsFirst (byteKinds t) i ↔ ∃ n, (0 < n ∧ IsFirst (kinds {} t) n) ∧ offset t n = i := by
  have hbytes {i : Nat} {k : BreakKind} := kinds_encode (i := i) (k := k) (t := t) .start
  have hlt {n : Nat} {k : BreakKind} (hk : (kinds {} t)[n]? = some (some k)) : n < t.length := by
    obtain ⟨hlt, -⟩ := List.getElem?_eq_some_iff.1 hk
    rwa [Cursor.length_kinds] at hlt
  constructor
  · rintro ⟨hi, k, hk, hbefore⟩
    obtain ⟨n, rfl, hkind⟩ := hbytes.1 hk
    have hn : n ≠ 0 := fun e => Nat.lt_irrefl 0 (by rwa [e] at hi)
    refine ⟨n, ⟨Nat.pos_of_ne_zero hn, k, hkind, fun m hm e => ?_⟩, rfl⟩
    exact hbefore _ (Utf8.offset_lt_offset hm (hlt e)) (hbytes.2 ⟨m, rfl, e⟩)
  · rintro ⟨n, ⟨hn, k, hk, hbefore⟩, rfl⟩
    have ht : 0 < t.length := Nat.zero_lt_of_lt (hlt hk)
    refine ⟨Utf8.offset_lt_offset hn ht, k, hbytes.2 ⟨n, rfl, hk⟩, fun j hj e => ?_⟩
    obtain ⟨m, rfl, hkind⟩ := hbytes.1 e
    exact hbefore m ((Utf8.offset_mono t).reflect_lt hj) hkind

theorem firstBreak_byteKinds (t : Text) :
    firstBreak (byteKinds t) = (firstBreak (kinds {} t)).map (offset t) := by
  cases h : firstBreak (kinds {} t) with
  | none =>
      refine firstBreak_eq_none_iff.2 fun i hi hfirst => ?_
      obtain ⟨n, ⟨hn, hfirst⟩, -⟩ := isFirst_byteKinds.1 ⟨hi, hfirst⟩
      exact firstBreak_eq_none_iff.1 h n hn hfirst
  | some n =>
      have himage : {i | 0 < i ∧ IsFirst (byteKinds t) i} =
          offset t '' {n | 0 < n ∧ IsFirst (kinds {} t) n} := Set.ext fun _ => isFirst_byteKinds
      refine firstBreak_eq_some_iff.2 ?_
      rw [himage]
      exact (Utf8.offset_mono t).map_isLeast (firstBreak_eq_some_iff.1 h)

/-- The break in bytes is the break in characters. -/
theorem breakOffset_eq (selector : Text) :
    breakOffset selector = offset selector (breakLength selector) := by
  rw [breakOffset, firstBreak_byteKinds, ← Utf8.offset_length, Option.getD_map, breakLength_eq]

/-! ### What ends a compound -/

/-- The byte at offset `i` is a character of a kind, outside brackets and escapes. -/
def ActiveAt (selector : Text) (i : Nat) (kind : BreakKind) : Prop :=
  ∃ front c rest, selector = front ++ c :: rest ∧ (encode front).length = i ∧
    Nests front (c :: rest) 0 ∧ BreakKind.of? c = some kind

/-- The byte at offset `i`, behind the start, is the first of its kind. -/
def EndsAt (selector : Text) (i : Nat) : Prop :=
  0 < i ∧ ∃ kind, ActiveAt selector i kind ∧ ∀ j < i, ¬ ActiveAt selector j kind

theorem activeAt_iff : ActiveAt t i k ↔ (byteKinds t)[i]? = some (some k) := by
  rw [byteKinds, kinds_encode .start]
  constructor
  · rintro ⟨front, c, rest, rfl, rfl, hnests, hkind⟩
    exact ⟨front.length, Utf8.offset_append ..,
      kinds_eq_some_iff.2 ⟨front, c, rest, rfl, rfl, hnests, hkind⟩⟩
  · rintro ⟨n, rfl, hk⟩
    obtain ⟨front, c, rest, rfl, rfl, hnests, hkind⟩ := kinds_eq_some_iff.1 hk
    exact ⟨front, c, rest, rfl, (Utf8.offset_append ..).symm, hnests, hkind⟩

theorem endsAt_iff : EndsAt t i ↔ 0 < i ∧ IsFirst (byteKinds t) i := by
  simp only [EndsAt, IsFirst, activeAt_iff, ne_eq]

/-- The compound ends at the least offset where it can, or with the selector. -/
theorem breakOffset_spec (selector : Text) :
    IsLeast {i | EndsAt selector i} (breakOffset selector) ∨
      (∀ i, ¬ EndsAt selector i) ∧ breakOffset selector = (encode selector).length := by
  simp only [endsAt_iff]
  rw [breakOffset]
  cases h : firstBreak (byteKinds selector) with
  | none => exact .inr ⟨fun i hi => firstBreak_eq_none_iff.1 h i hi.1 hi.2, rfl⟩
  | some n => exact .inl (firstBreak_eq_some_iff.1 h)

/-- Only the empty selector has an empty compound. -/
theorem breakOffset_eq_zero_iff {selector : Text} : breakOffset selector = 0 ↔ selector = [] := by
  constructor
  · intro h
    rcases breakOffset_spec selector with hleast | ⟨-, hend⟩
    · exact absurd h (Nat.ne_of_gt hleast.1.1)
    · rw [h] at hend
      exact Utf8.encode_eq_nil.1 (List.length_eq_zero_iff.1 hend.symm)
  · rintro rfl
    rfl

/-- A selector is cut at the least offset behind its start where a kind is first active, or at its
end.  No character is cut, and there is a compound, unless the selector is empty. -/
theorem breakOffset_exact (selector : Text) :
    (IsLeast {i | EndsAt selector i} (breakOffset selector) ∨
        (∀ i, ¬ EndsAt selector i) ∧ breakOffset selector = (encode selector).length) ∧
      (∃ front rest, selector = front ++ rest ∧ (encode front).length = breakOffset selector ∧
        parts selector = ⟨pieces front, Text.trim rest⟩ ∧ (front = [] ↔ selector = [])) ∧
      (breakOffset selector = 0 ↔ selector = []) := by
  refine ⟨breakOffset_spec selector, ?_, breakOffset_eq_zero_iff⟩
  have hfront : (encode (selector.take (breakLength selector))).length = breakOffset selector :=
    (breakOffset_eq selector).symm
  refine ⟨selector.take (breakLength selector), selector.drop (breakLength selector),
    (List.take_append_drop ..).symm, hfront, rfl, ?_⟩
  rw [← Utf8.encode_eq_nil, ← List.length_eq_zero_iff, hfront]
  exact breakOffset_eq_zero_iff

/-- An escape takes the space behind its digits, and the colon at the start counts for nothing. -/
example : breakOffset ":\u00e9\\31 a[b=\x22] \x22]:c .d".toList = 18 := by decide

end Selector

end StyleSieve
