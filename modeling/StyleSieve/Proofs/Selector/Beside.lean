import Mathlib.Data.List.TakeWhile
import StyleSieve.Proofs.Selector.Balanced
import StyleSieve.Proofs.Selector.Compound

/-!
# Text beside pieces

Text behind pieces takes none away if it halts every name in front of it (`pieces_append`): whatever
else stays open reads on to the end.  Only a backslash right in front of it would take its first
character (`escapes`).  Text in front of pieces takes none away if names are all that is read of it
(`pieces_front`).

* `keys_mute`: text without names has no keys.
-/

namespace StyleSieve.Selector

open Name (isPlain escapeDigits escapeExtent escapeValue extentFrom valueFrom)

/-- A character that belongs to no name and starts no attribute. -/
def isMute (c : Char) : Bool := !isPlain c && c != '\\' && c != '['

/-- Whether a text ends with a backslash that waits for its character. -/
def escapes (t : Text) : Bool := t.foldl (fun waits c => !waits && c == '\\') false

variable {c w : Char} {a t u x z : Text}

theorem isPlain_of_isHexDigit (h : Text.isHexDigit c = true) : isPlain c = true := by
  have hn := Text.toNat_of_isHexDigit h
  have halpha : c.isAlphanum =
      (decide (65 ≤ c.toNat ∧ c.toNat ≤ 90) || (decide (97 ≤ c.toNat) && decide (c.toNat ≤ 122)) ||
        (decide (48 ≤ c.toNat) && decide (c.toNat ≤ 57))) := rfl
  simp only [isPlain, halpha, Bool.or_eq_true, Bool.and_eq_true, decide_eq_true_eq]
  omega

theorem isMute_spec (h : isMute c = true) : isPlain c = false ∧ c ≠ '\\' ∧ c ≠ '[' := by
  simpa [isMute, and_assoc] using h

/-- A mute character ends an escape. -/
theorem isHexDigit_of_isMute (h : isMute c = true) : Text.isHexDigit c = false := by
  have hplain := (isMute_spec h).1
  rw [← Bool.not_eq_true] at hplain ⊢
  exact mt isPlain_of_isHexDigit hplain

/-! ### A backslash that waits -/

theorem escapes_cons (hc : c ≠ '\\') (t : Text) : escapes (c :: t) = escapes t := by
  have h : (c == '\\') = false := beq_false_of_ne hc
  simp [escapes, h]

theorem escapes_backslash (c : Char) (t : Text) : escapes ('\\' :: c :: t) = escapes t := by
  simp [escapes]

/-- Behind another character no backslash waits. -/
theorem escapes_append_cons (hc : c ≠ '\\') (a t : Text) :
    escapes (a ++ c :: t) = escapes t := by
  have h : (c == '\\') = false := beq_false_of_ne hc
  simp [escapes, List.foldl_append, h]

theorem escapes_append (ha : '\\' ∉ a) (t : Text) : escapes (a ++ t) = escapes t := by
  induction a with
  | nil => rfl
  | cons c a ih =>
      obtain ⟨hc, ha⟩ : '\\' ≠ c ∧ '\\' ∉ a := by simpa using ha
      rw [List.cons_append, escapes_cons hc.symm, ih ha]

/-! ### Names in front of other text -/

theorem escapeDigits_append_cons (hw : Text.isHexDigit w = false) (x u : Text) :
    escapeDigits (x ++ w :: u) = escapeDigits x := by
  have hstop (n : Nat) : ((w :: u).take n).takeWhile Text.isHexDigit = [] := by
    cases n with
    | zero => rfl
    | succ n => exact List.takeWhile_cons_of_neg (by simp [hw])
  rw [escapeDigits, escapeDigits, List.take_append, List.takeWhile_append, hstop, List.append_nil]
  split
  case isTrue h => exact (List.IsPrefix.eq_of_length (List.takeWhile_prefix _) h).symm
  case isFalse => rfl

/-- An escape is read as it is without what follows, but where its digits reach to the end: then it
takes a blank that follows. -/
theorem escape_append_cons (hx : x ≠ []) (hw : Text.isHexDigit w = false) :
    (∀ u, escapeValue (x ++ w :: u) = escapeValue x) ∧
      ((∀ u, escapeExtent (x ++ w :: u) = escapeExtent x) ∨
        Text.isBlank w = true ∧ escapeExtent x = x.length ∧
          ∀ u, escapeExtent (x ++ w :: u) = x.length + 1) := by
  obtain ⟨d, y, rfl⟩ := List.exists_cons_of_ne_nil hx
  unfold escapeExtent escapeValue
  simp only [escapeDigits_append_cons hw]
  have hdigits : (escapeDigits (d :: y)).length ≤ (d :: y).length :=
    ((List.takeWhile_prefix _).trans (List.take_prefix 6 _)).length_le
  cases hds : escapeDigits (d :: y) with
  | nil => exact ⟨fun _ => rfl, .inl fun _ => by simp⟩
  | cons e ds =>
      refine ⟨fun _ => rfl, ?_⟩
      rw [hds] at hdigits
      dsimp only
      rcases Nat.lt_or_eq_of_le hdigits with hlt | heq
      · -- a character stands behind the digits
        refine .inl fun u => ?_
        obtain ⟨b, rest, hrest⟩ := List.exists_cons_of_length_pos
          (l := (d :: y).drop (e :: ds).length) (by rw [List.length_drop]; omega)
        rw [List.drop_append_of_le_length hdigits, hrest]
        rfl
      · simp only [heq, List.drop_left, List.drop_length, List.head?_cons, List.head?_nil,
          Option.any_some, Option.any_none]
        cases Text.isBlank w with
        | true => exact .inr ⟨rfl, rfl, fun _ => rfl⟩
        | false => exact .inl fun _ => rfl

/-- Behind an escape no backslash waits, unless one does at the end. -/
theorem escapeExtent_spec (hx : escapes ('\\' :: x) = false) :
    escapeExtent x ≤ x.length ∧ escapes (x.drop (escapeExtent x)) = false := by
  cases x with
  | nil => cases hx
  | cons d y =>
      rw [escapes_backslash] at hx
      have hhex {b : Char} (hb : Text.isHexDigit b = true) : b ≠ '\\' := ne_of_kind hb (by decide)
      have hall : ∀ b ∈ escapeDigits (d :: y), Text.isHexDigit b = true :=
        fun b hb => List.mem_takeWhile_imp hb
      obtain ⟨rest, hrest⟩ : escapeDigits (d :: y) <+: d :: y :=
        (List.takeWhile_prefix _).trans (List.take_prefix 6 _)
      unfold escapeExtent
      cases hds : escapeDigits (d :: y) with
      | nil => simpa using hx
      | cons e ds =>
          rw [hds] at hrest hall
          obtain ⟨hd, hy⟩ := List.cons.inj hrest
          obtain rfl : e = d := hd
          obtain rfl : y = ds ++ rest := hy.symm
          have hrest : escapes rest = false := by
            rwa [escapes_append fun hmem => hhex (hall _ (List.mem_cons_of_mem _ hmem)) rfl] at hx
          simp only [← List.cons_append, List.drop_left]
          cases rest with
          | nil => simpa using hrest
          | cons b rest =>
              cases hblank : Text.isBlank b with
              | false => simpa [hblank] using hrest
              | true =>
                  rw [escapes_cons (ne_of_kind hblank (by decide))] at hrest
                  simpa [hblank] using hrest

/-- Behind a name no backslash waits, unless one does at the end. -/
theorem extentFrom_spec {skip : Nat} (hskip : skip ≤ x.length)
    (hx : escapes (x.drop skip) = false) :
    extentFrom skip x ≤ x.length ∧ escapes (x.drop (extentFrom skip x)) = false := by
  induction x generalizing skip with
  | nil =>
      cases skip
      all_goals exact ⟨Nat.le_refl _, rfl⟩
  | cons c x ih =>
      cases skip with
      | succ skip =>
          obtain ⟨hle, hrest⟩ := ih (Nat.le_of_succ_le_succ hskip) hx
          rw [extentFrom]
          exact ⟨Nat.succ_le_succ hle, hrest⟩
      | zero =>
          rw [extentFrom]
          split
          case isTrue e =>
            subst e
            obtain ⟨hle, hrest⟩ := escapeExtent_spec hx
            obtain ⟨hle, hrest⟩ := ih hle hrest
            exact ⟨Nat.succ_le_succ hle, hrest⟩
          case isFalse hslash =>
            rw [List.drop_zero, escapes_cons hslash] at hx
            split
            case isTrue =>
              obtain ⟨hle, hrest⟩ := ih (Nat.zero_le _) hx
              exact ⟨Nat.succ_le_succ hle, hrest⟩
            case isFalse =>
              rw [List.drop_zero, escapes_cons hslash]
              exact ⟨Nat.zero_le _, hx⟩

theorem extent_mute (hw : isMute w = true) (u : Text) : Name.extent (w :: u) = 0 := by
  obtain ⟨hplain, hslash, -⟩ := isMute_spec hw
  rw [Name.extent, extentFrom, if_neg hslash, if_neg (by simp [hplain])]

/-- A name takes as much of `x` with `w` and `u` behind it; or it takes all of `x`, and the blank
`w` ends its last escape. -/
def EndsBefore (skip : Nat) (x : Text) (w : Char) (u : Text) : Prop :=
  extentFrom skip (x ++ w :: u) = extentFrom skip x ∨
    Text.isBlank w = true ∧ extentFrom skip x = x.length ∧
      extentFrom skip (x ++ w :: u) = x.length + 1 + extentFrom 0 u ∧
        valueFrom skip (x ++ [w]) = valueFrom skip x

/-- A character more in front, which stands for `v`. -/
theorem EndsBefore.cons {skip skip' : Nat} (h : EndsBefore skip' x w u) (v : Text)
    (hx : extentFrom skip (c :: x) = extentFrom skip' x + 1)
    (hxu : extentFrom skip (c :: (x ++ w :: u)) = extentFrom skip' (x ++ w :: u) + 1)
    (hv : valueFrom skip (c :: x) = v ++ valueFrom skip' x)
    (hvw : valueFrom skip (c :: (x ++ [w])) = v ++ valueFrom skip' (x ++ [w])) :
    EndsBefore skip (c :: x) w u := by
  rcases h with h | ⟨hblank, hall, hmore, hvalue⟩
  · refine .inl ?_
    rw [List.cons_append, hxu, hx, h]
  · refine .inr ⟨hblank, ?_, ?_, ?_⟩
    · rw [hx, hall, List.length_cons]
    · rw [List.cons_append, hxu, hmore, List.length_cons]
      omega
    · rw [List.cons_append, hvw, hv, hvalue]

theorem extentFrom_length (x : Text) : extentFrom x.length x = x.length := by
  have h := Name.extentFrom_skip x []
  rwa [List.append_nil] at h

theorem valueFrom_length (x : Text) : valueFrom x.length x = [] := by
  have h := Name.valueFrom_skip x []
  rwa [List.append_nil] at h

/-- An escape whose digits reach to the end takes a blank that follows. -/
theorem endsBefore_blank (hblank : Text.isBlank w = true)
    (hvalue : ∀ u, escapeValue (x ++ w :: u) = escapeValue x) (hall : escapeExtent x = x.length)
    (hmore : ∀ u, escapeExtent (x ++ w :: u) = x.length + 1) (u : Text) :
    EndsBefore 0 ('\\' :: x) w u := by
  have hextent : extentFrom (x.length + 1) (x ++ w :: u) = x.length + 1 + extentFrom 0 u := by
    have h := Name.extentFrom_skip (x ++ [w]) u
    rwa [List.length_append, List.append_assoc] at h
  have hnil : valueFrom (x.length + 1) (x ++ [w]) = [] := by
    have h := valueFrom_length (x ++ [w])
    rwa [List.length_append] at h
  refine .inr ⟨hblank, ?_, ?_, ?_⟩
  · rw [extentFrom, if_pos rfl, hall, extentFrom_length, List.length_cons]
  · rw [List.cons_append, extentFrom, if_pos rfl, hmore, hextent, List.length_cons]
    omega
  · rw [List.cons_append, valueFrom, if_pos rfl, hvalue, hmore, hnil, valueFrom, if_pos rfl, hall,
      valueFrom_length]

/-- A name ends where mute text starts, but for a blank that ends an escape. -/
theorem endsBefore_mute {skip : Nat} (hskip : skip ≤ x.length)
    (hx : escapes (x.drop skip) = false) (hw : isMute w = true) (u : Text) :
    EndsBefore skip x w u := by
  induction x generalizing skip with
  | nil =>
      obtain rfl : skip = 0 := Nat.le_zero.1 hskip
      exact .inl (extent_mute hw u)
  | cons c x ih =>
      cases skip with
      | succ skip => exact .cons (ih (Nat.le_of_succ_le_succ hskip) hx) [] rfl rfl rfl rfl
      | zero =>
          rw [List.drop_zero] at hx
          by_cases hslash : c = '\\'
          · subst hslash
            obtain ⟨hle, hrest⟩ := escapeExtent_spec hx
            have hne : x ≠ [] := by
              rintro rfl
              cases hx
            obtain ⟨hvalue, hextent | ⟨hblank, hall, hmore⟩⟩ :=
              escape_append_cons hne (isHexDigit_of_isMute hw)
            · refine .cons (ih hle hrest) (escapeValue x).toList ?_ ?_ ?_ ?_
              · rw [extentFrom, if_pos rfl]
              · rw [extentFrom, if_pos rfl, hextent]
              · rw [valueFrom, if_pos rfl]
              · rw [valueFrom, if_pos rfl, hvalue, hextent]
            · exact endsBefore_blank hblank hvalue hall hmore u
          · rw [escapes_cons hslash] at hx
            by_cases hplain : isPlain c = true
            · refine .cons (ih (Nat.zero_le _) hx) [c] ?_ ?_ ?_ ?_
              · rw [extentFrom, if_neg hslash, if_pos hplain]
              · rw [extentFrom, if_neg hslash, if_pos hplain]
              · rw [valueFrom, if_neg hslash, List.singleton_append]
              · rw [valueFrom, if_neg hslash, List.singleton_append]
            · refine .inl ?_
              rw [List.cons_append, extentFrom, extentFrom, if_neg hslash, if_neg hplain,
                if_neg hslash, if_neg hplain]

/-! ### Pieces in front of other text -/

/-- Of `x` a reader takes as much with `t` behind it; or it takes all, and with `t` behind it no
less. -/
def Reaches (extent : Text → Nat) (x t : Text) : Prop :=
  (∃ a z, x = a ++ z ∧ escapes z = false ∧ extent x = a.length ∧ extent (x ++ t) = a.length) ∨
    extent x = x.length ∧ x.length ≤ extent (x ++ t)

theorem reaches_zero {extent : Text → Nat} (hx : escapes x = false) (h : extent x = 0)
    (h' : extent (x ++ t) = 0) : Reaches extent x t :=
  .inl ⟨[], x, rfl, hx, h, h'⟩

/-- One reader behind another. -/
theorem Reaches.andThen {extent first next : Text → Nat}
    (h : ∀ y, extent y = first y + next (y.drop (first y))) (hnil : next [] = 0)
    (hfirst : Reaches first x t) (hnext : ∀ z, escapes z = false → Reaches next z t) :
    Reaches extent x t := by
  rcases hfirst with ⟨a, z, rfl, hz, hx, ht⟩ | ⟨hx, ht⟩
  · rw [List.append_assoc] at ht
    have hall : extent (a ++ z) = a.length + next z := by rw [h, hx, List.drop_left]
    have hmore : extent (a ++ z ++ t) = a.length + next (z ++ t) := by
      rw [List.append_assoc, h, ht, List.drop_left]
    rcases hnext z hz with ⟨a', z', rfl, hz', hx', ht'⟩ | ⟨hx', ht'⟩
    · refine .inl ⟨a ++ a', z', (List.append_assoc ..).symm, hz', ?_, ?_⟩
      · rw [hall, hx', List.length_append]
      · rw [hmore, ht', List.length_append]
    · refine .inr ⟨?_, ?_⟩
      · rw [hall, hx', List.length_append]
      · rw [hmore, List.length_append]
        omega
  · refine .inr ⟨?_, ?_⟩
    · rw [h, hx, List.drop_length, hnil]
      rfl
    · rw [h]
      omega

theorem reaches_takeWhile {p : Char → Bool} (hp : p '\\' = false) (hx : escapes x = false) :
    Reaches (fun y => (y.takeWhile p).length) x t := by
  have hall : ∀ c ∈ x.takeWhile p, p c = true := fun c hc => List.mem_takeWhile_imp hc
  have hsplit := List.takeWhile_append_dropWhile (p := p) (l := x)
  cases hdrop : x.dropWhile p with
  | nil =>
      rw [hdrop, List.append_nil] at hsplit
      refine .inr ⟨congrArg List.length hsplit, ?_⟩
      rw [hsplit] at hall
      dsimp only
      rw [List.takeWhile_append_of_pos hall, List.length_append]
      omega
  | cons d z =>
      have hd : p d = false := by
        have h := List.head?_dropWhile_not p x
        rwa [hdrop] at h
      rw [hdrop] at hsplit
      refine .inl ⟨x.takeWhile p, d :: z, hsplit.symm, ?_, rfl, ?_⟩
      · have hslash : '\\' ∉ x.takeWhile p := fun hmem => by
          rw [hall _ hmem] at hp
          cases hp
        rwa [← hsplit, escapes_append hslash] at hx
      · have htext : x ++ t = x.takeWhile p ++ d :: (z ++ t) := by
          rw [← List.cons_append, ← List.append_assoc, hsplit]
        dsimp only
        rw [htext, List.takeWhile_append_of_pos hall, List.takeWhile_cons_of_neg (by simp [hd]),
          List.append_nil]

/-- `extent` stops behind the character `d`, whatever stands there, or it takes all of `x`. -/
def Stops (extent : Text → Nat) (d : Char) (x t : Text) : Prop :=
  (∃ a z, x = a ++ d :: z ∧ extent x = a.length + 1 ∧ extent (x ++ t) = a.length + 1) ∨
    extent x = x.length ∧ x.length ≤ extent (x ++ t)

theorem Stops.cons {extent more : Text → Nat} {d : Char}
    (h : ∀ y, extent (c :: y) = more y + 1) (hmore : Stops more d x t) :
    Stops extent d (c :: x) t := by
  rcases hmore with ⟨a, z, rfl, hx, ht⟩ | ⟨hx, ht⟩
  · exact .inl ⟨c :: a, z, rfl, by rw [h, hx]; rfl, by rw [List.cons_append, h, ht]; rfl⟩
  · refine .inr ⟨by rw [h, hx]; rfl, ?_⟩
    rw [List.cons_append, h, List.length_cons]
    omega

theorem stops_closing (quote : Option Char) (x t : Text) :
    Stops (closingExtent quote) ']' x t := by
  induction x generalizing quote with
  | nil =>
      cases quote
      all_goals exact .inr ⟨rfl, Nat.zero_le _⟩
  | cons c x ih =>
      cases quote with
      | some q => exact .cons (fun y => by rw [closingExtent]) (ih _)
      | none =>
          by_cases hquote : c = '\x22' ∨ c = '\x27'
          · exact .cons (fun y => by rw [closingExtent, if_pos (by simpa using hquote)]) (ih _)
          · by_cases hclose : c = ']'
            · subst hclose
              exact .inl ⟨[], x, rfl, rfl, rfl⟩
            · exact .cons (fun y => by
                rw [closingExtent, if_neg (by simpa using hquote), if_neg hclose]) (ih _)

theorem stops_argument (depth : Nat) (x t : Text) : Stops (argumentExtent depth) ')' x t := by
  induction x generalizing depth with
  | nil => exact .inr ⟨rfl, Nat.zero_le _⟩
  | cons c x ih =>
      by_cases hopen : c = '('
      · exact .cons (fun y => by rw [argumentExtent, if_pos hopen]) (ih _)
      · by_cases hclose : c = ')'
        · subst hclose
          by_cases hdepth : depth ≤ 1
          · refine .inl ⟨[], x, rfl, ?_, ?_⟩
            all_goals simp [argumentExtent, hdepth]
          · exact .cons (fun y => by
              rw [argumentExtent, if_neg hopen, if_pos rfl, if_neg hdepth]) (ih _)
        · exact .cons (fun y => by rw [argumentExtent, if_neg hopen, if_neg hclose]) (ih _)

theorem Stops.reaches {extent : Text → Nat} {d : Char} (h : Stops extent d x t) (hd : d ≠ '\\')
    (hx : escapes x = false) : Reaches extent x t := by
  rcases h with ⟨a, z, rfl, hx', ht⟩ | h
  · rw [escapes_append_cons hd] at hx
    refine .inl ⟨a ++ [d], z, by simp, hx, ?_, ?_⟩
    · simpa using hx'
    · simpa using ht
  · exact .inr h

/-- Text that ends every name in front of it, also where a blank at its start ends an escape. -/
def Halts : Text → Prop
  | [] => True
  | w :: t => isMute w = true ∧ (Text.isBlank w = true → Halts t)

theorem extent_of_halts (ht : Halts t) : Name.extent t = 0 := by
  cases t with
  | nil => rfl
  | cons w t => exact extent_mute ht.1 t

theorem Halts.dropWhile (ht : Halts t) : Halts (t.dropWhile Text.isBlank) := by
  induction t with
  | nil => exact trivial
  | cons w t ih =>
      rw [List.dropWhile_cons]
      split
      case isTrue hblank => exact ih (ht.2 hblank)
      case isFalse => exact ht

theorem Halts.part (ht : Halts t) (h : u <+: t) : Halts u := by
  induction t generalizing u with
  | nil =>
      obtain rfl := List.prefix_nil.1 h
      exact trivial
  | cons w t ih =>
      rcases List.prefix_cons_iff.1 h with rfl | ⟨u, rfl, hu⟩
      · exact trivial
      · exact ⟨ht.1, fun hblank => ih (ht.2 hblank) hu⟩

/-- In front of text that halts it a name is read as it is. -/
theorem name_append (hx : escapes x = false) (ht : Halts t) :
    Reaches Name.extent x t ∧ Name.read (x ++ t) = Name.read x := by
  have hle : Name.extent x ≤ x.length := (extentFrom_spec (Nat.zero_le x.length) hx).1
  have hrest : escapes (x.drop (Name.extent x)) = false :=
    (extentFrom_spec (Nat.zero_le x.length) hx).2
  have hsame (h : Name.extent (x ++ t) = Name.extent x) :
      Reaches Name.extent x t ∧ Name.read (x ++ t) = Name.read x := by
    refine ⟨.inl ⟨x.take (Name.extent x), x.drop (Name.extent x),
      (List.take_append_drop _ _).symm, hrest, ?_, ?_⟩, ?_⟩
    · rw [List.length_take, Nat.min_eq_left hle]
    · rw [h, List.length_take, Nat.min_eq_left hle]
    · rw [Name.read, Name.read, h, List.take_append_of_le_length hle]
  cases t with
  | nil => exact hsame (by rw [List.append_nil])
  | cons w t =>
      obtain ⟨hw, ht⟩ := ht
      rcases endsBefore_mute (Nat.zero_le x.length) hx hw t with h | ⟨hblank, h, hmore, hvalue⟩
      · exact hsame h
      · have hend : Name.extent (x ++ w :: t) = (x ++ [w]).length := by
          have h : Name.extent t = 0 := extent_of_halts (ht hblank)
          rw [Name.extent, hmore]
          rw [Name.extent] at h
          rw [h, List.length_append, List.length_singleton]
        refine ⟨.inr ⟨h, ?_⟩, ?_⟩
        · rw [hend, List.length_append]
          omega
        · have hall : Name.extent x = x.length := h
          have htext : x ++ w :: t = x ++ [w] ++ t := List.append_cons x w t
          rw [Name.read, Name.read, hend, hall, List.take_length, htext, List.take_left]
          exact hvalue

theorem reaches_pseudo (hx : escapes x = false) (ht : Halts t) : Reaches pseudoExtent x t := by
  have harguments (z : Text) (hz : escapes z = false) :
      Reaches (fun y => if y.head? = some '(' then argumentExtent 0 y else 0) z t := by
    cases z with
    | nil => exact .inr ⟨rfl, Nat.zero_le _⟩
    | cons c z =>
        by_cases hc : c = '('
        · subst hc
          exact ((stops_argument 0 _ t).reaches (by decide) hz)
        · exact reaches_zero hz (if_neg (by simpa using hc)) (if_neg (by simpa using hc))
  have hname (z : Text) (hz : escapes z = false) :
      Reaches (fun y => Name.extent y +
        (fun y => if y.head? = some '(' then argumentExtent 0 y else 0) (y.drop (Name.extent y)))
          z t :=
    Reaches.andThen (fun _ => rfl) rfl (name_append hz ht).1 harguments
  refine Reaches.andThen (fun y => ?_) rfl
    (reaches_takeWhile (p := (· == ':')) (by decide) hx) hname
  rw [pseudoExtent]
  simp only [List.drop_drop, Nat.add_assoc]

theorem reaches_attr (hx : escapes x = false) (ht : Halts t) :
    Reaches (fun y => (y.takeWhile Text.isBlank).length +
      Name.extent (y.drop (y.takeWhile Text.isBlank).length) +
        closingExtent none ((y.drop (y.takeWhile Text.isBlank).length).drop
          (Name.extent (y.drop (y.takeWhile Text.isBlank).length)))) x t := by
  have hname (z : Text) (hz : escapes z = false) :
      Reaches (fun y => Name.extent y + closingExtent none (y.drop (Name.extent y))) z t :=
    Reaches.andThen (fun _ => rfl) rfl (name_append hz ht).1
      fun z hz => (stops_closing none z t).reaches (by decide) hz
  exact Reaches.andThen (fun y => Nat.add_assoc ..) rfl
    (reaches_takeWhile (p := Text.isBlank) (by decide) hx) hname

theorem escapes_dropWhile {p : Char → Bool} (hp : p '\\' = false) (x : Text) :
    escapes (x.dropWhile p) = escapes x := by
  have hslash : '\\' ∉ x.takeWhile p := fun hmem => by
    rw [List.mem_takeWhile_imp hmem] at hp
    cases hp
  have h := escapes_append hslash (x.dropWhile p)
  rwa [List.takeWhile_append_dropWhile, eq_comm] at h

theorem drop_blanks (y : Text) :
    y.drop (y.takeWhile Text.isBlank).length = y.dropWhile Text.isBlank := by
  have h : (y.takeWhile Text.isBlank ++ y.dropWhile Text.isBlank).drop
      (y.takeWhile Text.isBlank).length = y.dropWhile Text.isBlank := List.drop_left
  rwa [List.takeWhile_append_dropWhile] at h

/-- So is a name behind blanks. -/
theorem read_blanks_append (hx : escapes x = false) (ht : Halts t) :
    Name.read ((x ++ t).dropWhile Text.isBlank) = Name.read (x.dropWhile Text.isBlank) := by
  rw [List.dropWhile_append]
  split
  case isTrue h =>
    rw [List.isEmpty_iff.1 h, Name.read, extent_of_halts ht.dropWhile]
    rfl
  case isFalse =>
    rw [← escapes_dropWhile (p := Text.isBlank) (by decide)] at hx
    exact (name_append hx ht).2

/-- A name in which `c` stands first. -/
theorem reaches_element (hc : Name.isStart c = true) (h : Reaches Name.extent (c :: x) t) :
    Reaches (fun y => Name.extent (c :: y) - 1) x t := by
  have hpos : 0 < Name.extent (c :: x) := by
    rw [Name.extent, extentFrom]
    split
    · exact Nat.succ_pos _
    case isFalse hslash =>
      have hplain : isPlain c = true := by
        simp only [Name.isStart, Bool.or_eq_true, Bool.and_eq_true, beq_iff_eq, hslash,
          or_false] at hc
        exact hc.1
      rw [if_pos hplain]
      exact Nat.succ_pos _
  rcases h with ⟨a, z, hsplit, hz, hx, ht⟩ | ⟨hx, ht⟩
  · cases a with
    | nil =>
        rw [hx] at hpos
        cases hpos
    | cons d a =>
        obtain ⟨-, rfl⟩ := List.cons.inj hsplit
        refine .inl ⟨a, z, rfl, hz, ?_, ?_⟩
        · dsimp only
          rw [hx]
          rfl
        · rw [List.cons_append] at ht
          dsimp only
          rw [ht]
          rfl
  · rw [List.cons_append, List.length_cons] at ht
    refine .inr ⟨?_, ?_⟩
    · dsimp only
      rw [hx]
      rfl
    · dsimp only
      omega

/-- In front of such text a piece is read as it is. -/
theorem pieceAt_append (hx : escapes (c :: x) = false) (ht : Halts t) :
    (pieceAt c (x ++ t)).1 = (pieceAt c x).1 ∧ Reaches (fun y => (pieceAt c y).2) x t := by
  have hrest (h : c ≠ '\\') : escapes x = false := by rwa [escapes_cons h] at hx
  unfold pieceAt
  by_cases hclass : c = '.'
  · subst hclass
    obtain ⟨hreaches, hread⟩ := name_append (hrest (by decide)) ht
    simp only [if_true, hread]
    exact ⟨trivial, hreaches⟩
  by_cases hid : c = '#'
  · subst hid
    obtain ⟨hreaches, hread⟩ := name_append (hrest (by decide)) ht
    simp only [if_neg hclass, if_true, hread]
    exact ⟨trivial, hreaches⟩
  by_cases hattr : c = '['
  · subst hattr
    have hread := read_blanks_append (hrest (by decide)) ht
    rw [← drop_blanks, ← drop_blanks] at hread
    simp only [if_neg hclass, if_neg hid, if_true, hread]
    exact ⟨trivial, reaches_attr (hrest (by decide)) ht⟩
  by_cases huniversal : c = '*'
  · subst huniversal
    exact ⟨rfl, reaches_zero (hrest (by decide)) rfl rfl⟩
  by_cases hpseudo : c = ':'
  · subst hpseudo
    exact ⟨rfl, reaches_pseudo (hrest (by decide)) ht⟩
  simp only [if_neg hclass, if_neg hid, if_neg hattr, if_neg huniversal, if_neg hpseudo]
  by_cases hstart : Name.isStart c = true
  · obtain ⟨hreaches, hread⟩ := name_append hx ht
    simp only [if_pos hstart, ← List.cons_append, hread]
    exact ⟨trivial, reaches_element hstart hreaches⟩
  · have hslash : c ≠ '\\' := by
      rintro rfl
      exact hstart (by decide)
    simp only [if_neg hstart]
    exact ⟨trivial, reaches_zero (hrest hslash) rfl rfl⟩

/-- **Pieces in front of text that halts names.**  They are read as they are without it. -/
theorem pieces_append {b : Text} (hb : escapes b = false) (ht : Halts t) :
    ∃ skip, piecesFrom 0 (b ++ t) = piecesFrom 0 b ++ piecesFrom skip t := by
  obtain ⟨n, hn⟩ : ∃ n, b.length ≤ n := ⟨_, Nat.le_refl _⟩
  induction n generalizing b with
  | zero =>
      obtain rfl := List.length_eq_zero_iff.1 (Nat.le_zero.1 hn)
      exact ⟨0, rfl⟩
  | succ n ih =>
      cases b with
      | nil => exact ⟨0, rfl⟩
      | cons c x =>
          obtain ⟨hpiece, hreaches⟩ := pieceAt_append hb ht
          rw [List.cons_append, piecesFrom, piecesFrom, hpiece]
          simp only [List.append_assoc, List.append_cancel_left_eq]
          unfold Reaches at hreaches
          dsimp only at hreaches
          rcases hreaches with ⟨a, z, rfl, hz, hx, hxt⟩ | ⟨hx, hxt⟩
          · rw [hx, hxt, List.append_assoc, piecesFrom_skip, piecesFrom_skip]
            rw [List.length_cons, List.length_append] at hn
            exact ih hz (by omega)
          · obtain ⟨k, hk⟩ := Nat.exists_eq_add_of_le hxt
            have hnil : piecesFrom x.length x = [] := by
              have h := piecesFrom_skip x []
              rwa [List.append_nil] at h
            exact ⟨k, by rw [hx, hnil, hk, piecesFrom_skip_add, List.nil_append]⟩

/-! ### Keys -/

theorem keys_append (ps qs : List Piece) : Piece.keys (ps ++ qs) = Piece.keys ps ++ Piece.keys qs :=
  List.filterMap_append

/-- A mute character with no name behind it starts no piece with a key. -/
theorem keys_pieceAt (hc : isMute c = true) (ht : Name.extent t = 0) :
    Piece.keys (pieceAt c t).1.toList = [] := by
  obtain ⟨hplain, hslash, hattr⟩ := isMute_spec hc
  have hread : Name.read t = [] := by
    rw [Name.read, ht]
    rfl
  have hstart : Name.isStart c = false := by simp [Name.isStart, hplain, hslash]
  unfold pieceAt
  by_cases hclass : c = '.'
  · simp [hclass, hread, named, Piece.keys]
  by_cases hid : c = '#'
  · simp [hid, hread, named, Piece.keys]
  by_cases huniversal : c = '*'
  · simp [huniversal, Piece.keys, Piece.key]
  by_cases hpseudo : c = ':'
  · simp [hpseudo, Piece.keys]
  simp [hclass, hid, hattr, huniversal, hpseudo, hstart, Piece.keys]

/-- Mute text has no keys. -/
theorem keys_mute (ht : ∀ c ∈ t, isMute c = true) (skip : Nat) :
    Piece.keys (piecesFrom skip t) = [] := by
  induction t generalizing skip with
  | nil =>
      cases skip
      all_goals rfl
  | cons c t ih =>
      obtain ⟨hc, ht⟩ := List.forall_mem_cons.1 ht
      cases skip with
      | succ skip => exact ih ht skip
      | zero =>
          have hextent : Name.extent t = 0 := by
            cases t with
            | nil => rfl
            | cons w t => exact extent_mute (ht w (List.mem_cons_self ..)) t
          rw [piecesFrom, keys_append, keys_pieceAt hc hextent, ih ht, List.nil_append]

/-! ### Text in front of pieces -/

/-- A name without escapes ends at a slash. -/
theorem extent_le_length (ht : '\\' ∉ t) (u : Text) :
    Name.extent (t ++ '/' :: u) ≤ t.length := by
  unfold Name.extent
  induction t with
  | nil => exact Nat.le_of_eq (extent_mute (by decide) u)
  | cons c t ih =>
      obtain ⟨hc, ht⟩ : '\\' ≠ c ∧ '\\' ∉ t := by simpa using ht
      rw [List.cons_append, extentFrom, if_neg hc.symm]
      split
      · exact Nat.succ_le_succ (ih ht)
      · exact Nat.zero_le _

/-- Of such text names are read, and nothing reads on behind it. -/
def Flat (t : Text) : Prop := ∀ c ∈ t, c ≠ '\\' ∧ c ≠ '[' ∧ c ≠ ':'

theorem pieceAt_le_length (h : Flat (c :: t)) (u : Text) :
    (pieceAt c (t ++ '/' :: u)).2 ≤ t.length := by
  obtain ⟨⟨hslash, hattr, hpseudo⟩, ht⟩ := List.forall_mem_cons.1 h
  have hname := extent_le_length (fun hmem => (ht _ hmem).1 rfl) u
  have helement := extent_le_length (t := c :: t) (fun hmem => (h _ hmem).1 rfl) u
  rw [List.cons_append, List.length_cons] at helement
  simp only [pieceAt, hattr, hpseudo, if_false]
  split
  · exact hname
  split
  · exact hname
  split
  · exact Nat.zero_le _
  split
  · exact Nat.sub_le_of_le_add helement
  · exact Nat.zero_le _

/-- **Text in front of pieces.**  Up to a slash it is read as it is without them. -/
theorem pieces_front (ht : Flat t) (u : Text) : pieces (t ++ '/' :: u) = pieces t ++ pieces u := by
  have hhalts : Halts ('/' :: u) := ⟨by decide, fun h => nomatch h⟩
  have hskip : ∀ skip ≤ t.length,
      piecesFrom skip (t ++ '/' :: u) = piecesFrom skip t ++ piecesFrom 0 u := by
    induction t with
    | nil =>
        intro skip h
        obtain rfl := Nat.le_zero.1 h
        rfl
    | cons c t ih =>
        have hrest := ih (List.forall_mem_cons.1 ht).2
        intro skip h
        cases skip with
        | succ skip => exact hrest skip (Nat.le_of_succ_le_succ h)
        | zero =>
            have hslash : '\\' ∉ c :: t := fun hmem => (ht _ hmem).1 rfl
            have hescapes : escapes (c :: t) = false := by
              have h := escapes_append hslash []
              rwa [List.append_nil] at h
            obtain ⟨hpiece, hreaches⟩ := pieceAt_append hescapes hhalts
            have hle := pieceAt_le_length ht u
            have hsame : (pieceAt c (t ++ '/' :: u)).2 = (pieceAt c t).2 := by
              unfold Reaches at hreaches
              dsimp only at hreaches
              rcases hreaches with ⟨a, z, -, -, hx, hxt⟩ | ⟨hx, hxt⟩
              · rw [hx, hxt]
              · omega
            rw [hsame] at hle
            rw [List.cons_append, piecesFrom, piecesFrom, hpiece, hsame, hrest _ hle,
              List.append_assoc]
  exact hskip 0 (Nat.zero_le _)

end StyleSieve.Selector
