import Mathlib.Data.List.TakeWhile
import StyleSieve.Proofs.Selector.Balanced
import StyleSieve.Proofs.Selector.Compound

/-!
# Where a selector can end its compound

A selector is read item by item: an escape, a string in brackets, or a character by itself
(`Item`).  Brackets are counted over the items, so those in a string or an escape do not count, and
one that closes nothing leaves none open (`Nests`).  A character of a kind that stands where none is
open ends the compound.

A cursor comes to the same by another way, with a state for what it is in the middle of.

* `Nests.kinds`: behind the items in front of it, the cursor is as at the start, but for the
  brackets that are open.
* `exists_item`: a text starts with an item, or the cursor finds nothing active in it.
* `kinds_eq_some_iff`: the cursor finds active what stands outside brackets and escapes.
-/

namespace StyleSieve.Selector

/-- Hexadecimal digits that an escape can take. -/
structure IsCode (ds : Text) : Prop where
  ne_nil : ds ≠ []
  length : ds.length ≤ 6
  digits : ∀ d ∈ ds, Text.isHexDigit d = true

/-- `e` is an escape in front of `rest`: a backslash with one character, or with up to six
hexadecimal digits and one space, and it takes all that it can. -/
inductive IsEscape (rest : Text) : (e : Text) → Prop where
  | char {c : Char} : Text.isHexDigit c = false → IsEscape rest ['\\', c]
  | code {ds : Text} :
      IsCode ds → (ds.length < 6 → ∀ c ∈ rest.head?, Text.isHexDigit c = false) →
        (∀ c ∈ rest.head?, Text.isSpace c = false) → IsEscape rest ('\\' :: ds)
  | spaced {ds : Text} {b : Char} :
      IsCode ds → Text.isSpace b = true → IsEscape rest ('\\' :: (ds ++ [b]))

/-- `e` in front of `rest` is read as one, with `depth` brackets open in front of it and `depth'`
behind it.  Quotes are known in brackets only. -/
inductive Item (rest : Text) : (depth : Nat) → (e : Text) → (depth' : Nat) → Prop where
  | escape {depth : Nat} {e : Text} : IsEscape rest e → Item rest depth e depth
  | string {depth : Nat} {q : Char} {s : Text} :
      isQuote q = true → StringBody q s → Item rest (depth + 1) (q :: (s ++ [q])) (depth + 1)
  | opens {depth : Nat} {c : Char} : c = '[' ∨ c = '(' → Item rest depth [c] (depth + 1)
  | closes {depth : Nat} {c : Char} : c = ']' ∨ c = ')' → Item rest depth [c] (depth - 1)
  | quote {c : Char} : isQuote c = true → Item rest 0 [c] 0
  | char {depth : Nat} {c : Char} : isSpecial c = false → Item rest depth [c] depth

/-- `front` is a row of items in front of `rest`, and `depth` brackets are open behind it. -/
inductive Nests : (front rest : Text) → (depth : Nat) → Prop where
  | start {rest : Text} : Nests [] rest 0
  | item {front e rest : Text} {depth depth' : Nat} :
      Nests front (e ++ rest) depth → Item rest depth e depth' → Nests (front ++ e) rest depth'

variable {e front rest s t : Text} {c q : Char} {depth depth' : Nat} {k : BreakKind}

/-! ### An item is read by the cursor -/

theorem IsEscape.ne_nil (h : IsEscape rest e) : e ≠ [] := by
  cases h <;> exact List.cons_ne_nil _ _

theorem Item.ne_nil (h : Item rest depth e depth') : e ≠ [] := by
  cases h with
  | escape h => exact h.ne_nil
  | string | opens | closes | quote | char => exact List.cons_ne_nil _ _

namespace Cursor

theorem Leads.kinds_append {s s' : Cursor} (h : s.Leads t s') (rest : Text) :
    Cursor.kinds s (t ++ rest) = List.replicate t.length none ++ Cursor.kinds s' rest := by
  rw [Cursor.kinds_append, h.after, List.eq_replicate_iff.2 ⟨length_kinds s t, h.kinds⟩]

/-- The digits of an escape. -/
theorem leads_code {ds : Text} (h : IsCode ds) (depth : Nat) :
    ({ depth } : Cursor).Leads ('\\' :: ds) { escape := .hex ds.length, depth } := by
  obtain ⟨d, ds, rfl⟩ := List.exists_cons_of_ne_nil h.ne_nil
  obtain ⟨hd, hds⟩ := List.forall_mem_cons.1 h.digits
  have hlen : 1 + ds.length ≤ 6 := by
    rw [Nat.add_comm]
    exact h.length
  have hstep : ({ escape := .begun, depth } : Cursor).step d =
      ({ escape := .hex 1, depth }, none) := by simp [step, hd]
  rw [List.length_cons, Nat.add_comm]
  exact .cons (step_backslash depth) (.cons hstep (leads_digits hlen hds))

/-- An escape that can take no more is over. -/
theorem kinds_hex {n : Nat} (hdigit : n < 6 → ∀ c ∈ rest.head?, Text.isHexDigit c = false)
    (hspace : ∀ c ∈ rest.head?, Text.isSpace c = false) (depth : Nat) :
    kinds { escape := .hex n, depth } rest = kinds { depth } rest := by
  cases rest with
  | nil => rfl
  | cons c rest =>
      have hmore : (n < 6 && Text.isHexDigit c) = false := by
        rw [Bool.and_eq_false_imp]
        intro hn
        exact hdigit (of_decide_eq_true hn) c rfl
      have hstep : ({ escape := .hex n, depth } : Cursor).step c = ({ depth } : Cursor).step c := by
        simp only [step, hmore, hspace c rfl, Bool.false_eq_true, if_false]
        rfl
      rw [kinds, hstep]
      rfl

/-- Nothing in an escape is active. -/
theorem kinds_escape (h : IsEscape rest e) (depth : Nat) :
    kinds { depth } (e ++ rest) = List.replicate e.length none ++ kinds { depth } rest := by
  cases h with
  | @char c hc =>
      have hstep : ({ escape := .begun, depth } : Cursor).step c = ({ depth }, none) := by
        simp only [step, hc, Bool.false_eq_true, if_false]
      exact Leads.kinds_append (.cons (step_backslash depth) (.cons hstep (.nil _))) rest
  | code hds hdigit hspace =>
      rw [(leads_code hds depth).kinds_append, kinds_hex hdigit hspace]
  | @spaced ds b hds hb =>
      have hend := step_endEscape (isBlank_of_isSpace hb) ds.length depth
      exact ((leads_code hds depth).append (.cons hend (.nil _))).kinds_append rest

end Cursor

open Cursor (kinds)

/-- Behind an item the cursor is as at the start, but for the brackets that are open.  Nothing in an
item is active, unless it is a character outside brackets. -/
theorem Item.kinds (h : Item rest depth e depth') :
    kinds { depth } (e ++ rest) = List.replicate e.length none ++ kinds { depth := depth' } rest ∨
      ∃ c, e = [c] ∧ depth = 0 ∧ depth' = 0 ∧
        kinds {} (e ++ rest) = BreakKind.of? c :: kinds {} rest := by
  cases h with
  | escape h => exact .inl (Cursor.kinds_escape h depth)
  | @string depth q s hq hs =>
      exact .inl ((hs.leads hq (Cursor.settled_plain none (depth + 1))).kinds_append rest)
  | opens hc =>
      refine .inl ?_
      rcases hc with rfl | rfl
      all_goals cases depth <;> rfl
  | closes hc =>
      refine .inl ?_
      rcases hc with rfl | rfl
      all_goals cases depth <;> rfl
  | @quote c hc =>
      have hquote : c = '\x22' ∨ c = '\x27' := by simpa [isQuote] using hc
      refine .inl ?_
      rcases hquote with rfl | rfl
      all_goals rfl
  | @char _ c hc =>
      have hne {d : Char} (hd : isSpecial d = true) : c ≠ d := ne_of_isSpecial hc hd
      cases depth with
      | zero =>
          refine .inr ⟨c, rfl, rfl, rfl, ?_⟩
          rw [List.singleton_append, Cursor.kinds,
            Cursor.step_flat (hne (by decide)) (hne (by decide)) (hne (by decide))]
      | succ depth =>
          have hstep : ({ depth := depth + 1 } : Cursor).step c = ({ depth := depth + 1 }, none) :=
            Cursor.step_plain (hne (by decide)) (hne (by decide)) (hne (by decide))
              (hne (by decide)) (hne (by decide)) (hne (by decide)) (hne (by decide))
              fun h => absurd h (Nat.succ_ne_zero depth)
          exact .inl (Cursor.Leads.kinds_append (.cons hstep (.nil _)) rest)

/-- The cursor counts the brackets that the items leave open. -/
theorem Nests.kinds (h : Nests front rest depth) :
    (kinds {} (front ++ rest)).drop front.length = kinds { depth } rest := by
  induction h with
  | start => rfl
  | @item front e rest depth depth' _ hitem ih =>
      rw [List.append_assoc, List.length_append, ← List.drop_drop, ih]
      rcases hitem.kinds with h | ⟨c, rfl, rfl, rfl, h⟩
      · rw [h]
        exact List.drop_left' List.length_replicate
      · rw [h]
        rfl

/-! ### A text is read as items -/

/-- The digits that an escape takes of a text are as many as there are, up to six. -/
theorem exists_eq_escapeDigits (t : Text) :
    ∃ rest, t = Name.escapeDigits t ++ rest ∧
      ((Name.escapeDigits t).length < 6 → ∀ c ∈ rest.head?, Text.isHexDigit c = false) := by
  refine ⟨(t.take 6).dropWhile Text.isHexDigit ++ t.drop 6, ?_, fun hlen c hc => ?_⟩
  · rw [Name.escapeDigits, ← List.append_assoc, List.takeWhile_append_dropWhile,
      List.take_append_drop]
  · have hstop := List.head?_dropWhile_not Text.isHexDigit (t.take 6)
    cases hrest : (t.take 6).dropWhile Text.isHexDigit with
    | cons d rest =>
        rw [hrest] at hc hstop
        obtain rfl : d = c := Option.some.inj hc
        exact hstop
    | nil =>
        -- fewer than six digits are all that the text has
        have hsplit := List.takeWhile_append_dropWhile (p := Text.isHexDigit) (l := t.take 6)
        rw [hrest, List.append_nil] at hsplit
        rw [Name.escapeDigits, hsplit, List.length_take] at hlen
        rw [hrest, List.nil_append, List.drop_eq_nil_of_le (by omega)] at hc
        cases hc

theorem isCode_escapeDigits (hc : Text.isHexDigit c = true) (t : Text) :
    IsCode (Name.escapeDigits (c :: t)) := by
  refine ⟨?_, ?_, fun d hd => List.mem_takeWhile_imp hd⟩
  · rw [Name.escapeDigits, List.take_succ_cons, List.takeWhile_cons_of_pos hc]
    exact List.cons_ne_nil _ _
  · exact Nat.le_trans (List.takeWhile_prefix _).length_le (List.length_take_le _ _)

/-- A backslash starts an escape, unless it is the last character. -/
theorem exists_escape (c : Char) (t : Text) :
    ∃ e rest, '\\' :: c :: t = e ++ rest ∧ IsEscape rest e := by
  cases hc : Text.isHexDigit c with
  | false => exact ⟨['\\', c], t, rfl, .char hc⟩
  | true =>
      have hcode := isCode_escapeDigits hc t
      obtain ⟨rest, hsplit, hdigit⟩ := exists_eq_escapeDigits (c :: t)
      generalize Name.escapeDigits (c :: t) = ds at hcode hsplit hdigit
      rw [hsplit]
      cases rest with
      | nil => exact ⟨'\\' :: ds, [], rfl, .code hcode hdigit fun _ h => nomatch h⟩
      | cons b rest =>
          cases hb : Text.isSpace b with
          | true => exact ⟨'\\' :: (ds ++ [b]), rest, by simp, .spaced hcode hb⟩
          | false =>
              refine ⟨'\\' :: ds, b :: rest, rfl, .code hcode hdigit ?_⟩
              rintro d ⟨⟩
              exact hb

/-- A string is closed, or it takes all of the text. -/
theorem exists_stringBody (q : Char) (t : Text) :
    (∃ s rest, t = s ++ q :: rest ∧ StringBody q s) ∨
      ∃ s, (t = s ∨ t = s ++ ['\\']) ∧ StringBody q s := by
  match t with
  | [] => exact .inr ⟨[], .inl rfl, .nil⟩
  | c :: t =>
      by_cases hslash : c = '\\'
      case pos =>
        subst hslash
        match t with
        | [] => exact .inr ⟨[], .inr rfl, .nil⟩
        | c :: t =>
            rcases exists_stringBody q t with ⟨s, rest, rfl, hs⟩ | ⟨s, rfl | rfl, hs⟩
            · exact .inl ⟨'\\' :: c :: s, rest, rfl, hs.escape⟩
            · exact .inr ⟨_, .inl rfl, hs.escape⟩
            · exact .inr ⟨'\\' :: c :: s, .inr rfl, hs.escape⟩
      case neg =>
        by_cases hq : c = q
        case pos => exact .inl ⟨[], t, congrArg (· :: t) hq, .nil⟩
        case neg =>
          rcases exists_stringBody q t with ⟨s, rest, rfl, hs⟩ | ⟨s, rfl | rfl, hs⟩
          · exact .inl ⟨c :: s, rest, rfl, hs.char hq hslash⟩
          · exact .inr ⟨_, .inl rfl, hs.char hq hslash⟩
          · exact .inr ⟨c :: s, .inr rfl, hs.char hq hslash⟩
termination_by t.length

/-- In a string that is not closed nothing is active. -/
theorem Cursor.leads_unclosed (hq : isQuote q = true) (hs : StringBody q s)
    (ht : t = s ∨ t = s ++ ['\\']) (depth : Nat) :
    ∃ s', ({ depth := depth + 1 } : Cursor).Leads (q :: t) s' := by
  obtain ⟨s₁, hs₁, hlead⟩ := hs.keeps (depth + 1) _ (settled_plain (some q) (depth + 1))
  have hopen : ({ depth := depth + 1 } : Cursor).step q = _ := (plain_isQuote hq depth).1
  rcases ht with rfl | rfl
  · exact ⟨s₁, .cons hopen hlead⟩
  · exact ⟨_, .cons hopen (hlead.append (.cons (hs₁.step_special (by decide)) (.nil _)))⟩

/-- A text starts with an item, or nothing in it is active: it is a backslash, or it starts with a
string that is not closed. -/
theorem exists_item (c : Char) (t : Text) (depth : Nat) :
    (∃ e rest depth', c :: t = e ++ rest ∧ Item rest depth e depth') ∨
      ∃ s', ({ depth } : Cursor).Leads (c :: t) s' := by
  cases hc : isSpecial c with
  | false => exact .inl ⟨[c], t, depth, rfl, .char hc⟩
  | true =>
      cases hq : isQuote c with
      | true =>
          cases depth with
          | zero => exact .inl ⟨[c], t, 0, rfl, .quote hq⟩
          | succ depth =>
              rcases exists_stringBody c t with ⟨s, rest, rfl, hs⟩ | ⟨s, ht, hs⟩
              · exact .inl ⟨c :: (s ++ [c]), rest, depth + 1, by simp, .string hq hs⟩
              · exact .inr (Cursor.leads_unclosed hq hs ht depth)
      | false =>
          simp only [isSpecial, hq, Bool.false_or, Bool.or_eq_true, decide_eq_true_eq,
            or_assoc] at hc
          rcases hc with rfl | rfl | rfl | rfl | rfl
          · exact .inl ⟨_, t, _, rfl, .opens (.inl rfl)⟩
          · exact .inl ⟨_, t, _, rfl, .closes (.inl rfl)⟩
          · exact .inl ⟨_, t, _, rfl, .opens (.inr rfl)⟩
          · exact .inl ⟨_, t, _, rfl, .closes (.inr rfl)⟩
          · cases t with
            | nil => exact .inr ⟨_, .cons (Cursor.step_backslash depth) (.nil _)⟩
            | cons c t =>
                obtain ⟨e, rest, hsplit, he⟩ := exists_escape c t
                exact .inl ⟨e, rest, depth, hsplit, .escape he⟩

/-- What the cursor finds active stands outside brackets and escapes. -/
theorem nests_of_kinds (t : Text) {front : Text} {depth i : Nat} (h : Nests front t depth)
    (hk : (kinds { depth } t)[i]? = some (some k)) :
    ∃ u c rest, t = u ++ c :: rest ∧ u.length = i ∧ Nests (front ++ u) (c :: rest) 0 ∧
      BreakKind.of? c = some k := by
  match t with
  | [] => cases hk
  | c :: t =>
      rcases exists_item c t depth with ⟨e, rest, depth', hsplit, hitem⟩ | ⟨s', hlead⟩
      case inr => cases hlead.kinds _ (List.mem_of_getElem? hk)
      case inl =>
        have hlen : rest.length < (c :: t).length := by
          have := List.length_pos_iff.2 hitem.ne_nil
          rw [hsplit, List.length_append]
          omega
        rw [hsplit] at h hk ⊢
        have hbehind {j : Nat} (hj : (kinds { depth := depth' } rest)[j]? = some (some k))
            (hi : i = e.length + j) :
            ∃ u c rest', e ++ rest = u ++ c :: rest' ∧ u.length = i ∧
              Nests (front ++ u) (c :: rest') 0 ∧ BreakKind.of? c = some k := by
          obtain ⟨u, c, rest', rfl, rfl, hnests, hkind⟩ := nests_of_kinds rest (h.item hitem) hj
          refine ⟨e ++ u, c, rest', (List.append_assoc ..).symm, ?_, ?_, hkind⟩
          · rw [List.length_append, hi]
          · rwa [← List.append_assoc]
        rcases hitem.kinds with hkinds | ⟨c, rfl, rfl, rfl, hkinds⟩
        · rw [hkinds, List.getElem?_append, List.length_replicate] at hk
          split at hk
          case isTrue hi => simp [hi] at hk
          case isFalse hi => exact hbehind hk (by omega)
        · rw [hkinds] at hk
          cases i with
          | zero => exact ⟨[], c, rest, rfl, rfl, by rwa [List.append_nil], Option.some.inj hk⟩
          | succ i => exact hbehind hk (Nat.add_comm ..)
termination_by t.length
decreasing_by exact hlen

/-- The cursor finds active what is of a kind and stands outside brackets and escapes. -/
theorem kinds_eq_some_iff {i : Nat} :
    (kinds {} t)[i]? = some (some k) ↔
      ∃ front c rest, t = front ++ c :: rest ∧ front.length = i ∧ Nests front (c :: rest) 0 ∧
        BreakKind.of? c = some k := by
  constructor
  · exact nests_of_kinds t .start
  · rintro ⟨front, c, rest, rfl, rfl, hnests, hkind⟩
    have hdrop := congrArg (·[0]?) hnests.kinds
    have hc : kinds {} (c :: rest) = some k :: kinds {} rest := by
      rw [Cursor.kinds, Cursor.step_active (by simp [hkind]), hkind]
    simpa [hc] using hdrop

end StyleSieve.Selector
