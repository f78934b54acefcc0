import StyleSieve.Proofs.Markup.Scanner
import StyleSieve.Rewrite.Progress

/-!
# What a style region is

The grammar of the bytes that a rewriter drops, without a rewriter.  A region is read from behind
the `>` that opens it.  It is a row of style tags (`StyleTag`), each after bytes that hold none
(`Lead`): the content of an element where one is open, and no more than a few spaces where none is.
`Region limit depth s` says that `s` is such a row and leaves `depth` style elements open; a row
that leaves none open is a whole region.  A page may end within one (`Cut`).
-/

namespace StyleSieve.Rewrite

open Markup (Boundary IsWord Mark Quiet Side styleName)

/-! ### Style tags -/

/-- `u` stands in a tag after its name, with `quote` open at its end: no `>` in it is outside
quotes. -/
inductive Inside : (quote : Option UInt8) → (u : Bytes) → Prop where
  | start : Inside none []
  | plain {u : Bytes} {b : UInt8} :
      Inside none u → Mark.of b ≠ .quote → Mark.of b ≠ .greater → Inside none (u ++ [b])
  | opened {u : Bytes} {b : UInt8} :
      Inside none u → Mark.of b = .quote → Inside (some b) (u ++ [b])
  | within {u : Bytes} {q b : UInt8} :
      Inside (some q) u → b ≠ q → Inside (some q) (u ++ [b])
  | closed {u : Bytes} {q : UInt8} : Inside (some q) u → Inside none (u ++ [q])

theorem Inside.tagByte {quote quote' : Option UInt8} {u : Bytes} {b : UInt8}
    (h : Inside quote u) (hb : tagByte quote b = some quote') : Inside quote' (u ++ [b]) := by
  cases quote with
  | some q =>
      simp only [Rewrite.tagByte, Option.some.injEq] at hb
      subst hb
      split
      case isTrue e => exact e ▸ h.closed
      case isFalse e => exact h.within e
  | none =>
      simp only [Rewrite.tagByte] at hb
      split at hb
      case h_1 e =>
        cases hb
        exact h.opened e
      case h_2 => cases hb
      case h_3 e₁ e₂ =>
        cases hb
        exact h.plain e₁ e₂

/-- Only a `>` outside quotes ends a tag. -/
theorem tagByte_none {quote : Option UInt8} {b : UInt8} (hb : tagByte quote b = none) :
    quote = none ∧ b = 0x3E := by
  cases quote with
  | some q => cases hb
  | none =>
      simp only [tagByte] at hb
      split at hb
      case h_1 => cases hb
      case h_2 e => exact ⟨rfl, (Mark.of_eq_greater b).1 e⟩
      case h_3 => cases hb

/-- `t` starts a style tag and stops within it, after its name, with `quote` open. -/
def OpenTag (side : Side) (quote : Option UInt8) (t : Bytes) : Prop :=
  ∃ n b u, t = n ++ [b] ++ u ∧ Boundary styleName side (n ++ [b]) ∧ b ≠ 0x3E ∧ Inside quote u

/-- `t` is a style tag: a boundary of the name `style`, and more up to the first `>` outside quotes
unless the boundary ends with one. -/
inductive StyleTag (side : Side) : Bytes → Prop where
  | short {n : Bytes} : Boundary styleName side (n ++ [0x3E]) → StyleTag side (n ++ [0x3E])
  | long {t : Bytes} : OpenTag side none t → StyleTag side (t ++ [0x3E])

/-- A boundary of the name `style` is a tag or starts one. -/
theorem tag_of_boundary {side : Side} {n : Bytes} {b : UInt8}
    (h : Boundary styleName side (n ++ [b])) :
    if Mark.of b = .greater then StyleTag side (n ++ [b]) else OpenTag side none (n ++ [b]) := by
  split
  case isTrue e =>
    rw [Mark.of_eq_greater] at e
    exact e ▸ .short (e ▸ h)
  case isFalse e =>
    rw [Mark.of_eq_greater] at e
    exact ⟨n, b, [], (List.append_nil _).symm, h, e, .start⟩

/-- One more byte of a tag ends it or stays within it. -/
theorem OpenTag.tagByte {side : Side} {quote : Option UInt8} {t : Bytes}
    (h : OpenTag side quote t) (b : UInt8) :
    (∀ quote', tagByte quote b = some quote' → OpenTag side quote' (t ++ [b])) ∧
      (tagByte quote b = none → StyleTag side (t ++ [b])) := by
  refine ⟨fun quote' hb => ?_, fun hb => ?_⟩
  · obtain ⟨n, c, u, rfl, hn, hc, hu⟩ := h
    exact ⟨n, c, u ++ [b], List.append_assoc .., hn, hc, hu.tagByte hb⟩
  · obtain ⟨rfl, rfl⟩ := tagByte_none hb
    exact .long h

/-! ### Regions -/

/-- How many style elements a tag leaves open. -/
def depthAfter : Side → (depth : Nat) → Nat
  | .opening, depth => depth + 1
  | .closing, depth => depth - 1

/-- `s` may stand before a style tag of a region with `depth` elements open: content that holds no
such tag, or between elements at most `limit` spaces. -/
def Lead (limit : Nat) : (depth : Nat) → (s : Bytes) → Prop
  | 0, s => (∀ b ∈ s, Mark.of b = .space) ∧ s.length ≤ limit
  | _ + 1, s => Quiet styleName s

/-- `s` is the part of a region up to one of its style tags, after which `depth` elements are
open. -/
inductive Region (limit : Nat) : (depth : Nat) → (s : Bytes) → Prop where
  /-- The first element is open. -/
  | start : Region limit 1 []
  | tag {depth : Nat} {r s t : Bytes} {side : Side} :
      Region limit depth r → Lead limit depth s → StyleTag side t →
        Region limit (depthAfter side depth) (r ++ s ++ t)

/-- `s` is the part of a region up to the end of the page, in the content of an element or in a
style tag. -/
inductive Cut (limit : Nat) : (s : Bytes) → Prop where
  | content {depth : Nat} {r s : Bytes} :
      Region limit (depth + 1) r → Quiet styleName s → Cut limit (r ++ s)
  | tag {depth : Nat} {r s t : Bytes} {side : Side} {quote : Option UInt8} :
      Region limit depth r → Lead limit depth s → OpenTag side quote t → Cut limit (r ++ s ++ t)

end StyleSieve.Rewrite
