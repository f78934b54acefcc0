import StyleSieve.Proofs.Markup.Harvest
import StyleSieve.Proofs.Rewrite.Region

/-!
# Style tags with quoted values

The grammar of start tags (`Markup.Attrs`) lets a quote stand in the name of an attribute, and in a
value without quotes.  A scanner takes it for a character there, and a rewriter that drops the tag
for the start of a value.  Where each quote stands around a value (`QuotedAttrs`), or in one, both
read the same tag.

* `QuotedAttrs.attrs`, `QuotedAttrs.inside`: the rest of a start tag, for a scanner and for a
  rewriter.
* `StyleStart.opens`, `StyleStart.styleTag`: the start tag of a style element, for each of them.
-/

namespace StyleSieve.Rewrite

open Markup

/-! ### Within a tag -/

/-- No quote among the bytes. -/
def NoQuote (s : Bytes) : Prop := ∀ b ∈ s, Mark.of b ≠ .quote

/-- Bytes that neither end a tag nor open a quote. -/
def IsBare (s : Bytes) : Prop := ∀ b ∈ s, Mark.of b ≠ .quote ∧ Mark.of b ≠ .greater

theorem IsBare.append {a b : Bytes} (ha : IsBare a) (hb : IsBare b) : IsBare (a ++ b) :=
  List.forall_mem_append.2 ⟨ha, hb⟩

theorem isBare_of_spaces {w : Bytes} (h : AllSpaces w) : IsBare w := fun b hb => by
  simp [h b hb]

theorem isBare_attrName {n : Bytes} (h : IsAttrName n) (hn : NoQuote n) : IsBare n := by
  suffices hends : ∀ b ∈ n, (Mark.of b).endsName = false by
    intro b hb
    refine ⟨hn b hb, fun e => ?_⟩
    have := hends b hb
    rw [e] at this
    cases this
  induction h with
  | first hb => exact List.forall_mem_singleton.2 hb
  | more _ hb _ ih =>
      refine List.forall_mem_append.2 ⟨ih fun b hb => hn b ?_, List.forall_mem_singleton.2 hb⟩
      exact List.mem_append_left _ hb

theorem isBare_plainValue {v : Bytes} (h : IsPlainValue v) (hv : NoQuote v) : IsBare v := by
  suffices hends : ∀ b ∈ v, Mark.of b ≠ .greater from fun b hb => ⟨hv b hb, hends b hb⟩
  induction h with
  | first _ hb _ => exact List.forall_mem_singleton.2 hb
  | more _ hb _ ih =>
      refine List.forall_mem_append.2 ⟨ih fun b hb => hv b ?_, List.forall_mem_singleton.2 hb⟩
      exact List.mem_append_left _ hb

theorem isBare_assigns {n t : Bytes} (h : Assigns n t) (hn : NoQuote n) : IsBare t := by
  obtain ⟨w, w', rfl, hname, hw, hw'⟩ := h
  have hequals : IsBare [0x3D] := List.forall_mem_singleton.2 (by decide)
  exact (((isBare_attrName hname hn).append (isBare_of_spaces hw)).append hequals).append
    (isBare_of_spaces hw')

/-- Bare bytes stay within the tag. -/
theorem Inside.bare {u w : Bytes} (hu : Inside none u) (hw : IsBare w) : Inside none (u ++ w) := by
  induction w generalizing u with
  | nil => rwa [List.append_nil]
  | cons b w ih =>
      obtain ⟨⟨hquote, hgreater⟩, hw⟩ := List.forall_mem_cons.1 hw
      have h := ih (hu.plain hquote hgreater) hw
      rwa [List.append_assoc] at h

theorem Inside.withins {u v : Bytes} {q : UInt8} (hu : Inside (some q) u) (hv : q ∉ v) :
    Inside (some q) (u ++ v) := by
  induction v generalizing u with
  | nil => rwa [List.append_nil]
  | cons b v ih =>
      rw [List.mem_cons, not_or] at hv
      have h := ih (hu.within (Ne.symm hv.1)) hv.2
      rwa [List.append_assoc] at h

/-- A value in quotes stays within the tag. -/
theorem Inside.value {u v : Bytes} {q : UInt8} (hu : Inside none u) (hq : Mark.of q = .quote)
    (hv : q ∉ v) : Inside none (u ++ (q :: v ++ [q])) := by
  have h := ((hu.opened hq).withins hv).closed
  simpa using h

/-! ### The rest of a start tag -/

/-- `s` is the rest of a start tag, from where an attribute may start up to its `>`.  A quote stands
around a value, or in one. -/
inductive QuotedAttrs : (s : Bytes) → Prop where
  | close : QuotedAttrs [0x3E]
  | gap {b : UInt8} {s : Bytes} :
      Mark.of b = .space ∨ Mark.of b = .slash → QuotedAttrs s → QuotedAttrs (b :: s)
  /-- No value, as `Markup.Attrs.bare` has it. -/
  | bare {n w s : Bytes} {b : UInt8} :
      IsAttrName n → NoQuote n → AllSpaces w → Mark.of b ≠ .space → Mark.of b ≠ .equals →
        (w = [] → Mark.of b = .greater ∨ Mark.of b = .slash) → QuotedAttrs (b :: s) →
          QuotedAttrs (n ++ w ++ b :: s)
  | quoted {n t v s : Bytes} {q : UInt8} :
      Assigns n t → NoQuote n → Mark.of q = .quote → q ∉ v → QuotedAttrs s →
        QuotedAttrs (t ++ q :: v ++ q :: s)
  | plain {n t v s : Bytes} {b : UInt8} :
      Assigns n t → NoQuote n → IsPlainValue v → NoQuote v →
        Mark.of b = .space ∨ Mark.of b = .greater → QuotedAttrs (b :: s) →
          QuotedAttrs (t ++ v ++ b :: s)

namespace QuotedAttrs

variable {s : Bytes}

theorem attrs (h : QuotedAttrs s) : ∃ as, Attrs as s := by
  induction h with
  | close => exact ⟨_, .close⟩
  | gap hb _ ih =>
      obtain ⟨as, h⟩ := ih
      exact ⟨as, .gap hb h⟩
  | bare hn _ hw hspace hequals hb _ ih =>
      obtain ⟨as, h⟩ := ih
      exact ⟨_, .bare hn hw hspace hequals hb h⟩
  | quoted ht _ hq hv _ ih =>
      obtain ⟨as, h⟩ := ih
      exact ⟨_, .quoted ht hq hv h⟩
  | plain ht _ hv _ hb _ ih =>
      obtain ⟨as, h⟩ := ih
      exact ⟨_, .plain ht hv hb h⟩

/-- Only the last byte ends the tag. -/
theorem inside (h : QuotedAttrs s) :
    ∃ u, s = u ++ [0x3E] ∧ ∀ v, Inside none v → Inside none (v ++ u) := by
  induction h with
  | close => exact ⟨[], rfl, fun v hv => by rwa [List.append_nil]⟩
  | @gap b s hb _ ih =>
      obtain ⟨u, rfl, hu⟩ := ih
      have hbare : IsBare [b] :=
        List.forall_mem_singleton.2 (by rcases hb with hb | hb <;> simp [hb])
      refine ⟨b :: u, rfl, fun v hv => ?_⟩
      have h := hu _ (hv.bare hbare)
      rwa [List.append_assoc] at h
  | @bare n w s b hn hquote hw _ _ _ _ ih =>
      obtain ⟨u, hs, hu⟩ := ih
      refine ⟨n ++ w ++ u, by simp [hs], fun v hv => ?_⟩
      have h := hu _ (hv.bare ((isBare_attrName hn hquote).append (isBare_of_spaces hw)))
      rwa [List.append_assoc] at h
  | @quoted n t v s q ht hquote hq hv _ ih =>
      obtain ⟨u, rfl, hu⟩ := ih
      refine ⟨t ++ (q :: v ++ [q]) ++ u, by simp, fun v hv' => ?_⟩
      have h := hu _ ((hv'.bare (isBare_assigns ht hquote)).value hq hv)
      simpa only [List.append_assoc] using h
  | @plain n t v s b ht hquote hv hquote' _ _ ih =>
      obtain ⟨u, hs, hu⟩ := ih
      refine ⟨t ++ v ++ u, by simp [hs], fun v' hv' => ?_⟩
      have h := hu _ (hv'.bare ((isBare_assigns ht hquote).append (isBare_plainValue hv hquote')))
      rwa [List.append_assoc] at h

end QuotedAttrs

/-! ### Start tags of style elements -/

/-- `t` is the start tag of a style element, with quotes around values only. -/
inductive StyleStart : (t : Bytes) → Prop where
  | short {n : Bytes} : SameName n styleName → StyleStart (0x3C :: n ++ [0x3E])
  | long {n s : Bytes} {b : UInt8} :
      SameName n styleName → Mark.of b = .space ∨ Mark.of b = .slash → QuotedAttrs s →
        StyleStart (0x3C :: n ++ b :: s)

namespace StyleStart

variable {t : Bytes}

theorem isTagName {n : Bytes} (h : SameName n styleName) : IsTagName n := by
  obtain ⟨hne, hletters⟩ := styleName_isWord.of_sameName h
  cases n with
  | nil => exact absurd rfl hne
  | cons b n =>
      obtain ⟨hb, hn⟩ := List.forall_mem_cons.1 hletters
      exact .cons hb fun c hc => by rw [hn c hc]; rfl

theorem endsName_of {b : UInt8} (h : Mark.of b = .space ∨ Mark.of b = .slash) :
    (Mark.of b).endsName = true := by
  rcases h with h | h
  all_goals
    rw [h]
    rfl

theorem opens_of_attrs {n s : Bytes} {b : UInt8} {as : List Attr} (hn : SameName n styleName)
    (hb : (Mark.of b).endsName = true) (hs : Attrs as (b :: s)) :
    Scanner.text.Opens (0x3C :: n ++ b :: s) := by
  have h := (StartTag.intro (isTagName hn) hb hs).ends.opens
  rwa [if_pos ((Tag.kind_eq_style _).2 hn)] at h

/-- In markup the tag opens a region. -/
theorem opens (h : StyleStart t) : Scanner.text.Opens t := by
  cases h with
  | short hn => exact opens_of_attrs hn rfl .close
  | long hn hb hs =>
      obtain ⟨as, hs⟩ := hs.attrs
      exact opens_of_attrs hn (endsName_of hb) (.gap hb hs)

/-- In a region and behind one the tag is a style tag. -/
theorem styleTag (h : StyleStart t) : StyleTag .opening t := by
  cases h with
  | @short n hn => exact .short ⟨n, 0x3E, rfl, hn, rfl⟩
  | @long n s b hn hb hs =>
      obtain ⟨u, rfl, hu⟩ := hs.inside
      have hgreater : b ≠ 0x3E := by
        rintro rfl
        rcases hb with hb | hb <;> cases hb
      have htag : OpenTag .opening none (0x3C :: n ++ [b] ++ u) :=
        ⟨0x3C :: n, b, u, rfl, ⟨n, b, rfl, hn, endsName_of hb⟩, hgreater, hu [] .start⟩
      simpa using StyleTag.long htag

end StyleStart

end StyleSieve.Rewrite
