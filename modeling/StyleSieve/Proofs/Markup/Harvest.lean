import StyleSieve.Proofs.Markup.Keys
import StyleSieve.Proofs.Markup.Sound
import StyleSieve.Proofs.Usage

/-!
# What a scanner brings to light

A page is a row of items in any order: text, comments, declarations, end tags, scripts and start
tags.  What a start tag names is said by its own text (`Tag.Names`), where all its names, words and
ids are texts that are kept whole (`Tag.IsWhole`).  A scanner that reads a page in any chunks is
idle behind it, has seen a style tag open at the last byte of each one, and has put in exactly the
keys that the start tags name.

* `Attr.mem_keys_iff`, `Tag.mem_keys_iff`: the keys of an attribute, and of a start tag.
* `Item.run`, `run_items`: one item, and a row of them.
* `Survey.readAll_eq`: the chunks do not matter.
* `Survey.harvests_items`: a page in any chunks.
-/

namespace StyleSieve.Markup

open Utf8 (encode)

instance (a b : Bytes) : Decidable (SameName a b) := inferInstanceAs (Decidable (_ = _))

/-! ### What a start tag names -/

/-- What stands between the spaces of a value. -/
def wordsOf (v : Bytes) : List Bytes := v.splitOnP fun b => Mark.of b = .space

/-- What an attribute names: itself; a class for each word of the value of a `class`; and an id, for
the value of an `id` that is not blank. -/
inductive Attr.Names (a : Attr) : (key : Text) → Prop where
  | name {n : Text} : a.name = encode n → a.Names (Key.attr n)
  | word {v : Bytes} {w : Text} :
      SameName a.name (encode "class".toList) → a.value = some v →
        encode w ∈ wordsOf v → w ≠ [] → a.Names (Key.className w)
  | id {v : Text} :
      SameName a.name (encode "id".toList) → a.value = some (encode v) → v.trim ≠ [] →
        a.Names (Key.id v.trim)

/-- What a start tag names: itself, and what its attributes do. -/
inductive Tag.Names (t : Tag) : (key : Text) → Prop where
  | name {n : Text} : t.name = encode n → t.Names (Key.tag n)
  | attr {a : Attr} {key : Text} : a ∈ t.attrs → a.Names key → t.Names key

/-- A name or word is a text, and is kept whole. -/
def IsWhole (n : Bytes) : Prop := Utf8.IsText n ∧ n.length ≤ maxName

/-- All that an attribute names is kept whole. -/
structure Attr.IsWhole (a : Attr) : Prop where
  name : Markup.IsWhole a.name
  words : SameName a.name (encode "class".toList) → ∀ v ∈ a.value,
    ∀ w ∈ wordsOf v, Markup.IsWhole w
  id : SameName a.name (encode "id".toList) → ∀ v ∈ a.value, Markup.IsWhole v

/-- All that a start tag names is kept whole. -/
structure Tag.IsWhole (t : Tag) : Prop where
  name : Markup.IsWhole t.name
  attrs : ∀ a ∈ t.attrs, a.IsWhole

variable {n : Bytes} {a : Attr} {t : Tag} {k : Text}

theorem isWhole_encode {t : Text} (h : (encode t).length ≤ maxName) : IsWhole (encode t) :=
  ⟨⟨t, rfl⟩, h⟩

theorem IsWhole.take (h : IsWhole n) : n.take maxName = n := List.take_of_length_le h.2

/-- What is kept of a whole name is the name in lower case. -/
theorem IsWhole.decode_keptName {name : Text} (h : IsWhole (encode name)) :
    Utf8.decodeLossy (keptName (encode name)) = Text.lower name := by
  have hlower := (encode_lower name).symm
  refine keptName_of_eq hlower ?_
  rw [Fits, encode_lower, List.length_map]
  exact h.2

theorem lower_lower (t : Text) : Text.lower (Text.lower t) = Text.lower t :=
  lower_of_eq (encode_lower t).symm

/-- A short name is that which is kept of a name if and only if the two agree up to case. -/
theorem keptName_eq_iff {name : Bytes} (hlower : name.map lowerByte = name)
    (hlen : name.length < maxName) : keptName n = name ↔ SameName n name := by
  rw [SameName, hlower, keptName]
  constructor
  · intro h
    have hshort : (n.map lowerByte).length ≤ maxName := by
      have := congrArg List.length h
      rw [List.length_take] at this
      omega
    rwa [List.take_of_length_le hshort] at h
  · rintro h
    rw [h, List.take_of_length_le hlen.le]

/-- A choice of three is the first. -/
theorem choice_eq_first {α : Type} {x y z : α} {p q : Prop} [Decidable p] [Decidable q]
    (hy : y ≠ x) (hz : z ≠ x) : (if p then x else if q then y else z) = x ↔ p := by
  split_ifs with h
  · exact iff_of_true rfl h
  · exact iff_of_false hy h
  · exact iff_of_false hz h

/-- A choice of three is the second. -/
theorem choice_eq_second {α : Type} {x y z : α} {p q : Prop} [Decidable p] [Decidable q]
    (hx : x ≠ y) (hz : z ≠ y) (hpq : p → ¬ q) :
    (if p then x else if q then y else z) = y ↔ q := by
  split_ifs with h h'
  · exact iff_of_false hx (hpq h)
  · exact iff_of_true rfl h'
  · exact iff_of_false hz h'

theorem Tag.kind_eq_style (t : Tag) : t.kind = .style ↔ SameName t.name styleName := by
  rw [← keptName_eq_iff (by decide) (by decide)]
  exact choice_eq_first nofun nofun

theorem Tag.kind_eq_script (t : Tag) : t.kind = .script ↔ SameName t.name scriptName := by
  have hne : styleName ≠ scriptName := by decide
  rw [← keptName_eq_iff (by decide) (by decide)]
  exact choice_eq_second nofun nofun fun h h' => hne (h.symm.trans h')

theorem kind_eq_classes (n : Bytes) :
    AttrKind.of (keptName n) = .classes ↔ SameName n (encode "class".toList) := by
  rw [← keptName_eq_iff (by decide) (by decide)]
  exact choice_eq_first nofun nofun

theorem kind_eq_id (n : Bytes) :
    AttrKind.of (keptName n) = .id ↔ SameName n (encode "id".toList) := by
  have hne : encode "class".toList ≠ encode "id".toList := by decide
  rw [← keptName_eq_iff (by decide) (by decide)]
  exact choice_eq_second nofun nofun fun h h' => hne (h.symm.trans h')

/-- The keys of a class are those of its words. -/
theorem mem_valueKeys_classes {v : Bytes} (h : ∀ w ∈ wordsOf v, IsWhole w) :
    k ∈ valueKeys .classes v ↔ ∃ w, encode w ∈ wordsOf v ∧ w ≠ [] ∧ k = Key.className w := by
  rw [valueKeys, List.mem_filterMap]
  constructor
  · rintro ⟨word, hword, hkey⟩
    obtain ⟨w, rfl⟩ := (h word hword).1
    rw [(h _ hword).take, Scanner.wordKey, Utf8.decodeLossy_encode] at hkey
    split at hkey
    case isTrue => cases hkey
    case isFalse hne =>
      refine ⟨w, hword, ?_, (Option.some.inj hkey).symm⟩
      rintro rfl
      exact hne rfl
  · rintro ⟨w, hword, hne, rfl⟩
    have hbytes : encode w ≠ [] := mt Utf8.encode_eq_nil.1 hne
    refine ⟨_, hword, ?_⟩
    rw [(h _ hword).take, Scanner.wordKey, if_neg (by simpa using hbytes),
      Utf8.decodeLossy_encode]

/-- The key of an id that is not blank is the id without the blank characters around it. -/
theorem mem_valueKeys_id {v : Text} (h : IsWhole (encode v)) :
    k ∈ valueKeys .id (encode v) ↔ v.trim ≠ [] ∧ k = Key.id v.trim := by
  rw [valueKeys, h.take, Option.mem_toList, Scanner.wordKey, Utf8.decodeLossy_encode]
  by_cases hv : v.trim = []
  · simp [hv]
  · simp only [List.isEmpty_iff, hv, if_false, Option.some.injEq, ne_eq, not_false_iff, true_and]
    exact eq_comm

theorem Attr.mem_keys_iff (h : a.IsWhole) : k ∈ a.keys ↔ a.Names k := by
  obtain ⟨n, hn⟩ := h.name.1
  have hname : Key.attr (Utf8.decodeLossy (keptName a.name)) = Key.attr n := by
    rw [hn, IsWhole.decode_keptName (hn ▸ h.name), Key.attr, lower_lower]
    rfl
  rw [Attr.keys, hname, List.mem_cons]
  constructor
  · rintro (rfl | hk)
    · exact .name hn
    · cases hv : a.value with
      | none =>
          rw [hv, Option.getD_none, Scanner.valueKeys_nil] at hk
          cases hk
      | some v =>
          rw [hv, Option.getD_some] at hk
          cases hkind : AttrKind.of (keptName a.name) with
          | classes =>
              have hsame := (kind_eq_classes _).1 hkind
              rw [hkind, mem_valueKeys_classes (h.words hsame v hv)] at hk
              obtain ⟨w, hw, hne, rfl⟩ := hk
              exact .word hsame hv hw hne
          | id =>
              have hsame := (kind_eq_id _).1 hkind
              have hwhole := h.id hsame v hv
              obtain ⟨v, rfl⟩ := hwhole.1
              rw [hkind, mem_valueKeys_id hwhole] at hk
              obtain ⟨hne, rfl⟩ := hk
              exact .id hsame hv hne
          | other =>
              rw [hkind] at hk
              cases hk
  · rintro (hn' | ⟨hsame, hv, hw, hne⟩ | ⟨hsame, hv, hne⟩)
    · obtain rfl := Utf8.encode_inj.1 (hn.symm.trans hn')
      exact .inl rfl
    · rw [hv, Option.getD_some, (kind_eq_classes _).2 hsame,
        mem_valueKeys_classes (h.words hsame _ hv)]
      exact .inr ⟨_, hw, hne, rfl⟩
    · rw [hv, Option.getD_some, (kind_eq_id _).2 hsame, mem_valueKeys_id (h.id hsame _ hv)]
      exact .inr ⟨hne, rfl⟩

/-- The keys of a start tag are what it names. -/
theorem Tag.mem_keys_iff (h : t.IsWhole) : k ∈ t.keys ↔ t.Names k := by
  obtain ⟨n, hn⟩ := h.name.1
  have hname : Key.tag (Utf8.decodeLossy (keptName t.name)) = Key.tag n := by
    rw [hn, IsWhole.decode_keptName (hn ▸ h.name), Key.tag, lower_lower]
    rfl
  rw [Tag.keys, hname, List.mem_cons, List.mem_flatMap]
  constructor
  · rintro (rfl | ⟨a, ha, hk⟩)
    · exact .name hn
    · exact .attr ha ((Attr.mem_keys_iff (h.attrs a ha)).1 hk)
  · rintro (hn' | ⟨ha, hk⟩)
    · obtain rfl := Utf8.encode_inj.1 (hn.symm.trans hn')
      exact .inl rfl
    · exact .inr ⟨_, ha, (Attr.mem_keys_iff (h.attrs _ ha)).2 hk⟩

/-! ### Items -/

/-- `s` is an item, `tag` the start tag in it, if there is one, and all that it names is kept
whole. -/
inductive IsItem : (tag : Option Tag) → (s : Bytes) → Prop where
  | text {s : Bytes} : 0x3C ∉ s → IsItem none s
  | comment {c : Bytes} : Comment c → IsItem none (0x3C :: 0x21 :: 0x2D :: 0x2D :: c)
  | declaration {u : Bytes} :
      0x3E ∉ u → ¬ [0x2D, 0x2D] <+: u → IsItem none (0x3C :: 0x21 :: u ++ [0x3E])
  | instruction {u : Bytes} : 0x3E ∉ u → IsItem none (0x3C :: 0x3F :: u ++ [0x3E])
  | endTag {u : Bytes} : 0x3E ∉ u → IsItem none (0x3C :: 0x2F :: u ++ [0x3E])
  | startTag {t : Tag} {u : Bytes} :
      StartTag t u → t.IsWhole → ¬ SameName t.name scriptName → IsItem (some t) u
  /-- A script: its start tag, content up to the first end tag of a script, and that. -/
  | script {t : Tag} {u c e : Bytes} :
      StartTag t u → t.IsWhole → SameName t.name scriptName → Lacks scriptName .closing c →
        ScriptEnd e → IsItem (some t) (u ++ c ++ e)

/-- An item with its bytes. -/
structure Item where
  tag : Option Tag
  bytes : Bytes
  isItem : IsItem tag bytes

/-- Whether each byte of an item is the last of a start tag `style`. -/
def Item.opened (x : Item) : List Bool :=
  if x.tag.any fun t => SameName t.name styleName then
    .replicate (x.bytes.length - 1) false ++ [true]
  else .replicate x.bytes.length false

namespace Scanner

theorem length_run (s : Scanner) (bytes : Bytes) : (s.run bytes).2.length = bytes.length := by
  induction bytes generalizing s with
  | nil => rfl
  | cons b bytes ih => simp only [run, List.length_cons, ih]

/-- Whether each byte is the last of a start tag `style`. -/
def opened (s : Scanner) (bytes : Bytes) : List Bool := (s.run bytes).2.map (·.opensStyle)

variable {s : Scanner} {bytes : Bytes}

theorem opened_append (s : Scanner) (a b : Bytes) :
    s.opened (a ++ b) = s.opened a ++ (s.run a).1.opened b := by
  simp only [opened, run_append, List.map_append]

theorem opened_of_silent (h : s.Silent bytes) : s.opened bytes = .replicate bytes.length false := by
  rw [opened, List.eq_replicate_iff, List.length_map, length_run]
  exact ⟨rfl, List.forall_mem_map.2 h⟩

theorem opened_of_opens (h : s.Opens bytes) :
    s.opened bytes = .replicate (bytes.length - 1) false ++ [true] := by
  obtain ⟨k, hk⟩ := opens_iff.1 h
  have hlen := congrArg List.length hk
  rw [List.length_map, length_run, List.length_append, List.length_replicate,
    List.length_singleton] at hlen
  rw [opened, hk, hlen, Nat.add_sub_cancel]

end Scanner

/-- A scanner that reads an item is idle behind it, has named the keys of its start tag, and has
seen a style tag open at the end of one. -/
theorem Item.run (x : Item) :
    (Scanner.text.run x.bytes).1 = .text ∧
      Scanner.text.harvest x.bytes = x.tag.elim [] Tag.keys ∧
      Scanner.text.opened x.bytes = x.opened := by
  have quiet {s : Bytes} (h : IsItem none s) (hgoes : Scanner.text.Goes s .text []) :
      (Scanner.text.run s).1 = .text ∧ Scanner.text.harvest s = [] ∧
        Scanner.text.opened s = Item.opened ⟨none, s, h⟩ :=
    ⟨hgoes.state, hgoes.keys, Scanner.opened_of_silent hgoes.silent⟩
  obtain ⟨tag, s, h⟩ := x
  cases h with
  | text hs => exact quiet _ (Scanner.text_goes_text hs)
  | comment hc => exact quiet _ (Scanner.text_goes_comment hc)
  | declaration hu hd => exact quiet _ (Scanner.text_goes_declaration hu hd)
  | instruction hu => exact quiet _ (Scanner.text_goes_instruction hu)
  | endTag hu => exact quiet _ (Scanner.text_goes_endTag hu)
  | @startTag t u ht hwhole hscript =>
      refine ⟨ht.run (mt t.kind_eq_script.1 hscript), ht.ends.keys, ?_⟩
      have hopens := ht.ends.opens
      simp only [Item.opened, Option.any_some, decide_eq_true_eq, ← Tag.kind_eq_style]
      split at hopens
      case isTrue hstyle => rw [if_pos hstyle, Scanner.opened_of_opens hopens]
      case isFalse hstyle => rw [if_neg hstyle, Scanner.opened_of_silent hopens]
  | @script t u c e ht hwhole hscript hc he =>
      have hkind := t.kind_eq_script.2 hscript
      have hgoes := ht.goes_script hkind hc he
      have hstyle : ¬ SameName t.name styleName := fun h => by
        rw [← Tag.kind_eq_style, hkind] at h
        cases h
      refine ⟨hgoes.state, hgoes.keys, ?_⟩
      simp only [Item.opened, Option.any_some, decide_eq_true_eq, if_neg hstyle]
      exact Scanner.opened_of_silent hgoes.silent

theorem Item.mem_keys (x : Item) : k ∈ x.tag.elim [] Tag.keys ↔ ∃ t ∈ x.tag, t.Names k := by
  obtain ⟨tag, s, h⟩ := x
  cases h with
  | text | comment | declaration | instruction | endTag => simp
  | startTag _ hwhole | script _ hwhole => simp [Tag.mem_keys_iff hwhole]

/-- A scanner that reads items. -/
theorem run_items (xs : List Item) :
    (Scanner.text.run (xs.flatMap Item.bytes)).1 = .text ∧
      Scanner.text.harvest (xs.flatMap Item.bytes) = xs.flatMap (·.tag.elim [] Tag.keys) ∧
      Scanner.text.opened (xs.flatMap Item.bytes) = xs.flatMap Item.opened := by
  induction xs with
  | nil => exact ⟨rfl, rfl, rfl⟩
  | cons x xs ih =>
      obtain ⟨hstate, hkeys, hopened⟩ := x.run
      rw [List.flatMap_cons, Scanner.run_append, Scanner.harvest_append, Scanner.opened_append,
        hstate, hkeys, hopened, ih.1, ih.2.1, ih.2.2]
      exact ⟨rfl, rfl, rfl⟩

/-! ### Chunks -/

/-- A scanner with the keys that it and others have brought to light. -/
structure Survey where
  scanner : Scanner := .text
  usage : Usage := .empty

namespace Survey

/-- Reads a chunk: the survey behind it, and for each byte whether it opened a style element. -/
def read (s : Survey) (chunk : Bytes) : Survey × List Bool :=
  (⟨(s.scanner.run chunk).1, s.usage.insertAll (s.scanner.harvest chunk)⟩, s.scanner.opened chunk)

/-- Reads chunks, one after the other. -/
def readAll : Survey → List Bytes → Survey × List Bool
  | s, [] => (s, [])
  | s, chunk :: chunks =>
    let (next, opened) := s.read chunk
    let (last, more) := next.readAll chunks
    (last, opened ++ more)

/-- It does not matter how what is read is cut. -/
theorem readAll_eq (s : Survey) (chunks : List Bytes) :
    s.readAll chunks = s.read chunks.flatten := by
  induction chunks generalizing s with
  | nil => rfl
  | cons chunk chunks ih =>
      simp only [readAll, ih, read, List.flatten_cons, Scanner.run_append, Scanner.harvest_append,
        Scanner.opened_append, Usage.insertAll_append]

/-- **A scanner brings to light exactly what the start tags name.**  It reads items in any chunks:
it is idle behind them, has seen a style element open at the last byte of each start tag `style`,
and to the keys that there were before it has added those that the start tags name. -/
theorem harvests_items (xs : List Item) (usage : Usage) {chunks : List Bytes}
    (h : chunks.flatten = xs.flatMap Item.bytes) :
    let r := readAll { usage } chunks
    r.1.scanner.isIdle = true ∧ r.2 = xs.flatMap Item.opened ∧
      ∀ k, k ∈ r.1.usage.keys ↔ k ∈ usage.keys ∨ ∃ x ∈ xs, ∃ t ∈ x.tag, t.Names k := by
  obtain ⟨hstate, hkeys, hopened⟩ := run_items xs
  simp only [readAll_eq, h, read, hstate, hkeys, hopened]
  refine ⟨rfl, trivial, fun k => ?_⟩
  simp only [Usage.mem_keys_insertAll, List.mem_flatMap, Item.mem_keys]

/-- `<P CLASS='b c'>`. -/
def paragraphTag : Tag :=
  ⟨encode "P".toList, [⟨encode "CLASS".toList, some (encode "b c".toList)⟩]⟩

/-- `<Style id=x>`. -/
def namedStyleTag : Tag :=
  ⟨encode "Style".toList, [⟨encode "id".toList, some (encode "x".toList)⟩]⟩

theorem startTag_paragraph : StartTag paragraphTag (encode "<P CLASS='b c'>".toList) := by
  have hname : IsAttrName (encode "CLASS".toList) := .cons (by decide) (by decide +kernel)
  have hassigns : Assigns (encode "CLASS".toList) (encode "CLASS=".toList) :=
    ⟨[], [], by decide, hname, .nil, .nil⟩
  have hattrs := Attrs.quoted (q := 0x27) (v := encode "b c".toList) hassigns rfl (by decide) .close
  exact .intro (b := 0x20) (.cons (by decide) (by decide +kernel)) rfl (.gap (.inl rfl) hattrs)

theorem startTag_namedStyle : StartTag namedStyleTag (encode "<Style id=x>".toList) := by
  have hname : IsAttrName (encode "id".toList) := .cons (by decide) (by decide +kernel)
  have hassigns : Assigns (encode "id".toList) (encode "id=".toList) :=
    ⟨[], [], by decide, hname, .nil, .nil⟩
  have hattrs := Attrs.plain (v := encode "x".toList) (b := 0x3E) hassigns
    (.first (by decide) (by decide) (by decide)) (.inr rfl) .close
  exact .intro (b := 0x20) (.cons (by decide) (by decide +kernel)) rfl (.gap (.inl rfl) hattrs)

theorem isWhole_paragraph : paragraphTag.IsWhole where
  name := isWhole_encode (by decide)
  attrs := List.forall_mem_singleton.2
    { name := isWhole_encode (by decide)
      words := fun _ v hv w hw => by
        obtain rfl := Option.some.inj hv
        have hwords : wordsOf (encode "b c".toList) = [encode "b".toList, encode "c".toList] := by
          decide
        have hwhole : ∀ w ∈ [encode "b".toList, encode "c".toList], Markup.IsWhole w :=
          List.forall_mem_cons.2 ⟨isWhole_encode (by decide),
            List.forall_mem_singleton.2 (isWhole_encode (by decide))⟩
        exact hwhole w (hwords ▸ hw)
      id := fun h => absurd h (by decide) }

theorem isWhole_namedStyle : namedStyleTag.IsWhole where
  name := isWhole_encode (by decide)
  attrs := List.forall_mem_singleton.2
    { name := isWhole_encode (by decide)
      words := fun h => absurd h (by decide)
      id := fun _ v hv => by
        obtain rfl := Option.some.inj hv
        exact isWhole_encode (by decide) }

/-- Text, a paragraph, and the start of a style element. -/
def paragraphItems : List Item :=
  [⟨none, _, .text (s := encode "Hi ".toList) (by decide)⟩,
    ⟨some paragraphTag, _, .startTag startTag_paragraph isWhole_paragraph (by decide)⟩,
    ⟨some namedStyleTag, _, .startTag startTag_namedStyle isWhole_namedStyle (by decide)⟩]

/-- Their bytes, cut within names. -/
def paragraphChunks : List Bytes :=
  [encode "Hi <P CLA".toList, encode "SS='b c'><Sty".toList, encode "le id=x>".toList]

theorem harvests_paragraph :
    let r := readAll {} paragraphChunks
    paragraphChunks.flatten = paragraphItems.flatMap Item.bytes ∧
      r.1.scanner.isIdle = true ∧ r.2 = paragraphItems.flatMap Item.opened ∧
      ∀ k, k ∈ r.1.usage.keys ↔
        k ∈ Usage.empty.keys ∨ ∃ x ∈ paragraphItems, ∃ t ∈ x.tag, t.Names k := by
  have h : paragraphChunks.flatten = paragraphItems.flatMap Item.bytes := by decide
  exact ⟨h, harvests_items paragraphItems .empty h⟩

example :
    let r := readAll {} paragraphChunks
    r.1.usage.keys = ["p", "[class]", ".b", ".c", "style", "[id]", "#x"].map String.toList ∧
      r.2 = List.replicate 29 false ++ [true] := by
  decide

end Survey

end StyleSieve.Markup
