import StyleSieve.Markup.Scanner
import StyleSieve.Proofs.Markup.Boundary

/-!
# What markup is

The grammar of the markup that a scanner reads, without a scanner.  Reading goes from left to right,
so a rule for what comes next says, where that matters, how the rest begins.  `Items tags s` says
that `s` is read as whole items, of which `tags` are the start tags in order; `Tag.keys` are the
keys that a start tag names.

Every stretch that is no tag reads as something: a `<` that starts nothing is a character, and
attributes need neither a space between them nor a sensible name.
-/

namespace StyleSieve.Markup

/-- Only spaces. -/
def AllSpaces (w : Bytes) : Prop := ∀ b ∈ w, Mark.of b = .space

theorem AllSpaces.nil : AllSpaces [] := fun _ h => nomatch h

theorem AllSpaces.snoc {w : Bytes} {b : UInt8} (hw : AllSpaces w) (hb : Mark.of b = .space) :
    AllSpaces (w ++ [b]) := by
  intro c hc
  rcases List.mem_append.1 hc with hc | hc
  · exact hw c hc
  · exact List.mem_singleton.1 hc ▸ hb

/-! ### Start tags -/

/-- An attribute: its name as it is written, and its value, if it has one. -/
structure Attr where
  name : Bytes
  value : Option Bytes
  deriving DecidableEq, Repr

/-- A start tag: its name as it is written, and its attributes in order. -/
structure Tag where
  name : Bytes
  attrs : List Attr
  deriving DecidableEq, Repr

/-- `n` can be the name of a tag: a letter, and more up to a space, `/` or `>`. -/
inductive IsTagName : (n : Bytes) → Prop where
  | letter {b : UInt8} : Mark.of b = .letter → IsTagName [b]
  | more {n : Bytes} {b : UInt8} :
      IsTagName n → (Mark.of b).endsName = false → IsTagName (n ++ [b])

theorem IsTagName.cons {n : Bytes} {b : UInt8} (hb : Mark.of b = .letter)
    (hn : ∀ c ∈ n, (Mark.of c).endsName = false) : IsTagName (b :: n) := by
  induction n using List.reverseRecOn with
  | nil => exact .letter hb
  | append_singleton n c ih =>
      obtain ⟨hn, hc⟩ := List.forall_mem_append.1 hn
      exact .more (ih hn) (hc c List.mem_cons_self)

/-- `n` can be the name of an attribute: any byte but a space, `/` or `>`, and more of these up to
a `=`. -/
inductive IsAttrName : (n : Bytes) → Prop where
  | first {b : UInt8} : (Mark.of b).endsName = false → IsAttrName [b]
  | more {n : Bytes} {b : UInt8} :
      IsAttrName n → (Mark.of b).endsName = false → Mark.of b ≠ .equals → IsAttrName (n ++ [b])

theorem IsAttrName.cons {n : Bytes} {b : UInt8} (hb : (Mark.of b).endsName = false)
    (hn : ∀ c ∈ n, (Mark.of c).endsName = false ∧ Mark.of c ≠ .equals) : IsAttrName (b :: n) := by
  induction n using List.reverseRecOn with
  | nil => exact .first hb
  | append_singleton n c ih =>
      obtain ⟨hn, hc⟩ := List.forall_mem_append.1 hn
      obtain ⟨hends, hequals⟩ := hc c List.mem_cons_self
      exact .more (ih hn) hends hequals

/-- `v` can be a value without quotes. -/
inductive IsPlainValue : (v : Bytes) → Prop where
  | first {b : UInt8} :
      Mark.of b ≠ .quote → Mark.of b ≠ .greater → Mark.of b ≠ .space → IsPlainValue [b]
  | more {v : Bytes} {b : UInt8} :
      IsPlainValue v → Mark.of b ≠ .greater → Mark.of b ≠ .space → IsPlainValue (v ++ [b])

/-- `t` is the name `n` of an attribute up to where its value stands. -/
def Assigns (n t : Bytes) : Prop :=
  ∃ w w', t = n ++ w ++ [0x3D] ++ w' ∧ IsAttrName n ∧ AllSpaces w ∧ AllSpaces w'

/-- `s` is the rest of a start tag, from where an attribute may start up to its `>`. -/
inductive Attrs : List Attr → (s : Bytes) → Prop where
  | close : Attrs [] [0x3E]
  | gap {b : UInt8} {as : List Attr} {s : Bytes} :
      Mark.of b = .space ∨ Mark.of b = .slash → Attrs as s → Attrs as (b :: s)
  /-- No value.  Behind the name only spaces, and behind these no `=`. -/
  | bare {n w s : Bytes} {b : UInt8} {as : List Attr} :
      IsAttrName n → AllSpaces w → Mark.of b ≠ .space → Mark.of b ≠ .equals →
        (w = [] → Mark.of b = .greater ∨ Mark.of b = .slash) → Attrs as (b :: s) →
          Attrs (⟨n, none⟩ :: as) (n ++ w ++ b :: s)
  /-- The tag ends where a value is expected. -/
  | missing {n t : Bytes} : Assigns n t → Attrs [⟨n, some []⟩] (t ++ [0x3E])
  | quoted {n t v s : Bytes} {q : UInt8} {as : List Attr} :
      Assigns n t → Mark.of q = .quote → q ∉ v → Attrs as s →
        Attrs (⟨n, some v⟩ :: as) (t ++ q :: v ++ q :: s)
  | plain {n t v s : Bytes} {b : UInt8} {as : List Attr} :
      Assigns n t → IsPlainValue v → Mark.of b = .space ∨ Mark.of b = .greater →
        Attrs as (b :: s) → Attrs (⟨n, some v⟩ :: as) (t ++ v ++ b :: s)

/-- `t` is a start tag. -/
inductive StartTag : Tag → (t : Bytes) → Prop where
  | intro {n s : Bytes} {b : UInt8} {as : List Attr} :
      IsTagName n → (Mark.of b).endsName = true → Attrs as (b :: s) →
        StartTag ⟨n, as⟩ (0x3C :: n ++ b :: s)

/-! ### Other items -/

/-- `-->`. -/
def commentEnd : Bytes := [0x2D, 0x2D, 0x3E]

/-- `c` can stand in a comment, without the end of one: it holds no `-->`, and does not start as the
two short comments `<!-->` and `<!--->` do. -/
structure IsCommentBody (c : Bytes) : Prop where
  noEnd : ¬ commentEnd <:+: c
  noGreater : ¬ [0x3E] <+: c
  noDashGreater : ¬ [0x2D, 0x3E] <+: c

/-- `s` is a comment after its `<!--`. -/
inductive Comment : (s : Bytes) → Prop where
  | short : Comment [0x3E]
  | shortDash : Comment [0x2D, 0x3E]
  | long {c : Bytes} : IsCommentBody (c ++ [0x2D, 0x2D]) → Comment (c ++ commentEnd)

/-- `t` is the end tag of a script. -/
inductive ScriptEnd : (t : Bytes) → Prop where
  | short {n : Bytes} : Boundary scriptName .closing (n ++ [0x3E]) → ScriptEnd (n ++ [0x3E])
  | long {n u : Bytes} {b : UInt8} :
      Boundary scriptName .closing (n ++ [b]) → b ≠ 0x3E → 0x3E ∉ u →
        ScriptEnd (n ++ [b] ++ u ++ [0x3E])

/-! ### Keys -/

/-- What is kept of a name: its first bytes, in lower case. -/
def keptName (n : Bytes) : Bytes := (n.map lowerByte).take maxName

/-- What the end of a start tag leads to. -/
def Tag.kind (t : Tag) : TagKind := .of (keptName t.name)

/-- The keys of a value: a class for each word, or an id. -/
def valueKeys : AttrKind → (v : Bytes) → List Text
  | .classes, v =>
    (v.splitOnP (fun b => Mark.of b = .space)).filterMap fun word =>
      Scanner.wordKey .classes (word.take maxName)
  | .id, v => (Scanner.wordKey .id (v.take maxName)).toList
  | .other, _ => []

/-- The keys that an attribute names. -/
def Attr.keys (a : Attr) : List Text :=
  Key.attr (Utf8.decodeLossy (keptName a.name)) ::
    valueKeys (.of (keptName a.name)) (a.value.getD [])

/-- The keys that a start tag names. -/
def Tag.keys (t : Tag) : List Text :=
  Key.tag (Utf8.decodeLossy (keptName t.name)) :: t.attrs.flatMap Attr.keys

/-! ### Items -/

/-- `s` is whole items of markup, `tags` the start tags among them. -/
inductive Items : (tags : List Tag) → (s : Bytes) → Prop where
  | nil : Items [] []
  /-- A character of text. -/
  | char {b : UInt8} {ts : List Tag} {s : Bytes} :
      Mark.of b ≠ .less → Items ts s → Items ts (b :: s)
  /-- A `<` that starts nothing, for another one follows. -/
  | again {ts : List Tag} {s : Bytes} : Items ts (0x3C :: s) → Items ts (0x3C :: 0x3C :: s)
  /-- A `<` that starts nothing, for what follows starts no item. -/
  | stray {b : UInt8} {ts : List Tag} {s : Bytes} :
      Mark.of b ≠ .less → Mark.of b ≠ .slash → Mark.of b ≠ .bang → Mark.of b ≠ .question →
        Mark.of b ≠ .letter → Items ts s → Items ts (0x3C :: b :: s)
  | endTag {u s : Bytes} {ts : List Tag} :
      0x3E ∉ u → Items ts s → Items ts (0x3C :: 0x2F :: u ++ 0x3E :: s)
  /-- A processing instruction. -/
  | instruction {u s : Bytes} {ts : List Tag} :
      0x3E ∉ u → Items ts s → Items ts (0x3C :: 0x3F :: u ++ 0x3E :: s)
  /-- A declaration, which starts no comment. -/
  | declaration {u s : Bytes} {ts : List Tag} :
      0x3E ∉ u → ¬ [0x2D, 0x2D] <+: u → Items ts s → Items ts (0x3C :: 0x21 :: u ++ 0x3E :: s)
  | comment {c s : Bytes} {ts : List Tag} :
      Comment c → Items ts s → Items ts (0x3C :: 0x21 :: 0x2D :: 0x2D :: c ++ s)
  | startTag {t : Tag} {u s : Bytes} {ts : List Tag} :
      StartTag t u → t.kind ≠ .script → Items ts s → Items (t :: ts) (u ++ s)
  /-- A script: its start tag, content up to the first end tag of a script, and that. -/
  | script {t : Tag} {u c e s : Bytes} {ts : List Tag} :
      StartTag t u → t.kind = .script → Lacks scriptName .closing c → ScriptEnd e →
        Items ts s → Items (t :: ts) (u ++ c ++ e ++ s)

theorem Items.append {ts ts' : List Tag} {s s' : Bytes} (h : Items ts s) (h' : Items ts' s') :
    Items (ts ++ ts') (s ++ s') := by
  induction h with
  | nil => exact h'
  | char hb _ ih => exact .char hb ih
  | again _ ih => exact .again ih
  | stray h₁ h₂ h₃ h₄ h₅ _ ih => exact .stray h₁ h₂ h₃ h₄ h₅ ih
  | endTag hu _ ih => simpa using Items.endTag hu ih
  | instruction hu _ ih => simpa using Items.instruction hu ih
  | declaration hu hd _ ih => simpa using Items.declaration hu hd ih
  | comment hc _ ih => simpa using Items.comment hc ih
  | startTag ht hk _ ih => simpa using Items.startTag ht hk ih
  | script ht hk hc he _ ih => simpa using Items.script ht hk hc he ih

end StyleSieve.Markup
