import StyleSieve.Proofs.Markup.Sound

/-!
# The grammar covers all that a scanner reads

Whatever a scanner has read is whole items and the start of one more, and the state tells which
(`Partly`).  What has been read of an item is described by what would complete it: a stretch that
may stand `Before` more attributes, for example, makes a start tag with any attributes behind it.
So each byte needs one look at the rule that it belongs to.

* `InTag.step`: a byte in a start tag.
* `Partly.step`, `partly_run`: a byte, and any bytes, of markup.
* `items_of_run`: markup that leaves the scanner between tags is whole items.
* `endsWithTag_of_opens`, `EndsWithTag.opensStyle`: the scanner sees a style tag end where there is
  one.
-/

namespace StyleSieve.Markup

open Scanner

/-! ### Within a start tag -/

/-- Behind `u`, any attributes make a start tag that has `as` in front of them. -/
def Before (n : Bytes) (as : List Attr) (u : Bytes) : Prop :=
  ∀ bs s, Attrs bs s → StartTag ⟨n, as ++ bs⟩ (u ++ s)

/-- Behind `u`, attributes that start with the byte `b` do. -/
def BeforeByte (n : Bytes) (as : List Attr) (u : Bytes) (b : UInt8) : Prop :=
  ∀ bs s, Attrs bs (b :: s) → StartTag ⟨n, as ++ bs⟩ (u ++ b :: s)

/-- `u` is a start tag up to where the state of the scanner says. -/
inductive InTag : Scanner → (u : Bytes) → Prop where
  | tagName {n : Bytes} : IsTagName n → InTag (.tagName (keptName n)) (0x3C :: n)
  | beforeAttr {n u : Bytes} {as : List Attr} :
      Before n as u → InTag (.beforeAttr (.of (keptName n))) u
  | attrName {n u m : Bytes} {b : UInt8} {as : List Attr} :
      BeforeByte n as u b → IsAttrName (b :: m) →
        InTag (.attrName (.of (keptName n)) (keptName (b :: m))) (u ++ b :: m)
  | afterAttr {n u m w : Bytes} {b : UInt8} {as : List Attr} :
      BeforeByte n as u b → IsAttrName (b :: m) → AllSpaces w → w ≠ [] →
        InTag (.afterAttr (.of (keptName n)) (.of (keptName (b :: m)))) (u ++ (b :: m ++ w))
  | beforeValue {n u m t : Bytes} {b : UInt8} {as : List Attr} :
      BeforeByte n as u b → Assigns (b :: m) (b :: t) →
        InTag (.beforeValue (.of (keptName n)) (.of (keptName (b :: m)))) (u ++ b :: t)
  | quoted {n u m t v w : Bytes} {b q : UInt8} {as : List Attr} :
      BeforeByte n as u b → Assigns (b :: m) (b :: t) → Mark.of q = .quote → q ∉ v →
        InTag (.quoted (.of (keptName n)) (.of (keptName (b :: m))) q w)
          (u ++ (b :: t ++ q :: v))
  | plain {n u m t v w : Bytes} {b : UInt8} {as : List Attr} :
      BeforeByte n as u b → Assigns (b :: m) (b :: t) → IsPlainValue v →
        InTag (.unquoted (.of (keptName n)) (.of (keptName (b :: m))) w) (u ++ (b :: t ++ v))

/-- A byte `b` behind `u`, read in state `s`, ends a start tag or stays within it. -/
def Advances (s : Scanner) (u : Bytes) (b : UInt8) : Prop :=
  (∃ t key, s.step b = closeTag t.kind key ∧ StartTag t (u ++ [b])) ∨
    (InTag (s.step b).1 (u ++ [b]) ∧ (s.step b).2.opensStyle = false)

variable {s : Scanner} {u m n t v w : Bytes} {as : List Attr} {b c : UInt8}

/-- A start tag may end behind `u`. -/
theorem Before.close (h : Before n as u) : StartTag ⟨n, as⟩ (u ++ [0x3E]) := by
  have h' := h [] [0x3E] .close
  rwa [List.append_nil] at h'

theorem Before.gap (h : Before n as u) (hb : Mark.of b = .space ∨ Mark.of b = .slash) :
    Before n as (u ++ [b]) := by
  intro bs s hs
  rw [List.append_assoc]
  exact h bs _ (.gap hb hs)

theorem Before.byte (h : Before n as u) : BeforeByte n as u b :=
  fun bs _ hs => h bs _ hs

/-- A name without a value stands behind `u`; a byte that is no space and no `=` follows. -/
theorem BeforeByte.bare (h : BeforeByte n as u b) (hm : IsAttrName (b :: m)) (hw : AllSpaces w)
    (hs : Mark.of c ≠ .space) (he : Mark.of c ≠ .equals)
    (hc : w = [] → Mark.of c = .greater ∨ Mark.of c = .slash) :
    BeforeByte n (as ++ [⟨b :: m, none⟩]) (u ++ (b :: m ++ w)) c := by
  intro bs s hb
  have h' := h _ (m ++ w ++ c :: s) (.bare hm hw hs he hc hb)
  simpa using h'

/-- An attribute with a value stands behind `u`. -/
theorem BeforeByte.quoted {q : UInt8} (h : BeforeByte n as u b) (ht : Assigns (b :: m) (b :: t))
    (hq : Mark.of q = .quote) (hv : q ∉ v) :
    Before n (as ++ [⟨b :: m, some v⟩]) (u ++ (b :: t ++ q :: v) ++ [q]) := by
  intro bs s hb
  have h' := h _ (t ++ q :: v ++ q :: s) (.quoted ht hq hv hb)
  simpa using h'

theorem BeforeByte.plain (h : BeforeByte n as u b) (ht : Assigns (b :: m) (b :: t))
    (hv : IsPlainValue v) (hc : Mark.of c = .space ∨ Mark.of c = .greater) :
    BeforeByte n (as ++ [⟨b :: m, some v⟩]) (u ++ (b :: t ++ v)) c := by
  intro bs s hb
  have h' := h _ (t ++ v ++ c :: s) (.plain ht hv hc hb)
  simpa using h'

/-- The byte behind `u` ends the tag. -/
theorem BeforeByte.close (h : BeforeByte n as u 0x3E) : StartTag ⟨n, as⟩ (u ++ [0x3E]) := by
  have h' := h [] [] .close
  rwa [List.append_nil] at h'

theorem BeforeByte.gap (h : BeforeByte n as u b)
    (hb : Mark.of b = .space ∨ Mark.of b = .slash) : Before n as (u ++ [b]) := by
  intro bs s hs
  have h' := h bs s (.gap hb hs)
  simpa using h'

theorem advances_of_close {t : Tag} {k : Option Text} (h : s.step c = closeTag t.kind k)
    (ht : StartTag t (u ++ [c])) : Advances s u c :=
  .inl ⟨t, k, h, ht⟩

theorem advances_of_step {s' : Scanner} {k : Option Text} (h : s.step c = (s', { key := k }))
    (ht : InTag s' (u ++ [c])) : Advances s u c := by
  rw [Advances, h]
  exact .inr ⟨ht, rfl⟩

/-! ### A byte of a start tag, state by state -/

theorem tagName_advances (hn : IsTagName n) (c : UInt8) :
    Advances (.tagName (keptName n)) (0x3C :: n) c := by
  cases e : Mark.of c
  case greater =>
    obtain rfl := (Mark.of_eq_greater c).1 e
    exact advances_of_close (t := ⟨n, []⟩) (k := tagKey (keptName n)) rfl
      (.intro hn rfl .close)
  case space | slash =>
    have hbefore : Before n [] (0x3C :: n ++ [c]) := by
      intro bs s hs
      have h' := StartTag.intro hn (by rw [e]; rfl) (.gap (b := c) (by simp [e]) hs)
      simpa using h'
    exact advances_of_step (k := tagKey (keptName n)) (by simp only [Scanner.step, e])
      (.beforeAttr hbefore)
  all_goals
    refine advances_of_step (k := none) (by simp only [Scanner.step, e]; rfl) ?_
    rw [keptName_snoc]
    exact .tagName (hn.more (by rw [e]; rfl))

theorem beforeAttr_advances (hu : Before n as u) (c : UInt8) :
    Advances (.beforeAttr (.of (keptName n))) u c := by
  cases e : Mark.of c
  case greater =>
    obtain rfl := (Mark.of_eq_greater c).1 e
    exact advances_of_close (t := ⟨n, as⟩) (k := none) rfl hu.close
  case space | slash =>
    exact advances_of_step (k := none) (by simp only [Scanner.step, e])
      (.beforeAttr (hu.gap (by simp [e])))
  all_goals
    exact advances_of_step (k := none) (by simp only [Scanner.step, e]; rfl)
      (.attrName (m := []) hu.byte (.first (by rw [e]; rfl)))

theorem attrName_advances (hu : BeforeByte n as u b) (hm : IsAttrName (b :: m)) (c : UInt8) :
    Advances (.attrName (.of (keptName n)) (keptName (b :: m))) (u ++ b :: m) c := by
  -- unless a `=` follows, the name stands without a value
  have bare := hu.bare (w := []) (c := c) hm .nil
  rw [List.append_nil] at bare
  cases e : Mark.of c
  case greater =>
    obtain rfl := (Mark.of_eq_greater c).1 e
    exact advances_of_close (t := ⟨n, _⟩) (k := attrKey (keptName (b :: m))) rfl
      (bare (by decide) (by decide) (fun _ => .inl rfl)).close
  case slash =>
    exact advances_of_step (k := attrKey (keptName (b :: m)))
      (by simp only [Scanner.step, e])
      (.beforeAttr ((bare (by simp [e]) (by simp [e]) fun _ => .inr e).gap (.inr e)))
  case space =>
    have h' := InTag.afterAttr hu hm (AllSpaces.nil.snoc e) (List.cons_ne_nil _ _)
    exact advances_of_step (k := attrKey (keptName (b :: m)))
      (by simp only [Scanner.step, e]; rfl) (by simpa using h')
  case equals =>
    obtain rfl := (Mark.of_eq_equals c).1 e
    have h' := InTag.beforeValue (t := m ++ [0x3D]) hu ⟨[], [], by simp, hm, .nil, .nil⟩
    exact advances_of_step (k := attrKey (keptName (b :: m))) rfl (by simpa using h')
  all_goals
    refine advances_of_step (k := none) (by simp only [Scanner.step, e]; rfl) ?_
    rw [keptName_snoc, List.append_assoc, List.cons_append]
    exact .attrName hu (hm.more (by rw [e]; rfl) (by simp [e]))

theorem afterAttr_advances (hu : BeforeByte n as u b) (hm : IsAttrName (b :: m))
    (hw : AllSpaces w) (hne : w ≠ []) (c : UInt8) :
    Advances (.afterAttr (.of (keptName n)) (.of (keptName (b :: m)))) (u ++ (b :: m ++ w)) c := by
  -- the name stands without a value, and what follows may start another
  have bare := hu.bare (w := w) (c := c) hm hw
  cases e : Mark.of c
  case greater =>
    obtain rfl := (Mark.of_eq_greater c).1 e
    exact advances_of_close (t := ⟨n, _⟩) (k := none) rfl
      (bare (by decide) (by decide) (absurd · hne)).close
  case slash =>
    exact advances_of_step (k := none) (by simp only [Scanner.step, e])
      (.beforeAttr ((bare (by simp [e]) (by simp [e]) (absurd · hne)).gap (.inr e)))
  case space =>
    have h' := InTag.afterAttr hu hm (hw.snoc e) (by simp)
    exact advances_of_step (k := none) (by simp only [Scanner.step, e]; rfl)
      (by simpa using h')
  case equals =>
    obtain rfl := (Mark.of_eq_equals c).1 e
    have h' := InTag.beforeValue (t := m ++ w ++ [0x3D]) hu ⟨w, [], by simp, hm, hw, .nil⟩
    exact advances_of_step (k := none) rfl (by simpa using h')
  all_goals
    exact advances_of_step (k := none) (by simp only [Scanner.step, e]; rfl)
      (.attrName (m := []) (bare (by simp [e]) (by simp [e]) (absurd · hne))
        (.first (by rw [e]; rfl)))

theorem beforeValue_advances (hu : BeforeByte n as u b) (ht : Assigns (b :: m) (b :: t))
    (c : UInt8) :
    Advances (.beforeValue (.of (keptName n)) (.of (keptName (b :: m)))) (u ++ b :: t) c := by
  cases e : Mark.of c
  case quote =>
    have h' := InTag.quoted (v := []) (w := []) hu ht e (List.not_mem_nil)
    exact advances_of_step (k := none) (by simp only [Scanner.step, e]; rfl)
      (by simpa using h')
  case greater =>
    obtain rfl := (Mark.of_eq_greater c).1 e
    have h' := hu [_] (t ++ [0x3E]) (.missing ht)
    exact advances_of_close (t := ⟨n, _⟩) (k := none) rfl (by simpa using h')
  case space =>
    obtain ⟨w, w', ht, hm, hw, hw'⟩ := ht
    have h' := InTag.beforeValue (t := t ++ [c]) hu
      ⟨w, w' ++ [c], by rw [← List.cons_append, ht]; simp, hm, hw, hw'.snoc e⟩
    exact advances_of_step (k := none) (by simp only [Scanner.step, e]; rfl)
      (by simpa using h')
  all_goals
    have h' := InTag.plain (w := (valueByte (.of (keptName (b :: m))) [] c).1) hu ht
      (.first (b := c) (by simp [e]) (by simp [e]) (by simp [e]))
    exact advances_of_step (k := none) (by simp only [Scanner.step, e]; rfl)
      (by simpa using h')

theorem quoted_advances {q : UInt8} (hu : BeforeByte n as u b) (ht : Assigns (b :: m) (b :: t))
    (hq : Mark.of q = .quote) (hv : q ∉ v) (word : Bytes) (c : UInt8) :
    Advances (.quoted (.of (keptName n)) (.of (keptName (b :: m))) q word)
      (u ++ (b :: t ++ q :: v)) c := by
  by_cases e : c = q
  · subst e
    exact advances_of_step (by simp only [Scanner.step, if_true]; rfl)
      (.beforeAttr (hu.quoted ht hq hv))
  · have h' := InTag.quoted (v := v ++ [c]) (q := q)
      (w := (valueByte (.of (keptName (b :: m))) word c).1) hu ht hq
      (by simpa [hv] using Ne.symm e)
    exact advances_of_step (by simp only [Scanner.step, if_neg e]; rfl) (by simpa using h')

theorem plain_advances (hu : BeforeByte n as u b) (ht : Assigns (b :: m) (b :: t))
    (hv : IsPlainValue v) (word : Bytes) (c : UInt8) :
    Advances (.unquoted (.of (keptName n)) (.of (keptName (b :: m))) word)
      (u ++ (b :: t ++ v)) c := by
  cases e : Mark.of c
  case greater =>
    obtain rfl := (Mark.of_eq_greater c).1 e
    exact advances_of_close (t := ⟨n, _⟩) rfl (hu.plain ht hv (.inr e)).close
  case space =>
    exact advances_of_step (by simp only [Scanner.step, e]; rfl)
      (.beforeAttr ((hu.plain ht hv (.inl e)).gap (.inl e)))
  all_goals
    have h' := InTag.plain (w := (valueByte (.of (keptName (b :: m))) word c).1) hu ht
      (hv.more (b := c) (by simp [e]) (by simp [e]))
    exact advances_of_step (k := none) (by simp only [Scanner.step, e]; rfl)
      (by simpa using h')

/-- Any byte ends a start tag or stays within it. -/
theorem InTag.step (h : InTag s u) (c : UInt8) : Advances s u c := by
  cases h with
  | tagName hn => exact tagName_advances hn c
  | beforeAttr hu => exact beforeAttr_advances hu c
  | attrName hu hm => exact attrName_advances hu hm c
  | afterAttr hu hm hw hne => exact afterAttr_advances hu hm hw hne c
  | beforeValue hu ht => exact beforeValue_advances hu ht c
  | quoted hu ht hq hv => exact quoted_advances hu ht hq hv _ c
  | plain hu ht hv => exact plain_advances hu ht hv _ c

/-! ### Items and the start of one more -/

/-- Behind `x`, a stretch of items that starts with `<` makes items that have `ts` in front. -/
def BeforeItem (ts : List Tag) (x : Bytes) : Prop :=
  ∀ ts' s, Items ts' (0x3C :: s) → Items (ts ++ ts') (x ++ 0x3C :: s)

/-- `x` is whole items but for a `>`, with any bytes before that. -/
def OpenEnded (ts : List Tag) (x : Bytes) : Prop :=
  ∀ u, 0x3E ∉ u → Items ts (x ++ u ++ [0x3E])

theorem Items.beforeItem {ts : List Tag} {x : Bytes} (h : Items ts x) : BeforeItem ts x :=
  fun _ _ h' => h.append h'

theorem BeforeItem.again {ts : List Tag} {x : Bytes} (h : BeforeItem ts x) :
    BeforeItem ts (x ++ [0x3C]) := by
  intro ts' s hs
  have h' := h ts' _ (.again hs)
  simpa using h'

/-- An item without start tags stands behind `x`. -/
theorem BeforeItem.items {ts : List Tag} {x s : Bytes} (h : BeforeItem ts x)
    (hs : Items [] (0x3C :: s)) : Items ts (x ++ 0x3C :: s) := by
  have h' := h [] s hs
  rwa [List.append_nil] at h'

/-- A start tag stands behind `x`. -/
theorem BeforeItem.startTag {ts : List Tag} {t : Tag} {x u : Bytes} (h : BeforeItem ts x)
    (hu : StartTag t u) (hk : t.kind ≠ .script) : Items (ts ++ [t]) (x ++ u) := by
  have hitem := Items.startTag hu hk .nil
  rw [List.append_nil] at hitem
  cases hu with
  | intro hn hb hs => exact h _ _ hitem

/-- A script stands behind `x`. -/
theorem BeforeItem.script {ts : List Tag} {t : Tag} {x u k e : Bytes} (h : BeforeItem ts x)
    (hu : StartTag t u) (hk : t.kind = .script) (hc : Lacks scriptName .closing k)
    (he : ScriptEnd e) : Items (ts ++ [t]) (x ++ u ++ k ++ e) := by
  have hitem := Items.script hu hk hc he .nil
  rw [List.append_nil] at hitem
  cases hu with
  | intro hn hb hs => simpa using h _ _ hitem

/-- `m` is whole items and the start of one more, up to where the state of the scanner says. -/
inductive Partly : Scanner → (m : Bytes) → Prop where
  | text {ts : List Tag} {m : Bytes} : Items ts m → Partly .text m
  | tagOpen {ts : List Tag} {x : Bytes} : BeforeItem ts x → Partly .tagOpen (x ++ [0x3C])
  | tag {ts : List Tag} {s : Scanner} {x u : Bytes} :
      BeforeItem ts x → InTag s u → Partly s (x ++ u)
  | endTag {ts : List Tag} {x u : Bytes} : OpenEnded ts x → 0x3E ∉ u → Partly .endTag (x ++ u)
  | bogus {ts : List Tag} {x u : Bytes} : OpenEnded ts x → 0x3E ∉ u → Partly .bogus (x ++ u)
  | declaration {ts : List Tag} {x : Bytes} :
      BeforeItem ts x → Partly .declaration (x ++ [0x3C, 0x21])
  | declarationDash {ts : List Tag} {x : Bytes} :
      BeforeItem ts x → Partly .declarationDash (x ++ [0x3C, 0x21, 0x2D])
  | comment {ts : List Tag} {x c : Bytes} :
      BeforeItem ts x → IsCommentBody c →
        Partly (commentState c) (x ++ 0x3C :: 0x21 :: 0x2D :: 0x2D :: c)
  | script {ts : List Tag} {t : Tag} {x u c : Bytes} :
      BeforeItem ts x → StartTag t u → t.kind = .script → Lacks scriptName .closing c →
        Partly (.script (Matcher.idle.run scriptName c).1) (x ++ u ++ c)

/-! ### Comments -/

theorem IsCommentBody.nil : IsCommentBody [] :=
  ⟨by decide, by decide, by decide⟩

/-- A byte goes on with a comment unless it is a `>` where one ends. -/
theorem IsCommentBody.snoc {c : Bytes} (h : IsCommentBody c)
    (hb : b = 0x3E → c ≠ [] ∧ c ≠ [0x2D] ∧ ∀ e, c ≠ e ++ [0x2D, 0x2D]) :
    IsCommentBody (c ++ [b]) := by
  refine ⟨fun h' => ?_, fun h' => ?_, fun h' => ?_⟩
  · rcases List.infix_concat_iff.1 h' with ⟨e, he⟩ | h'
    · rw [commentEnd, show [0x2D, 0x2D, 0x3E] = [(0x2D : UInt8), 0x2D] ++ [0x3E] from rfl,
        ← List.append_assoc] at he
      obtain ⟨hc, hlast⟩ := List.append_inj' he rfl
      exact (hb (List.singleton_inj.1 hlast).symm).2.2 e hc.symm
    · exact h.noEnd h'
  · rcases List.prefix_concat_iff.1 h' with he | h'
    · have he' : [] ++ [0x3E] = c ++ [b] := he
      obtain ⟨hc, hlast⟩ := List.append_inj' he' rfl
      exact (hb (List.singleton_inj.1 hlast).symm).1 hc.symm
    · exact h.noGreater h'
  · rcases List.prefix_concat_iff.1 h' with he | h'
    · have he' : [0x2D] ++ [0x3E] = c ++ [b] := he
      obtain ⟨hc, hlast⟩ := List.append_inj' he' rfl
      exact (hb (List.singleton_inj.1 hlast).symm).2.1 hc.symm
    · exact h.noDashGreater h'

/-- A byte goes on with a comment or ends it. -/
theorem IsCommentBody.step {c : Bytes} (h : IsCommentBody c) (b : UInt8) :
    IsCommentBody (c ++ [b]) ∨
      (Comment (c ++ [b]) ∧ (commentState c).step b = (.text, {})) := by
  by_cases hb : b = 0x3E
  · subst hb
    by_cases h₀ : c = []
    · subst h₀
      exact .inr ⟨.short, rfl⟩
    by_cases h₁ : c = [0x2D]
    · subst h₁
      exact .inr ⟨.shortDash, rfl⟩
    by_cases h₂ : 2 ≤ trailing c
    · obtain ⟨e, rfl⟩ := commentEnd_of_trailing h₂
      refine .inr ⟨by simpa [commentEnd] using Comment.long h, ?_⟩
      simp only [commentState, if_neg h₀, if_neg h₁]
      exact congrArg (Prod.mk · _) (if_pos h₂)
    · refine .inl (h.snoc fun _ => ⟨h₀, h₁, fun e he => h₂ ?_⟩)
      rw [he, List.append_cons, trailing_snoc, trailing_snoc, if_pos rfl, if_pos rfl]
      omega
  · exact .inl (h.snoc fun e => absurd e hb)

/-! ### A byte of markup -/

/-- `m` is a start tag behind what may stand before an item. -/
def EndsWithTag (kind : TagKind) (m : Bytes) : Prop :=
  ∃ ts t x u, m = x ++ u ∧ BeforeItem ts x ∧ StartTag t u ∧ t.kind = kind

/-- A byte `c` behind `m`, read in state `s`, goes on with the items or starts one more. -/
def Proceeds (s : Scanner) (m : Bytes) (c : UInt8) : Prop :=
  Partly (s.step c).1 (m ++ [c]) ∧
    ((s.step c).2.opensStyle = true → EndsWithTag .style (m ++ [c]))

variable {ts : List Tag} {x k : Bytes}

theorem proceeds_of_step {s' : Scanner} (h : s.step c = (s', {}))
    (ht : Partly s' (m ++ [c])) : Proceeds s m c := by
  rw [Proceeds, h]
  exact ⟨ht, fun h => nomatch h⟩

theorem proceeds_of_close {t : Tag} {key : Option Text} (hx : BeforeItem ts x)
    (h : s.step c = closeTag t.kind key) (ht : StartTag t (u ++ [c])) :
    Proceeds s (x ++ u) c := by
  rw [Proceeds, h, List.append_assoc]
  cases hk : t.kind with
  | style =>
      exact ⟨.text (hx.startTag ht (by simp [hk])), fun _ => ⟨ts, t, x, _, rfl, hx, ht, hk⟩⟩
  | script =>
      have h := Partly.script hx ht hk (lacks_nil _ _)
      rw [List.append_nil] at h
      exact ⟨h, fun h => nomatch h⟩
  | other => exact ⟨.text (hx.startTag ht (by simp [hk])), fun h => nomatch h⟩

theorem tagOpen_proceeds (hx : BeforeItem ts x) (c : UInt8) :
    Proceeds .tagOpen (x ++ [0x3C]) c := by
  cases e : Mark.of c
  case slash =>
    obtain rfl := (Mark.of_eq_slash c).1 e
    have h : OpenEnded ts (x ++ [0x3C, 0x2F]) := fun u hu => by
      simpa using hx.items (.endTag hu .nil)
    exact proceeds_of_step rfl (by simpa using Partly.endTag h (List.not_mem_nil))
  case bang =>
    obtain rfl := (Mark.of_eq_bang c).1 e
    exact proceeds_of_step rfl (by simpa using Partly.declaration hx)
  case question =>
    obtain rfl := (Mark.of_eq_question c).1 e
    have h : OpenEnded ts (x ++ [0x3C, 0x3F]) := fun u hu => by
      simpa using hx.items (.instruction hu .nil)
    exact proceeds_of_step rfl (by simpa using Partly.bogus h (List.not_mem_nil))
  case less =>
    obtain rfl := (Mark.of_eq_less c).1 e
    exact proceeds_of_step rfl (.tagOpen hx.again)
  case letter =>
    have h := Partly.tag hx (.tagName (.letter e))
    have hstep : Scanner.tagOpen.step c = (.tagName (keptName [c]), {}) := by
      simp only [Scanner.step, e, keptName_singleton]
    exact proceeds_of_step hstep (by simpa using h)
  all_goals
    have h := hx.items (.stray (b := c) (by simp [e]) (by simp [e]) (by simp [e]) (by simp [e])
      (by simp [e]) .nil)
    exact proceeds_of_step (by simp only [Scanner.step, e])
      (.text (by simpa using h))

/-- An end tag, a processing instruction or a declaration goes on up to a `>`. -/
theorem openEnded_proceeds (hs : s = .endTag ∨ s = .bogus) (hx : OpenEnded ts x)
    (hu : 0x3E ∉ u) (c : UInt8) : Proceeds s (x ++ u) c := by
  by_cases hc : c = 0x3E
  · subst hc
    have h := Partly.text (hx u hu)
    rcases hs with rfl | rfl
    all_goals exact proceeds_of_step rfl h
  · have hu' : 0x3E ∉ u ++ [c] := by simpa [hu] using Ne.symm hc
    rcases hs with rfl | rfl
    · exact proceeds_of_step
        (by simp only [Scanner.step, if_neg (ne_greater hc)]; rfl)
        (by simpa using Partly.endTag hx hu')
    · exact proceeds_of_step
        (by simp only [Scanner.step, if_neg (ne_greater hc)]; rfl)
        (by simpa using Partly.bogus hx hu')

/-- Behind `<!` and perhaps a dash. -/
theorem declaration_proceeds {dash : Bytes}
    (hs : s = .declaration ∧ dash = [] ∨ s = .declarationDash ∧ dash = [0x2D])
    (hx : BeforeItem ts x) (c : UInt8) : Proceeds s (x ++ 0x3C :: 0x21 :: dash) c := by
  have hdash : 0x3E ∉ dash := by
    rcases hs with ⟨-, rfl⟩ | ⟨-, rfl⟩ <;> decide
  by_cases hc : c = 0x3E
  · subst hc
    have h := hx.items (.declaration hdash (by rcases hs with ⟨-, rfl⟩ | ⟨-, rfl⟩ <;> decide) .nil)
    rcases hs with ⟨rfl, rfl⟩ | ⟨rfl, rfl⟩
    all_goals exact proceeds_of_step rfl (.text (by simpa using h))
  by_cases hd : c = 0x2D
  · subst hd
    rcases hs with ⟨rfl, rfl⟩ | ⟨rfl, rfl⟩
    · exact proceeds_of_step rfl (by simpa using Partly.declarationDash hx)
    · have hstep : Scanner.declarationDash.step 0x2D = (commentState [], {}) := rfl
      exact proceeds_of_step hstep (by simpa using Partly.comment hx .nil)
  · -- no comment starts here any more
    have hpre (u : Bytes) : ¬ [0x2D, 0x2D] <+: dash ++ c :: u := by
      rcases hs with ⟨-, rfl⟩ | ⟨-, rfl⟩ <;> simp [Ne.symm hd]
    have hopen : OpenEnded ts (x ++ 0x3C :: 0x21 :: dash ++ [c]) := fun u hu => by
      have hmem : 0x3E ∉ dash ++ c :: u := by simpa [hdash, hu] using Ne.symm hc
      simpa using hx.items (.declaration hmem (hpre u) .nil)
    have h := Partly.bogus hopen (List.not_mem_nil)
    rw [List.append_nil] at h
    have hstep : s.step c = (.bogus, {}) := by
      have hg := ne_greater hc
      have hd' : Mark.of c ≠ .dash := fun e => hd ((Mark.of_eq_dash c).1 e)
      rcases hs with ⟨rfl, -⟩ | ⟨rfl, -⟩
      all_goals simp only [Scanner.step]
    exact proceeds_of_step hstep h

theorem script_proceeds {t : Tag} (hx : BeforeItem ts x) (hu : StartTag t u)
    (hk : t.kind = .script) (hc : Lacks scriptName .closing k) (c : UInt8) :
    Proceeds (.script (Matcher.idle.run scriptName k).1) (x ++ u ++ k) c := by
  by_cases hfound : (Matcher.step scriptName (Matcher.idle.run scriptName k).1 c).2 =
      .found .closing
  · obtain ⟨hstep, b, ⟨a, rfl⟩, hb⟩ := Matcher.boundary_of_find hfound
    have ha := hc.part (List.prefix_append a b).isInfix
    by_cases hg : c = 0x3E
    · subst hg
      have h := hx.script hu hk ha (.short hb)
      exact proceeds_of_step (by simp only [Scanner.step, hstep]; rfl)
        (.text (by simpa using h))
    · have hopen : OpenEnded (ts ++ [t]) (x ++ u ++ (a ++ b) ++ [c]) := fun v hv => by
        simpa using hx.script hu hk ha (.long hb hg hv)
      have h := Partly.endTag hopen (List.not_mem_nil)
      rw [List.append_nil] at h
      exact proceeds_of_step
        (by simp only [Scanner.step, hstep, if_neg (ne_greater hg)]) h
  · have h := Partly.script hx hu hk (Matcher.lacks_snoc scriptName_isWord hc hfound)
    rw [Matcher.run_snoc, ← List.append_assoc] at h
    exact proceeds_of_step (script_step hfound) h

theorem Partly.step (h : Partly s m) (c : UInt8) : Proceeds s m c := by
  cases h with
  | text hm =>
      by_cases hc : c = 0x3C
      · subst hc
        exact proceeds_of_step rfl (.tagOpen hm.beforeItem)
      · have hless : Mark.of c ≠ .less := fun e => hc ((Mark.of_eq_less c).1 e)
        have h := hm.append (.char hless .nil)
        exact proceeds_of_step (by simp only [Scanner.step, if_neg hless])
          (.text h)
  | tagOpen hx => exact tagOpen_proceeds hx c
  | tag hx hu =>
      rcases hu.step c with ⟨t, key, hstep, ht⟩ | ⟨hin, hopens⟩
      · exact proceeds_of_close hx hstep ht
      · rw [Proceeds, List.append_assoc]
        exact ⟨.tag hx hin, fun h => absurd (hopens.symm.trans h) Bool.false_ne_true⟩
  | endTag hx hu => exact openEnded_proceeds (.inl rfl) hx hu c
  | bogus hx hu => exact openEnded_proceeds (.inr rfl) hx hu c
  | declaration hx => exact declaration_proceeds (.inl ⟨rfl, rfl⟩) hx c
  | declarationDash hx => exact declaration_proceeds (.inr ⟨rfl, rfl⟩) hx c
  | comment hx hk =>
      rcases hk.step c with hk' | ⟨hend, hstep⟩
      · exact proceeds_of_step (commentState_step hk')
          (by simpa using Partly.comment hx hk')
      · have h := hx.items (.comment hend .nil)
        exact proceeds_of_step hstep (.text (by simpa using h))
  | script hx hu hk hc => exact script_proceeds hx hu hk hc c

theorem partly_run (m : Bytes) : Partly (Scanner.text.run m).1 m := by
  induction m using List.reverseRecOn with
  | nil => exact .text .nil
  | append_singleton m c ih =>
      rw [run_snoc]
      exact (ih.step c).1

/-! ### Whole items -/

/-- Markup that leaves the scanner between tags is whole items. -/
theorem items_of_run {m : Bytes} (h : (Scanner.text.run m).1 = .text) : ∃ ts, Items ts m := by
  have hm := partly_run m
  rw [h] at hm
  generalize hs : Scanner.text = s at hm
  cases hm with
  | text hm => exact ⟨_, hm⟩
  | tag hx hu => cases hs; cases hu
  | @comment ts x c hx hc =>
      unfold commentState at hs
      split at hs
      · cases hs
      · split at hs <;> cases hs
  | tagOpen | endTag | bogus | declaration | declarationDash | script => cases hs

/-! ### Markup that ends with a style tag -/

/-- Where the scanner sees a style tag end, there is one behind what may stand before an item. -/
theorem endsWithTag_of_opens {m : Bytes} (h : Scanner.text.Opens m) : EndsWithTag .style m := by
  obtain ⟨a, b, rfl, -, hb⟩ := h
  exact ((partly_run a).step b).2 hb

theorem EndsWithTag.append {kind : TagKind} {ts : List Tag} {a m : Bytes}
    (h : EndsWithTag kind m) (ha : Items ts a) : EndsWithTag kind (a ++ m) := by
  obtain ⟨ts', t, x, u, rfl, hx, hu, hkind⟩ := h
  refine ⟨ts ++ ts', t, a ++ x, u, (List.append_assoc ..).symm, fun ts'' s hs => ?_, hu, hkind⟩
  rw [List.append_assoc, List.append_assoc]
  exact ha.append (hx ts'' s hs)

/-- Without a `>` only the start of a tag, or none, leads between tags. -/
theorem step_between {s : Scanner} {b : UInt8} (hb : Mark.of b ≠ .greater)
    (h : (s.step b).1 = .text ∨ (s.step b).1 = .tagOpen) : s = .text ∨ s = .tagOpen := by
  cases s with
  | text => exact .inl rfl
  | tagOpen => exact .inr rfl
  | endTag | bogus => simp [Scanner.step, hb] at h
  | tagName | beforeAttr | attrName | afterAttr | beforeValue | unquoted | declaration
  | declarationDash | comment =>
      simp only [Scanner.step] at h
      split at h
      all_goals simp_all
  | commentStart dash =>
      simp only [Scanner.step] at h
      split at h
      case h_2 => cases dash <;> simp at h
      all_goals simp_all
  | quoted tag attr quote word =>
      simp only [Scanner.step] at h
      split at h
      all_goals simp at h
  | script k =>
      simp only [Scanner.step] at h
      split at h
      all_goals simp [hb] at h

/-- Before an item the scanner is between tags, but for a `<`. -/
theorem BeforeItem.run {ts : List Tag} {x : Bytes} (h : BeforeItem ts x) :
    (Scanner.text.run x).1 = .text ∨ (Scanner.text.run x).1 = .tagOpen := by
  -- a `<` that starts nothing is an item, and leads nowhere from within a tag
  have hstray : Items [] [0x3C, 0x20] :=
    .stray (by decide) (by decide) (by decide) (by decide) (by decide) .nil
  have hrun := (h.items hstray).run.1
  rw [run_append] at hrun
  exact step_between (by decide) (step_between (by decide) (.inl hrun))

/-- The scanner sees a style tag end where there is one. -/
theorem EndsWithTag.opensStyle {m : Bytes} (h : EndsWithTag .style m) :
    ∃ a b, m = a ++ [b] ∧ ((Scanner.text.run a).1.step b).2.opensStyle = true := by
  obtain ⟨ts, t, x, u, rfl, hx, hu, hkind⟩ := h
  have hopens := hu.ends.opens
  rw [if_pos hkind, opens_iff] at hopens
  have hsame : (Scanner.text.run x).1.run u = Scanner.text.run u := by
    cases hu with
    | intro hn hb hs =>
        rcases hx.run with e | e
        · rw [e]
        · rw [e]
          rfl
  rw [← hsame, ← opens_iff] at hopens
  obtain ⟨a, b, rfl, -, hb⟩ := hopens
  exact ⟨x ++ a, b, (List.append_assoc ..).symm, by rwa [run_append]⟩

/-- Markup is stretches that each end with the first style tag in them, and a last one without. -/
theorem exists_stretches (m : Bytes) :
    ∃ (ms : List Bytes) (rest : Bytes), m = ms.flatten ++ rest ∧ (∀ x ∈ ms, Scanner.text.Opens x) ∧
      Scanner.text.Silent rest ∧ (Scanner.text.run m).1 = (Scanner.text.run rest).1 := by
  induction m using List.reverseRecOn with
  | nil => exact ⟨[], [], rfl, fun _ h => (nomatch h), fun _ h => (nomatch h), rfl⟩
  | append_singleton m c ih =>
      obtain ⟨ms, rest, rfl, hms, hrest, hstate⟩ := ih
      have hrun : (Scanner.text.run (ms.flatten ++ rest ++ [c])).1 =
          (Scanner.text.run (rest ++ [c])).1 := by
        rw [run_snoc, run_snoc, hstate]
      cases hc : ((Scanner.text.run rest).1.step c).2.opensStyle with
      | false =>
          exact ⟨ms, rest ++ [c], List.append_assoc .., hms, silent_snoc.2 ⟨hrest, hc⟩, hrun⟩
      | true =>
          have hopens : Scanner.text.Opens (rest ++ [c]) := ⟨rest, c, rfl, hrest, hc⟩
          refine ⟨ms ++ [rest ++ [c]], [], by simp, ?_, fun _ h => (nomatch h),
            hrun.trans hopens.text⟩
          intro x hx
          rcases List.mem_append.1 hx with hx | hx
          · exact hms x hx
          · exact List.mem_singleton.1 hx ▸ hopens

/-- Markup that ends with a style tag is stretches that each end with the first one in them. -/
theorem EndsWithTag.stretches {m : Bytes} (h : EndsWithTag .style m) :
    ∃ (ms : List Bytes) (x : Bytes), m = (ms ++ [x]).flatten ∧
      ∀ y ∈ ms ++ [x], Scanner.text.Opens y := by
  obtain ⟨a, b, rfl, hb⟩ := h.opensStyle
  obtain ⟨ms, rest, rfl, hms, hrest, hstate⟩ := exists_stretches a
  rw [hstate] at hb
  refine ⟨ms, rest ++ [b], by simp, fun y hy => ?_⟩
  rcases List.mem_append.1 hy with hy | hy
  · exact hms y hy
  · exact List.mem_singleton.1 hy ▸ ⟨rest, b, rfl, hrest, hb⟩

end StyleSieve.Markup
