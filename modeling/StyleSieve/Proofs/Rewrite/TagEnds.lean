import StyleSieve.Proofs.Markup.TagEnd
import StyleSieve.Proofs.Rewrite.Again

/-!
# Where the style tags of a region end

A style tag that joins a region is dropped by a rewriter, not scanned.  Both look for a `>` outside
quotes, but the rewriter takes any quote for one that opens a value, and the scanner only one that
stands where a value starts.

* `Progress.joins_iff`: where a tag ends that joins a region.
* `joins_iff_opens`: it ends where it would open a region, if and only if no `>` of it is
  in quotes for the one and not for the other; a tag whose quotes all open values is such a tag.
* `joins_differs`: a quote in the name of an attribute.
-/

namespace StyleSieve.Rewrite

open Markup (Boundary Mark Matcher Scanner Side styleName styleName_isWord)

/-! ### Within a tag -/

theorem tagByte_eq_none_iff {quote : Option UInt8} {b : UInt8} :
    tagByte quote b = none ↔ quote = none ∧ b = 0x3E := by
  refine ⟨tagByte_none, ?_⟩
  rintro ⟨rfl, rfl⟩
  rfl

/-- The quote that is open is read off the bytes. -/
theorem inside_iff {quote : Option UInt8} {u : Bytes} :
    Inside quote u ↔ u.foldlM tagByte none = some quote := by
  constructor
  · intro h
    induction h with
    | start => rfl
    | @plain u b _ hquote hgreater ih =>
        rw [List.foldlM_append, ih]
        simp [tagByte]
    | opened _ hquote ih =>
        rw [List.foldlM_append, ih]
        simp [tagByte, hquote]
    | within _ hne ih =>
        rw [List.foldlM_append, ih]
        simp [tagByte, hne]
    | closed _ ih =>
        rw [List.foldlM_append, ih]
        simp [tagByte]
  · induction u using List.reverseRecOn generalizing quote with
    | nil =>
        rintro ⟨⟩
        exact .start
    | append_singleton u b ih =>
        intro h
        rw [List.foldlM_append] at h
        obtain ⟨quote', hu, hb⟩ := Option.bind_eq_some_iff.1 h
        exact (ih hu).tagByte (by simpa using hb)

theorem inside_snoc {quote : Option UInt8} {u : Bytes} {b : UInt8} :
    Inside quote (u ++ [b]) ↔ ∃ quote', Inside quote' u ∧ tagByte quote' b = some quote := by
  simp only [inside_iff, List.foldlM_append, List.foldlM_cons, List.foldlM_nil, bind_pure]
  exact Option.bind_eq_some_iff

theorem Inside.unique {quote quote' : Option UInt8} {u : Bytes} (h : Inside quote u)
    (h' : Inside quote' u) : quote = quote' :=
  Option.some.inj ((inside_iff.1 h).symm.trans (inside_iff.1 h'))

theorem Inside.part {quote : Option UInt8} {v w : Bytes} (h : Inside quote (v ++ w)) :
    ∃ quote', Inside quote' v := by
  rw [inside_iff, List.foldlM_append] at h
  obtain ⟨quote', hv, -⟩ := Option.bind_eq_some_iff.1 h
  exact ⟨quote', inside_iff.2 hv⟩

/-- One more byte stays within the tag, but for a `>` outside quotes. -/
theorem exists_inside_snoc {u : Bytes} {b : UInt8} :
    (∃ quote, Inside quote (u ++ [b])) ↔ ∃ quote, Inside quote u ∧ ¬ (quote = none ∧ b = 0x3E) := by
  simp only [inside_snoc, ← tagByte_eq_none_iff, ← ne_eq, Option.ne_none_iff_exists']
  exact ⟨fun ⟨q, q', h, e⟩ => ⟨q', h, q, e⟩, fun ⟨q', h, q, e⟩ => ⟨q, q', h, e⟩⟩

/-- Bytes stay within a tag, or a part of them ends it. -/
theorem inside_or_ends (u : Bytes) :
    (∃ quote, Inside quote u) ∨ ∃ v w, u = v ++ [0x3E] ++ w ∧ Inside none v := by
  induction u using List.reverseRecOn with
  | nil => exact .inl ⟨none, .start⟩
  | append_singleton u b ih =>
      rcases ih with ⟨quote, h⟩ | ⟨v, w, rfl, h⟩
      · by_cases hend : quote = none ∧ b = 0x3E
        · obtain ⟨rfl, rfl⟩ := hend
          exact .inr ⟨u, [], (List.append_nil _).symm, h⟩
        · exact .inl (exists_inside_snoc.2 ⟨quote, h, hend⟩)
      · exact .inr ⟨v, w ++ [b], List.append_assoc .., h⟩

/-! ### A tag that joins a region -/

/-- A style tag that starts here would join a region in which `depth` elements are open. -/
inductive Receives : Mode → (depth : Nat) → Prop where
  | content {depth : Nat} {k : Matcher} {t : Bytes} :
      k.Holds styleName t → Receives (.region depth k) depth
  | behind {latest : Bytes} {room : Nat} : Receives (.gap latest room .idle) 0

namespace Progress

variable {supply : Supply} {options : Options} {p : Progress} {depth : Nat} {n u : Bytes}
  {b : UInt8}

/-- Wherever a page has come in the content of a region, a style tag would join. -/
theorem run_receives {page : Bytes} {k : Matcher} (hp : (run supply options {} page).1 = p)
    (h : p.mode = .region depth k) : Receives p.mode depth := by
  subst hp
  obtain ⟨xs, m, d, held, hreads⟩ := run_reads (reads_start supply options) page
  have hstands := hreads.stands
  rw [h] at hstands ⊢
  cases hstands with
  | @region _ _ _ _ c _ _ hk _ =>
      obtain ⟨t, -, ht⟩ := Matcher.holds_run styleName c
      exact .content (hk ▸ ht)

variable (supply options) in
/-- After `bytes` one style element more than `depth` is open, and the tag of it has ended. -/
def HasJoined (p : Progress) (depth : Nat) (bytes : Bytes) : Prop :=
  ∃ k, (p.run supply options bytes).1.mode = .region (depth + 1) k

variable (supply options) in
/-- A style tag that joins the region ends with the last of `bytes`, and none before. -/
def Joins (p : Progress) (depth : Nat) (bytes : Bytes) : Prop :=
  p.HasJoined supply options depth bytes ∧
    ∀ a, a <+: bytes → p.HasJoined supply options depth a → a = bytes

/-- What a match goes on with is held back behind a region. -/
theorem run_grows {latest : Bytes} {room : Nat} {k : Matcher} {bytes : Bytes}
    (h : k.Grows styleName bytes) :
    { p with mode := .gap latest room k }.run supply options bytes =
      ({ p with mode := .gap (bytes.reverse ++ latest) room (k.run styleName bytes).1 }, []) := by
  induction bytes generalizing latest k with
  | nil => rfl
  | cons b bytes ih =>
      obtain ⟨hb, h⟩ := Matcher.grows_cons.1 h
      have hstep : { p with mode := .gap latest room k }.step supply options b =
          ({ p with mode := .gap (b :: latest) room (k.step styleName b).1 }, []) := by
        have hspace : (k = .idle && Mark.of b = .space) = false := by
          rw [← Bool.not_eq_true]
          intro e
          obtain ⟨rfl, hspace⟩ : k = .idle ∧ Mark.of b = .space := by simpa using e
          simp [Matcher.step, hspace] at hb
        have hk : k.step styleName b = ((k.step styleName b).1, .growing) := Prod.ext rfl hb
        simp only [step, gapByte, hspace, Bool.false_eq_true, if_false]
        rw [hk]
      simp only [run, hstep, ih h, Matcher.run, List.reverse_cons, List.append_assoc,
        List.singleton_append, List.append_nil]

/-- Content without a style tag leaves as many elements open. -/
theorem not_hasJoined_content {k : Matcher} {a : Bytes} (h : k.Silent styleName a) :
    ¬ { p with mode := .region depth k }.HasJoined supply options depth a := by
  rintro ⟨k', hk⟩
  rw [run_content h] at hk
  injection hk with hdepth
  omega

variable (supply options) in
/-- Behind its name a tag has not joined the region, unless the `>` stands there. -/
theorem run_name {mode : Mode} (h : Receives mode depth)
    (hn : Boundary styleName .opening (n ++ [b])) :
    (∀ a, a <+: n → ¬ { p with mode }.HasJoined supply options depth a) ∧
      ({ p with mode }.run supply options (n ++ [b])).1.mode =
        if b = 0x3E then .region (depth + 1) .idle else .regionTag (depth + 1) .opening none := by
  simp only [← Mark.of_eq_greater]
  cases h with
  | content hk =>
      obtain ⟨hsilent, hfound⟩ := Matcher.find_of_boundary styleName_isWord hk hn
      refine ⟨fun a ha => not_hasJoined_content (hsilent.part ha), ?_⟩
      rw [run_append, run_content hsilent, run_singleton]
      simp only [step, regionByte, hfound]
  | behind =>
      obtain ⟨m, c, e, hm, -⟩ := id hn
      obtain ⟨rfl, -⟩ := List.append_inj' e rfl
      have hgrows := Matcher.grows_head styleName_isWord .opening hm
      obtain ⟨hname, -⟩ := Matcher.run_head styleName_isWord .idle .opening hm
      obtain ⟨-, hfound⟩ := Matcher.find_of_boundary styleName_isWord .idle hn
      refine ⟨?_, ?_⟩
      · rintro a ha ⟨k, hk⟩
        rw [run_grows (hgrows.part ha)] at hk
        cases hk
      · rw [run_append, run_grows hgrows, run_singleton]
        rw [hname] at hfound
        simp only [step, gapByte, hname, hfound]
        rfl

variable (supply options) in
theorem run_inside {d : Nat} (side : Side) {quote : Option UInt8} (hu : Inside quote u) :
    { p with mode := .regionTag d side none }.run supply options u =
      ({ p with mode := .regionTag d side quote }, []) := by
  induction u using List.reverseRecOn generalizing quote with
  | nil =>
      obtain rfl := hu.unique .start
      rfl
  | append_singleton u b ih =>
      obtain ⟨q, hu, hb⟩ := inside_snoc.1 hu
      rw [run_append, ih hu, run_singleton]
      simp only [step, regionTagByte, hb, List.append_nil]

section

variable {v : Bytes} (h : Receives p.mode depth) (hn : Boundary styleName .opening (n ++ [b]))
  (hb : b ≠ 0x3E)

include h hn

/-- Behind a `>` that stands right behind its name a tag has joined the region. -/
theorem joins_name_iff (hb : b = 0x3E) :
    p.Joins supply options depth (n ++ [b] ++ u) ↔ u = [] := by
  obtain ⟨hbefore, hmode⟩ := run_name supply options (p := p) h hn
  rw [if_pos hb] at hmode
  refine ⟨fun hjoins => ?_, ?_⟩
  · have hall := hjoins.2 _ (List.prefix_append (n ++ [b]) u) ⟨_, hmode⟩
    exact List.append_right_eq_self.1 hall.symm
  · rintro rfl
    rw [List.append_nil]
    refine ⟨⟨_, hmode⟩, fun a ha hjoined => ?_⟩
    exact (List.prefix_concat_iff.1 ha).resolve_right fun ha => hbefore a ha hjoined

include hb

variable (supply options) in
theorem run_tag {quote : Option UInt8} (hv : Inside quote v) :
    ∃ q : Progress, (p.run supply options (n ++ [b] ++ v)).1 =
      { q with mode := .regionTag (depth + 1) .opening quote } := by
  obtain ⟨-, hmode⟩ := run_name supply options (p := p) h hn
  rw [if_neg hb] at hmode
  let q := (p.run supply options (n ++ [b])).1
  have hq : { q with mode := .regionTag (depth + 1) .opening none } = q := by rw [← hmode]
  have hrun := run_inside supply options (p := q) (d := depth + 1) .opening hv
  rw [hq] at hrun
  exact ⟨q, by rw [run_append]; exact congrArg Prod.fst hrun⟩

/-- Within its tag an element has not joined the region. -/
theorem not_hasJoined_tag {quote : Option UInt8} (hv : Inside quote v) :
    ¬ p.HasJoined supply options depth (n ++ [b] ++ v) := by
  rintro ⟨k, hk⟩
  obtain ⟨q, hq⟩ := run_tag supply options h hn hb hv
  rw [hq] at hk
  cases hk

/-- A `>` outside quotes ends the tag. -/
theorem hasJoined_tag (hv : Inside none v) :
    p.HasJoined supply options depth (n ++ [b] ++ (v ++ [0x3E])) := by
  obtain ⟨q, hq⟩ := run_tag supply options h hn hb hv
  refine ⟨.idle, ?_⟩
  rw [← List.append_assoc, run_append, hq, run_singleton]
  rfl

/-- **Where a tag ends that joins a region.**  At the first `>` that stands behind no quote but a
closed one. -/
theorem joins_iff :
    p.Joins supply options depth (n ++ [b] ++ u) ↔ ∃ v, u = v ++ [0x3E] ∧ Inside none v := by
  constructor
  · rintro ⟨hjoined, hfirst⟩
    rcases inside_or_ends u with ⟨quote, hu⟩ | ⟨v, w, rfl, hv⟩
    · exact absurd hjoined (not_hasJoined_tag h hn hb hu)
    · have hall := hfirst _ (by simp [← List.append_assoc]) (hasJoined_tag h hn hb hv)
      obtain rfl : w = [] := by simpa using hall
      exact ⟨v, List.append_nil _, hv⟩
  · rintro ⟨v, rfl, hv⟩
    refine ⟨hasJoined_tag h hn hb hv, fun a ha hjoined => ?_⟩
    rw [← List.append_assoc] at ha ⊢
    refine (List.prefix_concat_iff.1 ha).resolve_right fun ha => ?_
    rcases List.prefix_or_prefix_of_prefix ha (List.prefix_append (n ++ [b]) v) with
      hname | ⟨v', rfl⟩
    · rcases List.prefix_concat_iff.1 hname with rfl | hname
      · exact not_hasJoined_tag h hn hb .start (by rwa [List.append_nil])
      · exact (run_name supply options (p := p) h hn).1 a hname hjoined
    · obtain ⟨w, rfl⟩ := (List.prefix_append_right_inj _).1 ha
      obtain ⟨quote, hv'⟩ := hv.part
      exact not_hasJoined_tag h hn hb hv' hjoined

end

end Progress

/-! ### For a rewriter and for a scanner -/

/-- Behind `name` a `>` of `t` that both read in the tag stands in quotes for both or for none. -/
def QuotesAlike (name t : Bytes) : Prop :=
  ∀ v quote, v ++ [0x3E] <+: t → Inside quote v → Scanner.text.Silent (name ++ v) →
    (quote = none ↔ (Scanner.text.run (name ++ v)).1.quote? = none)

/-- Behind `name` each quote of `t` that stands in the tag starts a value, or stands in one that
starts with a quote. -/
def QuotesValues (name t : Bytes) : Prop :=
  ∀ v q, v ++ [q] <+: t → Mark.of q = .quote → Scanner.text.Silent (name ++ v) →
    (Scanner.text.run (name ++ v)).1.takesQuotes = true

/-- A byte in a tag opens or closes a quote for both, if it is no quote out of place. -/
theorem quote?_step {s : Scanner} {tag : Markup.TagKind} {b : UInt8} {quote : Option UInt8}
    (hs : s.tag? = some tag) (hplace : Mark.of b = .quote → s.takesQuotes = true)
    (hb : tagByte s.quote? b = some quote) : (s.step b).1.quote? = quote := by
  cases s with
  | beforeAttr | attrName | afterAttr | unquoted =>
      have hquote : Mark.of b ≠ .quote := fun e => by cases hplace e
      cases e : Mark.of b
      case quote => exact absurd e hquote
      case greater => simp [tagByte, Scanner.quote?, e] at hb
      all_goals
        obtain rfl : none = quote := by simpa [tagByte, Scanner.quote?, e] using hb
        simp [Scanner.step, Scanner.quote?, e]
  | beforeValue =>
      cases e : Mark.of b
      case greater => simp [tagByte, Scanner.quote?, e] at hb
      all_goals
        simp only [tagByte, Scanner.quote?, e, Option.some.injEq] at hb
        simp [Scanner.step, Scanner.quote?, e, ← hb]
  | quoted tag attr q word =>
      simp only [tagByte, Scanner.quote?, Option.some.injEq] at hb
      simp only [Scanner.step]
      split
      case isTrue e => simp [← hb, e, Scanner.quote?]
      case isFalse e => simp [← hb, e, Scanner.quote?]
  | text | tagOpen | endTag | tagName | declaration | declarationDash | commentStart | comment
  | bogus | script => cases hs

section

variable {n t v : Bytes} {b : UInt8} (hn : Boundary styleName .opening (n ++ [b])) (hb : b ≠ 0x3E)

include hn hb

/-- Up to the end of the tag both read it. -/
theorem QuotesAlike.inside_iff_silent (h : QuotesAlike (n ++ [b]) t) (hv : v <+: t) :
    (∃ quote, Inside quote v) ↔ Scanner.text.Silent (n ++ [b] ++ v) := by
  induction v using List.reverseRecOn with
  | nil =>
      rw [List.append_nil]
      exact ⟨fun _ => (Scanner.run_boundary_byte hn hb).1, fun _ => ⟨none, .start⟩⟩
  | append_singleton v x ih =>
      have ih := ih ((List.prefix_append v [x]).trans hv)
      have hquotes {quote : Option UInt8} (hx : x = 0x3E) (hin : Inside quote v)
          (hsilent : Scanner.text.Silent (n ++ [b] ++ v)) :=
        h v quote (hx ▸ hv) hin hsilent
      rw [exists_inside_snoc, ← List.append_assoc]
      constructor
      · rintro ⟨quote, hin, hne⟩
        have hsilent := ih.1 ⟨quote, hin⟩
        refine (Scanner.silent_snoc_iff (Scanner.tag?_of_silent hn hb hsilent)).2 ⟨hsilent, ?_⟩
        rintro ⟨hx, hquote⟩
        exact hne ⟨(hquotes hx hin hsilent).2 hquote, hx⟩
      · intro hsilent
        have hbefore := (Scanner.silent_snoc.1 hsilent).1
        have htag := Scanner.tag?_of_silent hn hb hbefore
        obtain ⟨quote, hin⟩ := ih.2 hbefore
        refine ⟨quote, hin, ?_⟩
        rintro ⟨hquote, hx⟩
        exact ((Scanner.silent_snoc_iff htag).1 hsilent).2
          ⟨hx, (hquotes hx hin hbefore).1 hquote⟩

/-- The tag ends for both where quotes are alike. -/
theorem quotesAlike_iff :
    (∀ v, v ++ [0x3E] <+: t → (Inside none v ↔ Scanner.text.Silent (n ++ [b] ++ v) ∧
      (Scanner.text.run (n ++ [b] ++ v)).1.quote? = none)) ↔ QuotesAlike (n ++ [b]) t := by
  constructor
  · intro h v quote hv hin hsilent
    constructor
    · rintro rfl
      exact ((h v hv).1 hin).2
    · intro hquote
      exact hin.unique ((h v hv).2 ⟨hsilent, hquote⟩)
  · intro h v hv
    have hinside := h.inside_iff_silent hn hb ((List.prefix_append v _).trans hv)
    constructor
    · intro hin
      have hsilent := hinside.1 ⟨none, hin⟩
      exact ⟨hsilent, (h v none hv hin hsilent).1 rfl⟩
    · rintro ⟨hsilent, hquote⟩
      obtain ⟨quote, hin⟩ := hinside.2 hsilent
      obtain rfl := (h v quote hv hin hsilent).2 hquote
      exact hin

/-- While quotes open values only, both have the same quote open. -/
theorem QuotesValues.quote?_eq (h : QuotesValues (n ++ [b]) t) (hv : v <+: t)
    {quote : Option UInt8} (hin : Inside quote v)
    (hsilent : Scanner.text.Silent (n ++ [b] ++ v)) :
    (Scanner.text.run (n ++ [b] ++ v)).1.quote? = quote := by
  induction v using List.reverseRecOn generalizing quote with
  | nil =>
      rw [List.append_nil, (Scanner.run_boundary_byte hn hb).2]
      exact Inside.start.unique hin
  | append_singleton v x ih =>
      rw [← List.append_assoc] at hsilent ⊢
      have hbefore := (Scanner.silent_snoc.1 hsilent).1
      obtain ⟨quote', hin, hbyte⟩ := inside_snoc.1 hin
      have ih := ih ((List.prefix_append v [x]).trans hv) hin hbefore
      rw [Scanner.run_snoc]
      exact quote?_step (Scanner.tag?_of_silent hn hb hbefore)
        (fun hx => h v x hv hx hbefore) (ih ▸ hbyte)

end

/-- **A style tag that joins a region ends where it would open one, if and only if quotes are
alike.**  In the content of a region, wherever a page has come to it, or behind a region, a style
tag stands with any bytes behind its name.  It ends there for a rewriter where it would end for a
scanner that read it in markup, if and only if no `>` up to there is in quotes for the one and not
for the other.  So it does where each quote in the tag starts a value, or stands in one that starts
with a quote. -/
theorem joins_iff_opens {supply : Supply} {options : Options} {p : Progress} {depth : Nat}
    {n : Bytes} {b : UInt8}
    (h : Receives p.mode depth ∨
      ∃ page k, (Progress.run supply options {} page).1 = p ∧ p.mode = .region depth k)
    (hn : Boundary styleName .opening (n ++ [b])) (t : Bytes) :
    ((∀ u, u <+: t → (p.Joins supply options depth (n ++ [b] ++ u) ↔
        Scanner.text.Opens (n ++ [b] ++ u))) ↔ QuotesAlike (n ++ [b]) t) ∧
      (QuotesValues (n ++ [b]) t → ∀ u, u <+: t →
        (p.Joins supply options depth (n ++ [b] ++ u) ↔ Scanner.text.Opens (n ++ [b] ++ u))) := by
  suffices hends : ((∀ u, u <+: t → (p.Joins supply options depth (n ++ [b] ++ u) ↔
      Scanner.text.Opens (n ++ [b] ++ u))) ↔ QuotesAlike (n ++ [b]) t) ∧
        (QuotesValues (n ++ [b]) t → QuotesAlike (n ++ [b]) t) from
    ⟨hends.1, fun hvalues => hends.1.2 (hends.2 hvalues)⟩
  have h : Receives p.mode depth := by
    rcases h with h | ⟨page, k, hpage, hmode⟩
    · exact h
    · exact Progress.run_receives hpage hmode
  by_cases hb : b = 0x3E
  · -- both end right behind the name
    have halike : QuotesAlike (n ++ [b]) t := by
      subst hb
      intro v quote _ _ hsilent
      have hopens := (Scanner.opens_name_iff (u := []) hn).2 rfl
      rw [List.append_nil, Scanner.opens_snoc] at hopens
      rw [Scanner.silent_append, Scanner.silent_snoc, hopens.2] at hsilent
      cases hsilent.1.2
    refine ⟨iff_of_true (fun u _ => ?_) halike, fun _ => halike⟩
    rw [Progress.joins_name_iff h hn hb]
    subst hb
    rw [Scanner.opens_name_iff hn]
  · refine ⟨?_, fun hvalues v quote hv hin hsilent => ?_⟩
    · simp only [← quotesAlike_iff hn hb, Progress.joins_iff h hn hb,
        Scanner.opens_boundary_iff hn hb]
      constructor
      · intro hends v hv
        simpa using hends (v ++ [0x3E]) hv
      · intro hends u hu
        exact exists_congr fun v => and_congr_right fun e => hends v (e ▸ hu)
    · rw [hvalues.quote?_eq hn hb ((List.prefix_append v _).trans hv) hin hsilent]

/-- A tag with a `>` in quotes joins a region behind a `>`, and ends there as well. -/
theorem joins_quoted :
    let p : Progress := { mode := .region 1 .less }
    let n := Utf8.encode "<STYLE".toList
    let t := Utf8.encode "a=\"x>'\">z".toList
    Receives p.mode 1 ∧ Boundary styleName .opening (n ++ [0x20]) ∧
      QuotesValues (n ++ [0x20]) t ∧ ∀ u, u <+: t →
        (p.Joins (Catalog.supply {}) {} 1 (n ++ [0x20] ++ u) ↔
          Scanner.text.Opens (n ++ [0x20] ++ u)) := by
  intro p n t
  have hreceives : Receives p.mode 1 := .content .less
  have hboundary : Boundary styleName .opening (n ++ [0x20]) :=
    ⟨n.tail, 0x20, rfl, by unfold Markup.SameName; decide, rfl⟩
  have hvalues : QuotesValues (n ++ [0x20]) t := by
    have hat : ∀ i : Fin t.length, Mark.of t[i] = .quote →
        (Scanner.text.run (n ++ [0x20] ++ t.take i)).1.takesQuotes = true := by decide +kernel
    rintro v q ⟨w, hw⟩ hq -
    have h := hat ⟨v.length, by simp [← hw]⟩
    simp only [← hw] at h
    simpa [hq] using h
  exact ⟨hreceives, hboundary, hvalues, (joins_iff_opens (.inl hreceives) hboundary t).2 hvalues⟩

/-- A quote in the name of an attribute.  A scanner ends the tag at the `>` behind it, and a
rewriter that drops the tag takes all that follows for a value. -/
theorem joins_differs :
    let supply := Catalog.supply {}
    let p : Progress := { mode := .region 1 .idle }
    let tag := Utf8.encode "<style a\">".toList
    let rest := Utf8.encode "x</style></style>ok".toList
    Receives p.mode 1 ∧ Scanner.text.Opens tag ∧ ¬ p.Joins supply {} 1 tag ∧
      (Rewriter.complete { supply } [tag ++ rest]).2 =
        tag ++ Utf8.encode "</style>ok".toList ∧
      (Rewriter.complete { supply } [Utf8.encode "<style>".toList ++ tag ++ rest]).2 =
        Utf8.encode "<style></style>".toList := by
  intro supply p tag rest
  have hreceives : Receives p.mode 1 := .content .idle
  have hopens : Scanner.text.Opens tag :=
    ⟨tag.dropLast, 0x3E, rfl, by unfold Scanner.Silent; decide +kernel, by decide +kernel⟩
  refine ⟨hreceives, hopens, ?_, by decide +kernel, by decide +kernel⟩
  rintro ⟨⟨k, hk⟩, -⟩
  cases hk

end StyleSieve.Rewrite
