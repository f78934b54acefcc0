import StyleSieve.Engine.Basic
import StyleSieve.Proofs.Catalog.Render
import StyleSieve.Proofs.Rewrite.Probes
import StyleSieve.Proofs.Transfer.Pipe

/-!
# The ways to serve a page agree

In pieces, to a writer and from a reader to a sink a page is rewritten with the settings of the
engine; a page that is rewritten whole is not.

* `rewrite_agrees`: the first three ways always agree, and whole pages agree with them for which
  settings and styles.
-/

namespace StyleSieve.Engine

open Markup (EndsWithTag)
open Rewrite (Options Rewriter)
open Rewrite.Progress
open Transfer (Outlet Reply Sink Supplied)
open Utf8 (IsText)

variable {e : Engine}

/-- The ways that follow the settings deliver `bytes` for a page, whatever pieces it comes in. -/
structure Serves (e : Engine) (page bytes : Bytes) : Prop where
  inPieces (pieces : List Bytes) (h : pieces.flatten = page) :
    (e.rewriter.complete pieces).2 = bytes
  /-- What comes to a good end has been delivered, and with a calm sink it does. -/
  toWriter (sink : Sink Reply) (pieces : List Bytes) (h : pieces.flatten = page) :
    (∀ stats, ((e.writer sink).writePage pieces).2 = .ok stats →
      ((e.writer sink).writePage pieces).1.sink.received = sink.received ++ bytes) ∧
    (sink.Calm → ∃ stats, ((e.writer sink).writePage pieces).2 = .ok stats)
  fromReader (outlet : Outlet) (supplied : List Supplied) (h : Supplied.page supplied = page) :
    (∀ stats, (e.pipe outlet supplied).2 = .done stats →
      (e.pipe outlet supplied).1.received = outlet.received ++ bytes) ∧
    (outlet.Calm → (∀ s ∈ supplied, s.Calm) → ∃ stats, (e.pipe outlet supplied).2 = .done stats)

/-- What the settings make of a page. -/
def served (e : Engine) (page : Bytes) : Bytes := (e.rewriter.complete [page]).2

/-- No text that ends with a style tag names keys for which there is CSS. -/
def NeverStyles (e : Engine) : Prop :=
  ∀ t : Text, EndsWithTag .style (Utf8.encode t) →
    e.catalog.critical (noteAll .empty (Utf8.encode t)) = []

/-! ### The ways that follow the settings -/

theorem serves_served (e : Engine) (page : Bytes) : e.Serves page (e.served page) where
  inPieces pieces h := by rw [Rewriter.complete_flatten, h, served]
  toWriter sink pieces h := by
    refine ⟨fun stats hstats => ?_, fun hcalm => Transfer.Writer.writePage_calm hcalm pieces⟩
    have start : Transfer.Writer.Delivers e.rewriter sink.received [] (e.writer sink) :=
      ⟨by rw [Rewriter.push_nil]; rfl, by rw [Rewriter.push_nil]; rfl⟩
    have hreceived := (Transfer.Writer.writePage_ok start hstats).1
    rwa [List.nil_append, h] at hreceived
  fromReader outlet supplied h := by
    refine ⟨fun stats hstats => ?_, fun houtlet hsupplied => ?_⟩
    · have hreceived := (Transfer.pipe_done hstats).1
      rwa [Transfer.page_readings, h] at hreceived
    · exact Transfer.pipe_calm houtlet (Transfer.readings_calm hsupplied _) _

/-- There is only one thing that the settings can make of a page. -/
theorem serves_iff {page bytes : Bytes} : e.Serves page bytes ↔ e.served page = bytes := by
  constructor
  · intro h
    exact h.inPieces [page] (List.flatten_singleton)
  · rintro rfl
    exact e.serves_served page

/-! ### Whole pages -/

theorem encode_rewrite (e : Engine) (html : Text) :
    Utf8.encode (e.rewrite html) =
      (Rewriter.complete { supply := e.catalog.supply } [Utf8.encode html]).2 :=
  Rewrite.encode_document e.catalog.supply html

variable {supply : Supply} {o o' : Options}

/-- Two options make the same of every page in text. -/
def SamePages (supply : Supply) (o o' : Options) : Prop :=
  ∀ page, IsText page → (Rewriter.complete { supply, options := o } [page]).2 =
    (Rewriter.complete { supply, options := o' } [page]).2

theorem isText_styleEnd : IsText Rewrite.styleEnd := Utf8.isText_encode _

theorem isText_element : IsText element := (Utf8.isText_encode _).append isText_styleEnd

theorem isText_spaced (k : Nat) : IsText (spaced k) := by
  have hspaces : IsText (List.replicate k [0x20]).flatten :=
    .flatten fun x hx => ⟨[' '], List.eq_of_mem_replicate hx⟩
  rw [List.flatten_replicate_singleton] at hspaces
  exact isText_element.append (hspaces.append isText_element)

theorem isText_probe {ms : List Bytes} (h : ∀ m ∈ ms, IsText m) : IsText (probe ms) :=
  .flatMap fun m hm => (h m hm).append (isText_styleEnd.append ⟨['x'], rfl⟩)

/-- Of options that make the same of every page none holds back more than the other. -/
theorem SamePages.lookback_le (h : SamePages supply o o') : o'.maxLookback ≤ o.maxLookback := by
  by_contra hlt
  have hheld := Rewrite.complete_held supply (o := o') (k := o.maxLookback + 1) (by omega)
  obtain ⟨b, rest, hparted⟩ := Rewrite.complete_parted supply (o := o)
  rw [h _ (isText_spaced _), h _ isText_element, hheld] at hparted
  simp at hparted

/-- Of options that make the same of every page both repeat the CSS of a region, or none does. -/
theorem SamePages.againCss (h : SamePages supply o o') {t : Text}
    (ht : EndsWithTag .style (Utf8.encode t)) :
    Rewrite.Progress.againCss supply o (noteAll .empty (Utf8.encode t)) =
      Rewrite.Progress.againCss supply o' (noteAll .empty (Utf8.encode t)) := by
  obtain ⟨ms, m, hflat, hopens⟩ := ht.stretches
  -- each stretch ends with a `>`, so each is a text
  have htext : ∀ x ∈ ms ++ [m], IsText x := by
    refine Rewrite.isText_of_stretches (fun x hx => ?_) (hflat ▸ Utf8.isText_encode t)
    exact (Markup.endsWithTag_of_opens (hopens x hx)).endsInGreater
  have hm := htext m (by simp)
  have hpage := isText_probe htext
  have hagain : IsText (probe (ms ++ [m] ++ [m])) := by
    rw [probe_append]
    exact hpage.append (isText_probe (by simpa using hm))
  have hsame := h _ hagain
  rw [Rewrite.complete_again supply o hopens, Rewrite.complete_again supply o' hopens,
    h _ hpage, ← hflat] at hsame
  exact Utf8.encode_inj.1 (List.append_cancel_right (List.append_cancel_left
    (List.append_cancel_left hsame)))

/-- Options that hold back as much make the same of every page if where they differ there is no
CSS. -/
theorem samePages_of_neverStyles (ho : o.maxLookback = ({} : Options).maxLookback)
    (hstyles : o.dedupe = true → e.NeverStyles) : SamePages e.catalog.supply o {} := by
  rintro page ⟨html, rfl⟩
  refine Rewrite.complete_alike ho (fun p q t hpq ht husage => ?_) html
  cases hd : o.dedupe with
  | false => simp [regionCss, hd, hpq.usage]
  | true =>
      have hnone : e.catalog.render (e.catalog.select p.usage) true = [] :=
        husage ▸ hstyles hd t ht
      simp only [regionCss, hd, hpq.usage, Bool.false_and, Bool.not_false, if_true]
      rw [if_neg (by decide)]
      exact hnone.trans (Catalog.render_eq_nil hnone (fun r hr => (mem_fresh.1 hr).1) _).symm

/-- **Which engines serve whole pages like others.**  In pieces, to a writer and from a reader to a
sink every engine delivers the same bytes.  These are the bytes of all pages that are rewritten
whole if and only if the settings hold back 1024 bytes and, where they write each body once only,
there is no CSS to write. -/
theorem rewrite_agrees (e : Engine) :
    (∀ page, e.Serves page (e.served page)) ∧
      ((∀ html : Text, e.Serves (Utf8.encode html) (Utf8.encode (e.rewrite html))) ↔
        e.settings.rewriting.maxLookback = 1024 ∧
          (e.settings.rewriting.dedupe = true → e.NeverStyles)) := by
  refine ⟨e.serves_served, ?_⟩
  have hsame : (∀ html : Text, e.Serves (Utf8.encode html) (Utf8.encode (e.rewrite html))) ↔
      SamePages e.catalog.supply e.settings.rewriting {} := by
    simp only [serves_iff, encode_rewrite]
    constructor
    · rintro h page ⟨html, rfl⟩
      exact h html
    · exact fun h html => h _ (Utf8.isText_encode html)
  rw [hsame]
  constructor
  · intro h
    have h' : SamePages e.catalog.supply {} e.settings.rewriting := fun page hp => (h page hp).symm
    refine ⟨Nat.le_antisymm h'.lookback_le h.lookback_le, fun hd t ht => ?_⟩
    have hagain := h.againCss ht
    simp only [Rewrite.Progress.againCss, hd, if_true] at hagain
    rw [if_neg (by decide)] at hagain
    exact hagain.symm.trans (Catalog.render_nil e.catalog)
  · rintro ⟨ho, hstyles⟩
    exact samePages_of_neverStyles ho hstyles

/-- An engine that holds nothing back serves two style elements one by one, but a whole page has
them as one. -/
theorem rewrite_differs :
    let e : Engine := { settings := { rewriting := { maxLookback := 0 } } }
    let html := "<style></style> <style></style>".toList
    ¬ e.Serves (Utf8.encode html) (Utf8.encode (e.rewrite html)) := by
  intro e html
  rw [serves_iff]
  decide

end StyleSieve.Engine
