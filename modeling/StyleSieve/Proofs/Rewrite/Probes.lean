import StyleSieve.Proofs.Rewrite.Alike
import StyleSieve.Proofs.Usage

/-!
# Pages that tell options apart

A page of stretches that each open a region, which is closed at once (`probe`), is rewritten stretch
by stretch.  Between two regions that could be one stand spaces (`spaced`): where they are held back
one region is written, else two.

* `Progress.run_probe`: a page of stretches.
* `complete_held`, `complete_parted`: two style elements with spaces between.
-/

namespace StyleSieve.Rewrite

open Markup (Mark Scanner)

namespace Progress

variable {supply : Supply} {o : Options} {p : Progress}

/-! ### Pages of stretches -/

theorem note_cons (usage : Usage) (x : Markup.Sighting) (xs : List Markup.Sighting) :
    note usage (x :: xs) = note (note usage [x]) xs := by
  simp only [note, Usage.insertAll, List.filterMap_cons, List.filterMap_nil]
  cases x.key <;> rfl

/-- Markup in which no region opens goes out as it stands. -/
theorem run_silent {s : Scanner} {m : Bytes} (hm : s.Silent m) :
    { p with mode := .markup s }.run supply o m =
      ({ p with mode := .markup (s.run m).1, usage := note p.usage (s.run m).2 }, m) := by
  induction m generalizing s p with
  | nil => rfl
  | cons b m ih =>
      obtain ⟨hb, hm⟩ := Scanner.silent_append (a := [b]).1 hm
      let next : Progress := { p with usage := note p.usage [(s.step b).2] }
      have hstep : step supply o { p with mode := .markup s } b =
          ({ next with mode := .markup (s.step b).1 }, [b]) := by
        simp only [step, markupByte, hb (s.step b).2 (by simp [Scanner.run])]
        rfl
      rw [run, hstep, Scanner.run, note_cons]
      simp only [ih (p := next) (s := (s.step b).1) hm]
      rfl

/-- The stretches of markup that open a region go out as they stand. -/
theorem run_opens {m : Bytes} (hm : Scanner.text.Opens m) :
    { p with mode := .markup .text }.run supply o m =
      ({ p with mode := .region 1 .idle, usage := noteAll p.usage m }, m) := by
  obtain ⟨a, b, rfl, ha, hb⟩ := hm
  rw [run_append, run_silent ha, run_singleton]
  simp only [step, markupByte, hb, if_true, noteAll, note, Scanner.run_snoc, List.filterMap_append,
    Usage.insertAll, List.foldl_append]

/-- The end tag of a region is dropped. -/
theorem run_styleEnd :
    { p with mode := .region 1 .idle }.run supply o styleEnd =
      ({ p with mode := afterRegion o }, []) := rfl

/-- A byte of text right behind a region closes it. -/
theorem run_afterRegion :
    { p with mode := afterRegion o }.run supply o [0x78] =
      ((p.closeRegion supply o).1, (p.closeRegion supply o).2 ++ [0x78]) := by
  rw [run_singleton]
  rfl

/-- What is left of a page of stretches that each open a region. -/
def probe (ms : List Bytes) : Bytes := ms.flatMap fun m => m ++ (styleEnd ++ [0x78])

theorem probe_append (ms ms' : List Bytes) : probe (ms ++ ms') = probe ms ++ probe ms' :=
  List.flatMap_append

/-- A stretch that opens a region is followed by the CSS for the keys up to there. -/
theorem run_stretch (hp : p.mode = .markup .text) {m : Bytes} (hm : Scanner.text.Opens m) :
    p.run supply o (probe [m]) =
      (({ p with usage := noteAll p.usage m }.closeRegion supply o).1,
        m ++ (Utf8.encode ({ p with usage := noteAll p.usage m }.regionCss supply o) ++
          (styleEnd ++ [0x78]))) := by
  let q : Progress := { p with usage := noteAll p.usage m }
  have hopen : p.run supply o m = ({ q with mode := .region 1 .idle }, m) := by
    have h : { p with mode := .markup .text }.run supply o m = _ := run_opens hm
    rwa [← hp] at h
  rw [probe, List.flatMap_singleton, run_append, hopen, run_append, run_styleEnd (p := q)]
  simp only [run_afterRegion (p := q), closeRegion_snd, List.nil_append, List.append_assoc]
  rfl

variable (supply o) in
theorem run_probe (hp : p.mode = .markup .text) {ms : List Bytes}
    (hms : ∀ m ∈ ms, Scanner.text.Opens m) :
    (p.run supply o (probe ms)).1.mode = .markup .text ∧
      (p.run supply o (probe ms)).1.usage = noteAll p.usage ms.flatten := by
  induction ms generalizing p with
  | nil => exact ⟨hp, rfl⟩
  | cons m ms ih =>
      obtain ⟨hm, hms⟩ := List.forall_mem_cons.1 hms
      rw [show m :: ms = [m] ++ ms from rfl, probe_append, run_append, run_stretch hp hm]
      obtain ⟨hmode, husage⟩ :=
        ih (p := ({ p with usage := noteAll p.usage m }.closeRegion supply o).1) rfl hms
      refine ⟨hmode, husage.trans ?_⟩
      rw [List.flatten_append, List.flatten_singleton, noteAll_append _ hm.text]
      rfl

/-! ### The same region again -/

/-- Nothing is fresh when all of it has been written just before. -/
theorem fresh_again (emitted refs : List BodyRef) :
    fresh (emitted ++ fresh emitted refs) refs = [] := by
  refine List.eq_nil_iff_forall_not_mem.2 fun r hr => ?_
  obtain ⟨hmem, hnew⟩ := mem_fresh.1 hr
  rw [List.mem_append, not_or, mem_fresh] at hnew
  exact hnew.2 ⟨hmem, hnew.1⟩

variable (supply o) in
/-- The CSS of a region behind one with the same keys. -/
def againCss (usage : Usage) : Text :=
  if o.dedupe then supply.render [] false else supply.render (supply.select usage) true

theorem regionCss_again (p : Progress) :
    (p.closeRegion supply o).1.regionCss supply o = againCss supply o p.usage := by
  unfold againCss
  split
  case isTrue e => simp [regionCss, closeRegion, e, fresh_again]
  case isFalse e => simp [regionCss, closeRegion, e]

/-! ### Two style elements with spaces between -/

/-- `<style>`. -/
def styleStart : Bytes := Utf8.encode "<style>".toList

/-- A style element. -/
def element : Bytes := styleStart ++ styleEnd

/-- Two style elements with `k` spaces between. -/
def spaced (k : Nat) : Bytes := element ++ (List.replicate k 0x20 ++ element)

theorem styleStart_opens : Scanner.text.Opens styleStart :=
  Scanner.opens_iff.2 ⟨6, by decide⟩

variable (supply o p) in
/-- Spaces are held back where there is room for them. -/
theorem run_spaces {w : Bytes} (hw : Markup.AllSpaces w) (latest : Bytes) (room : Nat) :
    { p with mode := .gap latest (room + w.length) .idle }.run supply o w =
      ({ p with mode := .gap (w.reverse ++ latest) room .idle }, []) := by
  induction w generalizing latest with
  | nil => rfl
  | cons b w ih =>
      obtain ⟨hb, hw⟩ := List.forall_mem_cons.1 hw
      have hstep : step supply o { p with mode := .gap latest (room + (b :: w).length) .idle } b =
          ({ p with mode := .gap (b :: latest) (room + w.length) .idle }, []) := by
        simp only [step, gapByte, hb, List.length_cons]
        rfl
      rw [run, hstep]
      simp only [ih hw, List.nil_append]
      rw [List.reverse_cons, List.append_assoc]
      rfl

theorem allSpaces_replicate (k : Nat) : Markup.AllSpaces (List.replicate k 0x20) :=
  fun _ hb => List.eq_of_mem_replicate hb ▸ rfl

/-- A style tag behind held spaces joins the region. -/
theorem run_join {latest : Bytes} {room : Nat} :
    { p with mode := .gap latest room .idle }.run supply o element =
      ({ p.merge with mode := afterRegion o }, []) := rfl

/-- A style element opens a region and ends it. -/
theorem run_element :
    { p with mode := .markup .text }.run supply o element =
      ({ p with mode := afterRegion o, usage := noteAll p.usage styleStart }, styleStart) := by
  rw [element, run_append, run_opens styleStart_opens,
    run_styleEnd (p := { p with usage := noteAll p.usage styleStart }), List.append_nil]

variable (supply p) in
/-- Where all spaces are held back, they are dropped with the next style element. -/
theorem run_spaced {k : Nat} (hk : k ≤ o.maxLookback) :
    ∃ q, q.mode = afterRegion o ∧ q.regionCss supply o = p.regionCss supply o ∧
      { p with mode := afterRegion o }.run supply o (List.replicate k 0x20 ++ element) =
        (q, []) := by
  obtain ⟨room, hroom⟩ := Nat.exists_eq_add_of_le' hk
  refine ⟨{ p.merge with mode := afterRegion o }, rfl, rfl, ?_⟩
  have hspaces := run_spaces supply o p (allSpaces_replicate k) [] room
  rw [List.length_replicate] at hspaces
  rw [afterRegion, hroom, run_append, hspaces, run_join]
  simp only [afterRegion, hroom, List.append_nil]

variable (supply o p) in
/-- One space more than can be held closes the region. -/
theorem run_parted :
    ∃ rest, ({ p with mode := afterRegion o }.run supply o
      (List.replicate (o.maxLookback + 1) 0x20)).2 =
        Utf8.encode (p.regionCss supply o) ++ styleEnd ++ 0x20 :: rest := by
  refine ⟨List.replicate o.maxLookback 0x20, ?_⟩
  have hspaces := run_spaces supply o p (allSpaces_replicate o.maxLookback) [] 0
  rw [List.length_replicate, Nat.zero_add, List.reverse_replicate] at hspaces
  rw [List.replicate_succ', run_append, afterRegion, hspaces, run_singleton]
  have hrelease : ({ p with
        mode := .gap (List.replicate o.maxLookback 0x20 ++ []) 0 .idle }.step supply o 0x20).2 =
      (p.closeRegion supply o).2 ++
        (0x20 :: (List.replicate o.maxLookback 0x20 ++ [])).reverse := rfl
  rw [hrelease, closeRegion_snd, List.append_nil, ← List.replicate_succ, List.reverse_replicate,
    List.replicate_succ, List.nil_append]

end Progress

/-- The CSS of a page that is style elements only. -/
def elementCss (supply : Supply) (o : Options) : Text :=
  Progress.regionCss supply o { usage := Progress.noteAll .empty Progress.styleStart }

open Progress

variable (supply : Supply) (o : Options)

/-- Where the last stretch of a page stands once more, its region is written once more. -/
theorem complete_again {ms : List Bytes} {m : Bytes}
    (h : ∀ x ∈ ms ++ [m], Scanner.text.Opens x) :
    (Rewriter.complete { supply, options := o } [probe (ms ++ [m] ++ [m])]).2 =
      (Rewriter.complete { supply, options := o } [probe (ms ++ [m])]).2 ++
        (m ++ (Utf8.encode (againCss supply o (noteAll .empty (ms ++ [m]).flatten)) ++
          (styleEnd ++ [0x78]))) := by
  have hm := h m (by simp)
  obtain ⟨hmode, husage⟩ := run_probe supply o (p := {}) rfl
    fun x hx => h x (List.mem_append_left _ hx)
  generalize hq : (Progress.run supply o {} (probe ms)).1 = q at hmode husage
  -- behind the last stretch its keys have been seen
  let q₁ : Progress := { q with usage := noteAll q.usage m }
  have hlast : Progress.run supply o {} (probe (ms ++ [m])) = ((q₁.closeRegion supply o).1,
      (Progress.run supply o {} (probe ms)).2 ++
        (m ++ (Utf8.encode (q₁.regionCss supply o) ++ (styleEnd ++ [0x78])))) := by
    rw [probe_append, run_append, hq, run_stretch hmode hm]
  -- once more it brings no new key
  have hagain : { (q₁.closeRegion supply o).1 with
      usage := noteAll (q₁.closeRegion supply o).1.usage m } = (q₁.closeRegion supply o).1 := by
    have h : noteAll q₁.usage m = q₁.usage := Usage.insertAll_insertAll q.usage _
    show { (q₁.closeRegion supply o).1 with usage := noteAll q₁.usage m } = _
    rw [h]
    rfl
  have hkeys : q₁.usage = noteAll .empty (ms ++ [m]).flatten := by
    have hrun := Scanner.run_stretches fun x hx => h x (List.mem_append_left _ hx)
    rw [List.flatten_append, List.flatten_singleton, noteAll_append _ hrun, ← husage]
  rw [(Rewriter.complete_atEnd supply o _).1, (Rewriter.complete_atEnd supply o _).1,
    List.flatten_singleton, List.flatten_singleton, probe_append (ms ++ [m]), run_append, hlast,
    run_stretch rfl hm, hagain, regionCss_again, hkeys]
  simp [atEnd, closeRegion]

theorem complete_element :
    (Rewriter.complete { supply, options := o } [element]).2 =
      styleStart ++ (Utf8.encode (elementCss supply o) ++ styleEnd) := by
  rw [(Rewriter.complete_atEnd supply o [element]).1, List.flatten_singleton,
    run_element (p := {})]
  simp only [atEnd, afterRegion, closeRegion_snd, List.reverse_nil, List.append_nil]
  rfl

variable {o}

/-- Where the spaces are held back, two style elements are written as one. -/
theorem complete_held {k : Nat} (hk : k ≤ o.maxLookback) :
    (Rewriter.complete { supply, options := o } [spaced k]).2 =
      (Rewriter.complete { supply, options := o } [element]).2 := by
  obtain ⟨q, hmode, hcss, hrun⟩ :=
    run_spaced supply { usage := noteAll .empty styleStart } hk
  rw [complete_element, (Rewriter.complete_atEnd supply o [spaced k]).1, List.flatten_singleton,
    spaced, run_append, run_element (p := {}), hrun]
  simp only [atEnd, hmode, afterRegion, closeRegion_snd, hcss, List.reverse_nil, List.append_nil]
  rfl

/-- Where one space is too many, more is written. -/
theorem complete_parted :
    ∃ b rest, (Rewriter.complete { supply, options := o } [spaced (o.maxLookback + 1)]).2 =
      (Rewriter.complete { supply, options := o } [element]).2 ++ b :: rest := by
  obtain ⟨rest, hrun⟩ := run_parted supply o { usage := noteAll .empty styleStart }
  rw [complete_element, (Rewriter.complete_atEnd supply o [spaced _]).1, List.flatten_singleton,
    spaced, run_append, run_element (p := {}), run_append, hrun]
  exact ⟨0x20, _, by simp [elementCss]; rfl⟩

end StyleSieve.Rewrite
