import StyleSieve.Proofs.Catalog.Lenient
import StyleSieve.Proofs.Css.Closed
import StyleSieve.Proofs.Selector.Branches

/-!
# Files that do not touch each other

What is written of several files is one text.  If what is written of each file stands alone, the
text is read as the entries of the one file after those of the other.

* `noSpaceNext_render`: what is written of a source starts with no space.
* `entries_render`: what is written of some sources is read source by source.
* `entries_render_differs`: a string that the end of a source closes takes in the next source.
-/

namespace StyleSieve

namespace Stylesheet

open Css (Declaration Node NoSpaceNext Place)

/-! ### How lines start -/

theorem startsBare_globalText (name params : Text) : (globalText name params).StartsBare := by
  have hprefix : globalText name params <+: '@' :: (name ++ ' ' :: params) := Text.trimEnd_prefix _
  cases h : globalText name params with
  | nil =>
      -- not all of it is blank
      have hall : ∀ c ∈ ('@' :: (name ++ ' ' :: params)).reverse, Text.isBlank c = true :=
        List.dropWhile_eq_nil_iff.1 (List.reverse_eq_nil_iff.1 h)
      have hat := hall '@' (List.mem_reverse.2 List.mem_cons_self)
      cases hat
  | cons c rest =>
      rw [h] at hprefix
      obtain ⟨rfl, -⟩ := List.cons_prefix_cons.1 hprefix
      exact ⟨'@', rest, rfl, rfl⟩

mutual

theorem startsBare_statementsOf (file : Nat) (conditions : List Condition) :
    (n : Node) → ∀ u ∈ statementsOf file conditions n, u.isUsed = true → u.core.StartsBare
  | .declaration d => fun _ h => nomatch h
  | .rule selector declarations start stop => by
    intro u hu hused
    obtain rfl := List.mem_singleton.1 hu
    have hne : Selector.branches selector ≠ [] := by
      simpa [Statement.isUsed, Statement.rule] using hused
    obtain ⟨htrimmed, hjoin⟩ := Selector.join_branches hne
    rw [Statement.core, if_neg (by exact Bool.false_ne_true), labels_rule]
    exact (htrimmed.startsBare hjoin).append _
  | .atRule name params block children start stop => by
    intro u hu hused
    rw [statementsOf] at hu
    split at hu
    · exact startsBare_statementsIn file _ children u hu hused
    · obtain rfl := List.mem_singleton.1 hu
      exact (startsBare_globalText name params).append _

/-- A statement is written with no space in front. -/
theorem startsBare_statementsIn (file : Nat) (conditions : List Condition) :
    (nodes : List Node) → ∀ u ∈ statementsIn file conditions nodes, u.isUsed = true →
      u.core.StartsBare
  | [] => fun _ h => nomatch h
  | n :: nodes => by
    intro u hu
    rcases List.mem_append.1 hu with hu | hu
    · exact startsBare_statementsOf file conditions n u hu
    · exact startsBare_statementsIn file conditions nodes u hu

end

theorem startsBare_line {file : Nat} {css : Text} {u : Statement}
    (h : u ∈ Statement.ofText file css) : u.line.StartsBare := by
  obtain ⟨hmem, hused⟩ := List.mem_filter.1 h
  have hcore := startsBare_statementsIn file [] (Node.ofText css) u hmem hused
  rw [Statement.line, lineOf]
  cases u.conditions with
  | nil => exact hcore.append _
  | cons c conditions => exact ⟨'@', _, rfl, rfl⟩

/-- What is written of a source starts with no space. -/
theorem noSpaceNext_render {css : Text} (h : 2 * css.length < Location.limit) (file : Nat)
    (bodies : List BodyRef) (globals : Bool) :
    NoSpaceNext ((readLeniently file css).render (Catalog.isWanted bodies globals file)) := by
  rw [readLeniently_eq h, render_ofStatements (Statement.isUsed_ofText file css)]
  cases hlines : ((Statement.ofText file css).zipIdx 1).filter
      fun x => x.1.isWanted bodies globals ⟨file, x.2⟩ with
  | nil => rfl
  | cons x lines =>
      have hmem := (List.mem_filter.1 (hlines ▸ List.mem_cons_self)).1
      obtain ⟨c, rest, hline, hc⟩ := startsBare_line (List.fst_mem_of_mem_zipIdx hmem)
      rw [List.flatMap_cons, hline]
      simpa [NoSpaceNext] using hc

theorem entriesIn_flatMap {α : Type} (f : α → List Node) (l : List α) :
    entriesIn (l.flatMap f) = l.flatMap fun x => entriesIn (f x) := by
  induction l with
  | nil => rfl
  | cons x l ih => rw [List.flatMap_cons, List.flatMap_cons, entriesIn_append, ih]

end Stylesheet

/-! ### Several files -/

namespace Catalog

open Stylesheet (readLeniently)

/-- What is written of each of some sources taken alone. -/
def writtenAlone (sources : List (Text × Text)) (bodies : List BodyRef) (globals : Bool) :
    List Text :=
  sources.zipIdx.map fun x => (lenient [x.1]).render (alone x.2 bodies) globals

variable {sources : List (Text × Text)} {bodies : List BodyRef} {globals : Bool}

theorem render_eq_flatten (h : ∀ source ∈ sources, 2 * source.2.length < Location.limit)
    (bodies : List BodyRef) (globals : Bool) :
    (lenient sources).render bodies globals = (writtenAlone sources bodies globals).flatten := by
  rw [render_lenient, writtenAlone, ← List.flatMap_def]
  exact List.flatMap_congr fun x hx =>
    render_alone (h _ (List.fst_mem_of_mem_zipIdx hx)) x.2 bodies globals

/-- If what is written of each source stands alone, what is written of all is read as the entries of
the one after those of the other. -/
theorem entries_render
    (halone : ∀ t ∈ writtenAlone sources bodies globals, t = [] ∨ Css.standsAlone t = true)
    (hsources : ∀ source ∈ sources, 2 * source.2.length < Location.limit)
    (hwritten : 2 * ((lenient sources).render bodies globals).length < Location.limit)
    (skipInvalid : Bool) (file : Nat) :
    ofSources ⟨skipInvalid, true⟩ sources =
        (if sources.length ≤ fileLimit then .ok (lenient sources) else .error .tooManyFiles) ∧
      (readLeniently file ((lenient sources).render bodies globals)).entries =
        (writtenAlone sources bodies globals).flatMap fun t => (readLeniently file t).entries := by
  refine ⟨ofSources_lenient skipInvalid sources, ?_⟩
  have htext := render_eq_flatten hsources bodies globals
  have hspace : ∀ t ∈ writtenAlone sources bodies globals, Css.NoSpaceNext t := by
    intro t ht
    obtain ⟨x, hx, rfl⟩ := List.mem_map.1 ht
    have hsource := hsources _ (List.fst_mem_of_mem_zipIdx hx)
    rw [← render_alone hsource x.2]
    exact Stylesheet.noSpaceNext_render hsource x.2 bodies globals
  have hlength : ∀ t ∈ writtenAlone sources bodies globals, 2 * t.length < Location.limit := by
    intro t ht
    have hle := (List.sublist_flatten_of_mem ht).length_le
    rw [← htext] at hle
    omega
  rw [Stylesheet.entries_readLeniently hwritten, htext, ← Stylesheet.entriesIn_bareOf,
    Css.bareOf_ofText_flatten hspace halone, Stylesheet.entriesIn_flatMap]
  refine List.flatMap_congr fun t ht => ?_
  rw [Stylesheet.entriesIn_bareOf, Stylesheet.entries_readLeniently (hlength t ht)]

/-- A file whose last block is closed by its end, before another file. -/
theorem entries_render_unclosed :
    let sources := [("a.css".toList, "@media print \x7b .a \x7b color: red".toList),
      ("b.css".toList, ".b \x7b color: blue \x7d".toList)]
    let written := (lenient sources).render [⟨0, 1⟩, ⟨1, 1⟩] true
    (∀ t ∈ writtenAlone sources [⟨0, 1⟩, ⟨1, 1⟩] true, t = [] ∨ Css.standsAlone t = true) ∧
      (readLeniently 0 written).entries =
        (writtenAlone sources [⟨0, 1⟩, ⟨1, 1⟩] true).flatMap fun t =>
          (readLeniently 0 t).entries := by
  intro sources written
  have halone : ∀ t ∈ writtenAlone sources [⟨0, 1⟩, ⟨1, 1⟩] true,
      t = [] ∨ Css.standsAlone t = true := by decide +kernel
  exact ⟨halone, (entries_render halone (by decide +kernel) (by decide +kernel) false 0).2⟩

/-- A string that the end of a file closes is written without its end, and takes in the next
file. -/
theorem entries_render_differs :
    let sources := [("a.css".toList, ".a \x7b color: \"x".toList),
      ("b.css".toList, ".b \x7b color: red \x7d".toList)]
    let written := (lenient sources).render [⟨0, 1⟩, ⟨1, 1⟩] true
    (readLeniently 0 written).entries ≠
      (writtenAlone sources [⟨0, 1⟩, ⟨1, 1⟩] true).flatMap fun t =>
        (readLeniently 0 t).entries := by
  decide +kernel

end Catalog

end StyleSieve
