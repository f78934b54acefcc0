import StyleSieve.Proofs.Catalog.Lenient
import StyleSieve.Proofs.Stylesheet.Written

/-!
# Styles that are written and read again

If all that is written of a source is sealed, the text that is written for all its bodies is read as
the same branches, with the same bodies.

* `render_lenient_all`: all statements of a source, line by line.
* `reads_render`: what is written of a source is read back.
* `reads_render_differs`: an escape in a property is not written, and the declaration is lost.
-/

namespace StyleSieve

/-- The same branches, and the same in their bodies; only places may differ. -/
def Stylesheet.SameStyles (s t : Stylesheet) : Prop :=
  s.branches = t.branches ∧ s.bodies.map Body.said = t.bodies.map Body.said

instance (s t : Stylesheet) : Decidable (s.SameStyles t) :=
  inferInstanceAs (Decidable (_ ∧ _))

namespace Catalog

open Css (Node)
open Stylesheet (Statement areSealed readLeniently)

variable {name css : Text} {bodies : List BodyRef}

/-- With all its bodies a source is written statement by statement. -/
theorem render_lenient_all (hcss : 2 * css.length < Location.limit)
    (hbodies : ∀ b ∈ (readLeniently 0 css).bodies, ⟨0, b.id⟩ ∈ bodies) :
    (lenient [(name, css)]).render bodies true =
      (Statement.ofText 0 css).flatMap Statement.line := by
  rw [Stylesheet.readLeniently_eq hcss] at hbodies
  rw [render_lenient_singleton, Stylesheet.readLeniently_eq hcss,
    Stylesheet.render_ofStatements (Statement.isUsed_ofText 0 css)]
  have hwanted : ∀ x ∈ (Statement.ofText 0 css).zipIdx 1,
      x.1.isWanted bodies true ⟨0, x.2⟩ = true := by
    intro x hx
    have hbody : (⟨0, x.2⟩ : BodyRef) ∈ bodies := hbodies _ (List.mem_map_of_mem hx)
    unfold Statement.isWanted
    split
    · rfl
    · exact List.contains_iff_mem.2 hbody
  rw [List.filter_eq_self.2 hwanted, ← List.flatMap_map, List.zipIdx_map_fst]

/-- What is written of a source for all its bodies is read as the same styles. -/
theorem reads_render (hsealed : areSealed (.sheet true) (Node.ofText css) = true)
    (hcss : 2 * css.length < Location.limit)
    (hbodies : ∀ b ∈ (readLeniently 0 css).bodies, ⟨0, b.id⟩ ∈ bodies)
    (hwritten : 2 * ((lenient [(name, css)]).render bodies true).length < Location.limit)
    (skipInvalid : Bool) (file : Nat) :
    ofSources ⟨skipInvalid, true⟩ [(name, css)] = .ok (lenient [(name, css)]) ∧
      (readLeniently file ((lenient [(name, css)]).render bodies true)).SameStyles
        (readLeniently 0 css) := by
  have hlength : [(name, css)].length ≤ fileLimit := Nat.le_of_ble_eq_true rfl
  refine ⟨by rw [ofSources_lenient, if_pos hlength], ?_⟩
  have hentries : (Statement.ofText file ((lenient [(name, css)]).render bodies true)).map
      Statement.entry = (Statement.ofText 0 css).map Statement.entry := by
    rw [Stylesheet.entries_ofText, render_lenient_all hcss hbodies]
    exact Stylesheet.entriesIn_lines (Statement.isUsed_ofText 0 css)
      (Stylesheet.says_ofText hsealed 0)
  rw [Stylesheet.readLeniently_eq hwritten, Stylesheet.readLeniently_eq hcss]
  exact Stylesheet.ofStatements_alike hentries

/-- A sheet with conditions, a block that is written as it stands, and a custom property. -/
theorem reads_render_print :
    let css := ("@media print \x7b .a, .b > p \x7b --w: 2px; color: red \x7d \x7d\n" ++
      "@font-face \x7b src: url(a;b) \x7d").toList
    let written := (lenient [("a.css".toList, css)]).render [⟨0, 1⟩, ⟨0, 2⟩] true
    areSealed (.sheet true) (Node.ofText css) = true ∧
      (readLeniently 0 written).SameStyles (readLeniently 0 css) := by
  intro css written
  have hsealed : areSealed (.sheet true) (Node.ofText css) = true := by decide +kernel
  exact ⟨hsealed, (reads_render hsealed (by decide +kernel) (by decide +kernel) (by decide +kernel)
    false 0).2⟩

/-- An escape in a property is written as what it stands for, which is no name: the declaration is
not read back. -/
theorem reads_render_differs :
    let css := ".a \x7b --w-1\\.5: 2px \x7d".toList
    let written := (lenient [("a.css".toList, css)]).render [⟨0, 1⟩] true
    (∀ b ∈ (readLeniently 0 css).bodies, ⟨0, b.id⟩ ∈ ([⟨0, 1⟩] : List BodyRef)) ∧
      ¬ (readLeniently 0 written).SameStyles (readLeniently 0 css) := by
  decide +kernel

end Catalog

end StyleSieve
