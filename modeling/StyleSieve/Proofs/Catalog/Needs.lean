import StyleSieve.Proofs.Catalog.Index
import StyleSieve.Proofs.Stylesheet.Lines

/-!
# What a page gets

The bodies that are chosen for a page are chosen file by file, whatever the numbers of the files:
what counts is which branches of a file the page needs.  Of statements with a body each it needs the
global ones and those with a branch that may match.

* `critical_ofFiles`: what a page gets, file by file.
* `render_needed`: what it gets of some statements.
-/

namespace StyleSieve

namespace Stylesheet

/-- Whether a page needs a branch: every page needs the global ones, and of the others those whose
body has a branch that may match. -/
def needs (s : Stylesheet) (usage : Usage) (b : Branch) : Bool :=
  b.isGlobal ||
    s.branches.any fun a => !a.isGlobal && (a.body == b.body && usage.admits a.parts.pieces)

end Stylesheet

namespace Catalog

open Stylesheet (Branch)

theorem isWanted_select {files : List StyleFile} {file : StyleFile} {number : Nat}
    (hfile : files[number]? = some file) (usage : Usage) (b : Branch) :
    isWanted ((ofFiles files).select usage) true number b = file.sheet.needs usage b := by
  rw [isWanted, Stylesheet.needs]
  cases b.isGlobal with
  | true => rfl
  | false =>
      rw [Bool.eq_iff_iff]
      simp only [Bool.false_eq_true, if_false, Bool.false_or, List.contains_iff_mem,
        mem_select_file hfile, List.any_eq_true, Bool.and_eq_true, Bool.not_eq_true', beq_iff_eq]

/-- What a page gets is written file by file, and the numbers of the files do not matter. -/
theorem critical_ofFiles (files : List StyleFile) (usage : Usage) :
    (ofFiles files).critical usage =
      files.flatMap fun file => file.sheet.render (file.sheet.needs usage) := by
  have hfst : files.zipIdx.map Prod.fst = files := List.zipIdx_map_fst 0 files
  have hfiles : (ofFiles files).files = files := rfl
  conv_rhs => rw [← hfst, List.flatMap_map]
  rw [critical, render, hfiles]
  refine List.flatMap_congr fun x hx => Stylesheet.render_congr fun b _ => ?_
  exact isWanted_select (List.mem_zipIdx_iff_getElem?.1 hx) usage b

end Catalog

namespace Stylesheet

variable {us : List Statement} {u : Statement} {id : BodyId} {usage : Usage}

/-- Whether a page needs a statement. -/
def Statement.isNeeded (usage : Usage) (u : Statement) : Bool :=
  u.isGlobal || u.labels.any fun label => usage.admits label.2.pieces

/-- The branches of a statement are needed if it is. -/
theorem needs_ofStatements (hmem : (u, id) ∈ us.zipIdx 1) (usage : Usage)
    (label : Text × Selector.Parts) :
    (ofStatements us).needs usage (u.branch id label) = u.isNeeded usage := by
  have hglobal : (u.branch id label).isGlobal = u.isGlobal := rfl
  rw [needs, hglobal, Statement.isNeeded]
  cases hu : u.isGlobal with
  | true => rfl
  | false =>
      rw [Bool.false_or, Bool.false_or, Bool.eq_iff_iff, List.any_eq_true, List.any_eq_true]
      constructor
      · rintro ⟨a, ha, hneeded⟩
        simp only [Bool.and_eq_true, beq_iff_eq] at hneeded
        obtain ⟨-, hbody, hadmits⟩ := hneeded
        obtain ⟨⟨v, k⟩, hv, ha⟩ := List.mem_flatMap.1 ha
        obtain ⟨l, hl, rfl⟩ := List.mem_map.1 ha
        -- a number belongs to one statement only
        obtain rfl : k = id := hbody
        obtain ⟨-, hgetv⟩ := List.mk_mem_zipIdx_iff_le_and_getElem?_sub.1 hv
        obtain ⟨-, hgetu⟩ := List.mk_mem_zipIdx_iff_le_and_getElem?_sub.1 hmem
        obtain rfl := Option.some.inj (hgetv.symm.trans hgetu)
        exact ⟨l, hl, hadmits⟩
      · rintro ⟨l, hl, hadmits⟩
        refine ⟨u.branch id l, List.mem_flatMap.2 ⟨(u, id), hmem, List.mem_map_of_mem hl⟩, ?_⟩
        simp only [Statement.branch, hu, hadmits, Bool.not_false, BEq.rfl, Bool.and_true]

/-- Of some statements a page gets those that it needs, each once, whole, and in order. -/
theorem render_needed (hused : ∀ u ∈ us, u.isUsed = true) (usage : Usage) :
    (ofStatements us).render ((ofStatements us).needs usage) =
      (us.filter (·.isNeeded usage)).flatMap Statement.line := by
  have hfst : (us.zipIdx 1).map Prod.fst = us := List.zipIdx_map_fst 1 us
  have hneeded : (us.zipIdx 1).filter
      (fun x => (ofStatements us).needs usage (x.1.run x.2).first) =
        (us.zipIdx 1).filter fun x => x.1.isNeeded usage :=
    List.filter_congr fun x hx => needs_ofStatements hx usage _
  rw [render_branches hused, hneeded]
  conv_rhs => rw [← hfst, List.filter_map, List.flatMap_map]
  rfl

end Stylesheet

end StyleSieve
