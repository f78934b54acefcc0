import StyleSieve.Proofs.Catalog.Index
import StyleSieve.Proofs.Stylesheet.Lines
import StyleSieve.Proofs.Stylesheet.Starts

/-!
# Rules that a page gets

A page that uses a key of one branch of a rule gets the whole rule, within all its conditions.

* `hasLine_critical`: the line of the rule is in the CSS for the page.
-/

namespace StyleSieve.Catalog

open Css (Declaration Node Place)
open Stylesheet (HasLine Statement)

variable {files : List StyleFile} {name : Text} {file : Nat} {nodes : List Node}
  {conditions : List Condition} {selector : Text} {declarations : List Declaration}
  {start stop : Place} {branch k : Text} {usage : Usage}

/-- The rule of a source has a body there, and its branches are branches of the source. -/
theorem exists_rule (file : Nat) (hstarts : (Node.startsIn nodes).Nodup)
    (hrange : ∀ p ∈ Node.startsIn nodes, p.InRange)
    (hrule : (Node.rule selector declarations start stop).Within conditions nodes)
    (hbranch : branch ∈ Selector.branches selector) :
    ∃ us u id, Stylesheet.ofNodes file nodes = .ofStatements us ∧
      (∀ v ∈ us, v.isUsed = true) ∧ (u, id) ∈ us.zipIdx 1 ∧
      u = .rule file conditions selector declarations start stop ∧
      u.branch id (branch, Selector.parts branch) ∈ (Stylesheet.ofStatements us).branches := by
  let u := Statement.rule file conditions selector declarations start stop
  let us := (Stylesheet.statementsIn file [] nodes).filter Statement.isUsed
  -- the rule has a branch, so it is used and has a number
  have hlabel : (branch, Selector.parts branch) ∈ u.labels := List.mem_map_of_mem hbranch
  have hused : u.isUsed = true := by
    rw [Statement.isUsed, Bool.not_eq_true', List.isEmpty_eq_false_iff]
    exact List.ne_nil_of_mem hlabel
  have hmem : u ∈ us := by
    refine List.mem_filter.2 ⟨Stylesheet.mem_statementsIn hrule [] u ?_, hused⟩
    rw [Stylesheet.statementsOf]
    exact List.mem_singleton.2 rfl
  obtain ⟨i, hi⟩ := List.mem_iff_getElem?.1 hmem
  have hid : (u, 1 + i) ∈ us.zipIdx 1 := List.mk_add_mem_zipIdx_iff_getElem?.2 hi
  refine ⟨us, u, 1 + i, Stylesheet.ofNodes_distinct hstarts hrange,
    fun v hv => (List.mem_filter.1 hv).2, hid, rfl, ?_⟩
  exact List.mem_flatMap.2 ⟨(u, 1 + i), hid, List.mem_map_of_mem hlabel⟩

/-- A page that uses a key of a branch gets the line of its rule. -/
theorem hasLine_critical (hfile : ⟨name, .ofNodes file nodes⟩ ∈ files)
    (hstarts : (Node.startsIn nodes).Nodup) (hrange : ∀ p ∈ Node.startsIn nodes, p.InRange)
    (hrule : (Node.rule selector declarations start stop).Within conditions nodes)
    (hbranch : branch ∈ Selector.branches selector)
    (hkey : k ∈ Piece.keys (Selector.parts branch).pieces) (hused : k ∈ usage.keys) :
    HasLine ((ofFiles files).critical usage)
      (Stylesheet.ruleLine conditions selector declarations) := by
  obtain ⟨us, u, id, hsheet, hus, hid, hu, hmem⟩ :=
    exists_rule file hstarts hrange hrule hbranch
  obtain ⟨number, hnumber⟩ := List.mem_iff_getElem?.1 hfile
  have hglobal : u.isGlobal = false := by rw [hu]; rfl
  -- the index knows the branch, so the body is chosen
  have hselected : (⟨number, id⟩ : BodyRef) ∈ (ofFiles files).select usage := by
    have hentry : (⟨⟨number, id⟩, Piece.keys (Selector.parts branch).pieces⟩ : Entry) ∈
        entries files :=
      mem_entries.2 ⟨number, _, hnumber, _, hsheet ▸ hmem, hglobal, rfl⟩
    exact mem_select.2 ⟨_, hentry, .inr ⟨k, hkey, hused⟩, rfl⟩
  have hwanted : u.isWanted ((ofFiles files).select usage) true ⟨number, id⟩ = true := by
    rw [Statement.isWanted, hglobal]
    exact List.contains_iff_mem.2 hselected
  -- what is chosen is written, first in its file and then in all
  have hline : HasLine ((Stylesheet.ofNodes file nodes).render
      (isWanted ((ofFiles files).select usage) true number)) u.line := by
    rw [hsheet]
    exact Stylesheet.hasLine_render hus hid hwanted
  rw [hu, Stylesheet.line_rule] at hline
  have hplace : (⟨name, .ofNodes file nodes⟩, number) ∈ files.zipIdx :=
    List.mk_mem_zipIdx_iff_getElem?.2 hnumber
  exact .flatMap hplace hline fun x _ => Stylesheet.wholeLines_render _ _

end StyleSieve.Catalog
