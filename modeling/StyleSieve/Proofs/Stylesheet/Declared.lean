import StyleSieve.Proofs.Css.Declared
import StyleSieve.Proofs.Stylesheet.Entries
import StyleSieve.Proofs.Stylesheet.Rules

/-!
# Bodies carry what their rules declare

A style rule, at the top of a source or in conditional groups however deep, has one body for all its
branches, and the body has the declarations of the block of the rule.  What stands in rules and
at-rules nested in the block is not read.

* `eq_of_read`: a source that is read strictly is read as it is leniently.
* `exists_body`: the body of a style rule.
* `carries_read`: what of its block the body has.
-/

namespace StyleSieve.Stylesheet

open Css (Carries Declaration Item items)

/-- The setting that a declaration makes. -/
def settingOf (d : Declaration) : Setting := ⟨d.property, d.value⟩

variable {strict : Bool} {file : Nat} {name css : Text} {sheet : Stylesheet}

theorem eq_of_read (h : read strict file name css = .ok sheet) :
    sheet = readLeniently file css := by
  cases strict with
  | false => exact (Except.ok.inj h).symm
  | true =>
      simp only [read, readStrictly, if_true] at h
      split at h
      · exact (Except.ok.inj h).symm
      · cases h

/-- The style rules of a text are among its statements. -/
theorem statement_mem_ofText {r : StyleRule} (hr : r ∈ StyleRule.ofText css) {branch : Text}
    (hbranch : branch ∈ Selector.branches r.selector) (file : Nat) :
    r.statement file ∈ Statement.ofText file css := by
  have hmem : r.statement file ∈ ruleStatementsIn file [] (Css.Node.ofText css) := by
    rw [Css.Node.ofText, ruleStatementsIn_nodes]
    exact List.mem_map_of_mem hr
  refine List.mem_filter.2 ⟨(List.mem_filter.1 hmem).1, ?_⟩
  rw [Statement.isUsed, Bool.not_eq_true', List.isEmpty_eq_false_iff]
  exact List.ne_nil_of_mem (List.mem_map_of_mem hbranch)

/-- A style rule has one body for all its branches, with what is read of its block. -/
theorem exists_body (hlength : 2 * css.length < Location.limit) {r : StyleRule}
    (hr : r ∈ StyleRule.ofText css) (hne : Selector.branches r.selector ≠ []) (file : Nat) :
    ∃ id body, (readLeniently file css).body? id = some body ∧
      body.settings = (Css.declarations r.stop r.content).map settingOf ∧
        ∀ branch ∈ Selector.branches r.selector, ∃ b ∈ (readLeniently file css).branches,
          b.text = branch ∧ b.parts = Selector.parts branch ∧ b.conditions = r.conditions ∧
            b.isGlobal = false ∧ b.body = id := by
  obtain ⟨branch, hbranch⟩ := List.exists_mem_of_ne_nil _ hne
  obtain ⟨i, hi⟩ := List.mem_iff_getElem?.1 (statement_mem_ofText hr hbranch file)
  have hid : (r.statement file, 1 + i) ∈ (Statement.ofText file css).zipIdx 1 :=
    List.mk_add_mem_zipIdx_iff_getElem?.2 hi
  rw [readLeniently_eq hlength]
  refine ⟨1 + i, _, body?_ofStatements hid, rfl, fun branch hbranch => ?_⟩
  have hlabel : (branch, Selector.parts branch) ∈ (r.statement file).labels :=
    List.mem_map_of_mem hbranch
  exact ⟨(r.statement file).branch (1 + i) (branch, Selector.parts branch),
    List.mem_flatMap.2 ⟨_, hid, List.mem_map_of_mem hlabel⟩, rfl, rfl, rfl, rfl, rfl⟩

/-- A branch of a style rule has a body, with what is read of the block of the rule. -/
theorem exists_body_of_rule (hlength : 2 * css.length < Location.limit) {r : StyleRule}
    (hr : r ∈ StyleRule.ofText css) {branch : Text}
    (hbranch : branch ∈ Selector.branches r.selector) (file : Nat) :
    ∃ b ∈ (readLeniently file css).branches,
      b.text = branch ∧ b.parts = Selector.parts branch ∧ b.conditions = r.conditions ∧
        b.isGlobal = false ∧ ∃ body, (readLeniently file css).body? b.body = some body ∧
          body.settings = (Css.declarations r.stop r.content).map settingOf := by
  obtain ⟨id, body, hbody, hsettings, hbranches⟩ :=
    exists_body hlength hr (List.ne_nil_of_mem hbranch) file
  obtain ⟨b, hb, htext, hparts, hconditions, hglobal, rfl⟩ := hbranches branch hbranch
  exact ⟨b, hb, htext, hparts, hconditions, hglobal, body, hbody, hsettings⟩

end StyleSieve.Stylesheet
