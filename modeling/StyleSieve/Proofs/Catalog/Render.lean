import StyleSieve.Catalog.Render

/-!
# What is written

Of the runs of a stylesheet, those are written that are wanted and whose body no earlier one has.

* `Stylesheet.Run.mem_pick`, `Stylesheet.Run.exists_mem_pick`: which runs are written.
* `Catalog.render_eq_nil`: where nothing is written for some bodies, nothing is for fewer.
-/

namespace StyleSieve

namespace Stylesheet

namespace Run

variable {wanted : Branch → Bool} {written : List BodyId} {run : Run} {runs : List Run}

/-- A run that is written is wanted, and its body is new. -/
theorem mem_pick (h : run ∈ pick wanted written runs) :
    run ∈ runs ∧ wanted run.first = true ∧ run.first.body ∉ written := by
  induction runs generalizing written with
  | nil => cases h
  | cons first rest ih =>
      rw [pick] at h
      split at h
      case isTrue e =>
        obtain ⟨hwanted, hnew⟩ : wanted first.first = true ∧ first.first.body ∉ written := by
          simpa using e
        rcases List.mem_cons.1 h with rfl | h
        · exact ⟨by simp, hwanted, hnew⟩
        · obtain ⟨hmem, hw, hn⟩ := ih h
          exact ⟨List.mem_cons_of_mem _ hmem, hw, fun h' => hn (List.mem_cons_of_mem _ h')⟩
      case isFalse =>
        obtain ⟨hmem, hw, hn⟩ := ih h
        exact ⟨List.mem_cons_of_mem _ hmem, hw, hn⟩

/-- Of a wanted run the body is written, unless it has been before. -/
theorem exists_mem_pick (h : run ∈ runs) (hw : wanted run.first = true)
    (hn : run.first.body ∉ written) :
    ∃ run' ∈ pick wanted written runs, run'.first.body = run.first.body := by
  induction runs generalizing written with
  | nil => cases h
  | cons first rest ih =>
      rw [pick]
      split
      case isTrue e =>
        by_cases hbody : first.first.body = run.first.body
        · exact ⟨first, by simp, hbody⟩
        · have hrest : run ∈ rest := by
            rcases List.mem_cons.1 h with rfl | h
            · exact absurd rfl hbody
            · exact h
          have hnew : run.first.body ∉ first.first.body :: written := by
            simpa [hn] using Ne.symm hbody
          obtain ⟨run', hmem, hrun'⟩ := ih hrest hnew
          exact ⟨run', List.mem_cons_of_mem _ hmem, hrun'⟩
      case isFalse e =>
        rcases List.mem_cons.1 h with rfl | h
        · exact absurd (by simpa [hw] using hn) e
        · exact ih h hn

theorem text_ne_nil (run : Run) (body : Body) : run.text body ≠ [] := by
  simp [text]

end Run

/-- Nothing is written if and only if no wanted run has a body. -/
theorem render_eq_nil {s : Stylesheet} {wanted : Branch → Bool} :
    s.render wanted = [] ↔
      ∀ run ∈ Run.ofBranches s.branches, wanted run.first = true →
        s.body? run.first.body = none := by
  have htext (run : Run) : ((s.body? run.first.body).map run.text).getD [] = [] ↔
      s.body? run.first.body = none := by
    cases s.body? run.first.body with
    | none => simp
    | some body => simp [Run.text_ne_nil]
  simp only [render, List.flatMap_eq_nil_iff, htext]
  constructor
  · intro h run hmem hw
    obtain ⟨run', hmem', hbody⟩ := Run.exists_mem_pick hmem hw (List.not_mem_nil)
    exact hbody ▸ h run' hmem'
  · intro h run hmem
    obtain ⟨hmem, hw, -⟩ := Run.mem_pick hmem
    exact h run hmem hw

end Stylesheet

namespace Catalog

/-- Where nothing is written for some bodies and the global at-rules, nothing is for fewer. -/
theorem render_eq_nil {c : Catalog} {bodies fewer : List BodyRef} (h : c.render bodies true = [])
    (hsub : ∀ r ∈ fewer, r ∈ bodies) (globals : Bool) : c.render fewer globals = [] := by
  simp only [render, List.flatMap_eq_nil_iff] at h ⊢
  intro file hfile
  have hnone := Stylesheet.render_eq_nil.1 (h file hfile)
  refine Stylesheet.render_eq_nil.2 fun run hrun hw => hnone run hrun ?_
  unfold isWanted at hw ⊢
  split at hw
  case isTrue e => rw [if_pos e]
  case isFalse e =>
    rw [if_neg e]
    simp only [List.contains_iff_mem] at hw ⊢
    exact hsub _ hw

/-- Without bodies and global at-rules nothing is written. -/
theorem render_nil (c : Catalog) : c.render [] false = [] := by
  simp only [render, List.flatMap_eq_nil_iff]
  intro file _
  refine Stylesheet.render_eq_nil.2 fun run _ hw => ?_
  simp [isWanted] at hw

end Catalog

end StyleSieve
