import Mathlib.Data.List.Basic
import StyleSieve.Proofs.Catalog.Render
import StyleSieve.Proofs.Stylesheet.Statements

/-!
# Statements as they are written

Each statement with branches is one run of the stylesheet of its source, with a body of its own.  So
of some statements those that are wanted are written, each whole, on a line of its own, and in
order.

* `render_ofStatements`: the lines that are written for some bodies.
* `line_rule`: the line of a style rule.
-/

namespace StyleSieve.Stylesheet

open Css (Declaration Place)
open Run (closing opening settingText)

/-! ### Lines -/

/-- A line: a text within some conditions, outermost first. -/
def lineOf (conditions : List Condition) (core : Text) : Text :=
  conditions.flatMap (fun c => c.text ++ (opening ++ [' '])) ++
    (core ++ (conditions.flatMap (fun _ => closing) ++ ['\n']))

/-- The line of a style rule: all its branches, and all its declarations. -/
def ruleLine (conditions : List Condition) (selector : Text) (declarations : List Declaration) :
    Text :=
  lineOf conditions <|
    Selector.join (Selector.branches selector) ++
      (opening ++ (declarations.flatMap (fun d => settingText ⟨d.property, d.value⟩) ++ closing))

namespace Statement

/-- A statement without the conditions around it.  Of a global at-rule the source is written. -/
def core (u : Statement) : Text :=
  if u.isGlobal then
    (u.labels.map (·.1)).headD [] ++
      u.block.source.elim [';'] fun source => opening ++ (' ' :: (source ++ closing))
  else
    Selector.join (u.labels.map (·.1)) ++
      (opening ++ (u.block.settings.flatMap settingText ++ closing))

/-- The line of a statement. -/
def line (u : Statement) : Text := lineOf u.conditions u.core

/-- The branches of a statement that has some as a run. -/
def run (u : Statement) (body : BodyId) : Run where
  first := u.branch body (u.labels.headD ([], ⟨[], []⟩))
  others := u.labels.tail.map (u.branch body)

/-- Whether a statement is written for some bodies. -/
def isWanted (u : Statement) (bodies : List BodyRef) (globals : Bool) (ref : BodyRef) : Bool :=
  if u.isGlobal then globals else bodies.contains ref

end Statement

variable {u : Statement} {us : List Statement} {id : BodyId} {run : Run}

theorem labels_rule (file : Nat) (conditions : List Condition) (selector : Text)
    (declarations : List Declaration) (start stop : Place) :
    (Statement.rule file conditions selector declarations start stop).labels.map (·.1) =
      Selector.branches selector := by
  rw [Statement.rule, List.map_map]
  exact List.map_id _

theorem line_rule (file : Nat) (conditions : List Condition) (selector : Text)
    (declarations : List Declaration) (start stop : Place) :
    (Statement.rule file conditions selector declarations start stop).line =
      ruleLine conditions selector declarations := by
  rw [Statement.line, Statement.core, if_neg (by exact Bool.false_ne_true), labels_rule, ruleLine]
  simp only [Statement.rule, Block.ofDeclarations, List.flatMap_map]

theorem branches_run (h : u.isUsed = true) (id : BodyId) : (u.run id).branches = u.branches id := by
  obtain ⟨label, labels, hlabels⟩ := labels_of_isUsed h
  simp [Run.branches, Statement.run, Statement.branches, hlabels]

/-- The run of a statement is written as its line. -/
theorem text_run (h : u.isUsed = true) (id : BodyId) :
    (u.run id).text { u.block with id } = u.line := by
  have hcore : (u.run id).coreText { u.block with id } = u.core := by
    have htext : (u.branches id).map (·.text) = u.labels.map (·.1) := by
      rw [Statement.branches, List.map_map]
      rfl
    obtain ⟨label, labels, hlabels⟩ := labels_of_isUsed h
    rw [Run.coreText, branches_run h, htext, Statement.core]
    simp only [Statement.run, Statement.branch, hlabels]
    cases u.block.source <;> rfl
  rw [Run.text, hcore]
  rfl

/-! ### Runs -/

theorem mem_of_mem_ofBranches {bs : List Branch} (h : run ∈ Run.ofBranches bs) :
    run.first ∈ bs := by
  induction bs generalizing run with
  | nil => cases h
  | cons b bs ih =>
      rw [Run.ofBranches] at h
      split at h
      case h_1 first more hmore =>
        rw [hmore] at ih
        split at h
        · rcases List.mem_cons.1 h with rfl | h
          · exact List.mem_cons_self
          · exact List.mem_cons_of_mem _ (ih (List.mem_cons_of_mem _ h))
        · rcases List.mem_cons.1 h with rfl | h
          · exact List.mem_cons_self
          · exact List.mem_cons_of_mem _ (ih h)
      case h_2 =>
        rw [List.mem_singleton.1 h]
        exact List.mem_cons_self

/-- Branches of one body in front of branches of others are a run. -/
theorem ofBranches_run {b : Branch} {bs rest : List Branch}
    (hbs : ∀ c ∈ bs, c.body = b.body ∧ c.isGlobal = b.isGlobal)
    (hrest : ∀ c ∈ rest, c.body ≠ b.body) :
    Run.ofBranches (b :: (bs ++ rest)) = ⟨b, bs⟩ :: Run.ofBranches rest := by
  induction bs generalizing b with
  | nil =>
      rw [List.nil_append, Run.ofBranches]
      cases h : Run.ofBranches rest with
      | nil => rfl
      | cons run more =>
          have hne : run.first.body ≠ b.body :=
            hrest _ (mem_of_mem_ofBranches (h ▸ List.mem_cons_self))
          simp [Run.joins, Ne.symm hne]
  | cons c bs ih =>
      obtain ⟨⟨hbody, hglobal⟩, hbs⟩ := List.forall_mem_cons.1 hbs
      have hcbs : ∀ d ∈ bs, d.body = c.body ∧ d.isGlobal = c.isGlobal := by
        rw [hbody, hglobal]
        exact hbs
      rw [List.cons_append, Run.ofBranches, ih hcbs (hbody ▸ hrest)]
      simp [Run.joins, hbody, hglobal]

/-- Each statement is a run. -/
theorem ofBranches_statements (hused : ∀ u ∈ us, u.isUsed = true) (k : Nat) :
    Run.ofBranches ((us.zipIdx k).flatMap fun x => x.1.branches x.2) =
      (us.zipIdx k).map fun x => x.1.run x.2 := by
  induction us generalizing k with
  | nil => rfl
  | cons u us ih =>
      obtain ⟨hu, hus⟩ := List.forall_mem_cons.1 hused
      rw [List.zipIdx_cons, List.flatMap_cons, List.map_cons, ← ih hus, ← branches_run hu k,
        Run.branches, List.cons_append]
      refine ofBranches_run ?_ ?_
      · intro c hc
        obtain ⟨label, -, rfl⟩ := List.mem_map.1 hc
        exact ⟨rfl, rfl⟩
      · -- the numbers behind are larger
        intro c hc
        obtain ⟨x, hx, hc⟩ := List.mem_flatMap.1 hc
        obtain ⟨label, -, rfl⟩ := List.mem_map.1 hc
        exact Nat.ne_of_gt (List.le_snd_of_mem_zipIdx hx)

theorem pick_eq_filter {wanted : Branch → Bool} {written : List BodyId} {runs : List Run}
    (hnew : ∀ run ∈ runs, run.first.body ∉ written)
    (hnodup : (runs.map (·.first.body)).Nodup) :
    Run.pick wanted written runs = runs.filter (wanted ·.first) := by
  induction runs generalizing written with
  | nil => rfl
  | cons run runs ih =>
      obtain ⟨hrun, hruns⟩ := List.forall_mem_cons.1 hnew
      rw [List.map_cons, List.nodup_cons] at hnodup
      obtain ⟨hother, hnodup⟩ := hnodup
      rw [Run.pick, List.filter_cons]
      cases hw : wanted run.first with
      | false => exact ih hruns hnodup
      | true =>
          have hpick : (true && !written.contains run.first.body) = true := by simpa using hrun
          rw [if_pos hpick, if_pos rfl, ih _ hnodup]
          intro r hr hmem
          rcases List.mem_cons.1 hmem with e | hmem
          · exact hother (e ▸ List.mem_map_of_mem hr)
          · exact hruns r hr hmem

/-! ### What is written -/

theorem Run.pick_congr {wanted wanted' : Branch → Bool} {runs : List Run}
    (h : ∀ run ∈ runs, wanted run.first = wanted' run.first)
    (written : List BodyId) : pick wanted written runs = pick wanted' written runs := by
  induction runs generalizing written with
  | nil => rfl
  | cons run runs ih =>
      obtain ⟨hrun, hruns⟩ := List.forall_mem_cons.1 h
      rw [pick, pick, hrun, ih hruns, ih hruns]

/-- Only the branches of a stylesheet decide what is written of it. -/
theorem render_congr {s : Stylesheet} {wanted wanted' : Branch → Bool}
    (h : ∀ b ∈ s.branches, wanted b = wanted' b) :
    s.render wanted = s.render wanted' := by
  have hruns : ∀ run ∈ Run.ofBranches s.branches, wanted run.first = wanted' run.first :=
    fun run hrun => h _ (mem_of_mem_ofBranches hrun)
  rw [render, render, Run.pick_congr hruns]

theorem body?_ofStatements (h : (u, id) ∈ us.zipIdx 1) :
    (ofStatements us).body? id = some { u.block with id } := by
  rw [body?, ofStatements]
  generalize 1 = k at h
  induction us generalizing k with
  | nil => cases h
  | cons v us ih =>
      rw [List.zipIdx_cons] at h ⊢
      rw [List.map_cons]
      rcases List.mem_cons.1 h with h | h
      · cases h
        exact List.find?_cons_of_pos (beq_self_eq_true _)
      · have hlt := List.le_snd_of_mem_zipIdx h
        rw [List.find?_cons_of_neg (by simpa using Nat.ne_of_lt hlt)]
        exact ih _ h

/-- No two runs of some statements have the same body. -/
theorem nodup_ofStatements (hused : ∀ u ∈ us, u.isUsed = true) :
    ((Run.ofBranches (ofStatements us).branches).map (·.first.body)).Nodup := by
  have hruns : Run.ofBranches (ofStatements us).branches =
      (us.zipIdx 1).map fun x => x.1.run x.2 := ofBranches_statements hused 1
  have hids : ((us.zipIdx 1).map fun x => x.1.run x.2).map (·.first.body) =
      (us.zipIdx 1).map (·.2) := by
    rw [List.map_map]
    rfl
  rw [hruns, hids, List.zipIdx_map_snd]
  exact List.nodup_range' 1

/-- Of some statements those whose first branch is wanted are written, each whole and in order. -/
theorem render_branches (hused : ∀ u ∈ us, u.isUsed = true) (wanted : Branch → Bool) :
    (ofStatements us).render wanted =
      ((us.zipIdx 1).filter fun x => wanted (x.1.run x.2).first).flatMap (·.1.line) := by
  -- no body comes twice, so each run that is wanted is written
  have hruns : Run.ofBranches (ofStatements us).branches =
      (us.zipIdx 1).map fun x => x.1.run x.2 := ofBranches_statements hused 1
  rw [render, pick_eq_filter (fun _ _ => List.not_mem_nil) (nodup_ofStatements hused), hruns,
    List.filter_map, List.flatMap_map]
  refine List.flatMap_congr fun x hx => ?_
  have hmem : x ∈ us.zipIdx 1 := (List.mem_filter.1 hx).1
  have hbody : (ofStatements us).body? (x.1.run x.2).first.body =
      some { x.1.block with id := x.2 } := body?_ofStatements hmem
  rw [hbody]
  exact text_run (hused _ (List.fst_mem_of_mem_zipIdx hmem)) x.2

/-- Of some statements those that are wanted are written, each once, whole, and in order. -/
theorem render_ofStatements (hused : ∀ u ∈ us, u.isUsed = true) (bodies : List BodyRef)
    (globals : Bool) (file : Nat) :
    (ofStatements us).render (Catalog.isWanted bodies globals file) =
      ((us.zipIdx 1).filter fun x => x.1.isWanted bodies globals ⟨file, x.2⟩).flatMap
        (·.1.line) :=
  render_branches hused _

/-! ### Lines of a text -/

/-- A text of whole lines. -/
def WholeLines (css : Text) : Prop := ∀ c ∈ css.getLast?, c = '\n'

/-- A text has a line, at its start or behind whole lines. -/
def HasLine (css line : Text) : Prop :=
  ∃ before after, css = before ++ (line ++ after) ∧ WholeLines before

theorem wholeLines_lineOf (conditions : List Condition) (core : Text) :
    WholeLines (lineOf conditions core) := by
  simp [WholeLines, lineOf, List.getLast?_append]

theorem Run.wholeLines_text (run : Run) (body : Body) : WholeLines (run.text body) :=
  wholeLines_lineOf run.first.conditions (run.coreText body)

theorem WholeLines.append {s t : Text} (hs : WholeLines s) (ht : WholeLines t) :
    WholeLines (s ++ t) := by
  intro c hc
  rw [List.getLast?_append] at hc
  cases h : t.getLast? with
  | none => exact hs c (by simpa [h] using hc)
  | some d => exact ht c (by simpa [h] using hc)

theorem WholeLines.flatMap {α : Type} {l : List α} {f : α → Text}
    (h : ∀ x ∈ l, WholeLines (f x)) : WholeLines (l.flatMap f) := by
  induction l with
  | nil => exact fun _ h => nomatch h
  | cons x l ih =>
      obtain ⟨hx, hl⟩ := List.forall_mem_cons.1 h
      exact hx.append (ih hl)

theorem wholeLines_render (s : Stylesheet) (wanted : Branch → Bool) :
    WholeLines (s.render wanted) := by
  refine .flatMap fun run _ => ?_
  cases s.body? run.first.body with
  | none => exact fun _ h => nomatch h
  | some body => exact run.wholeLines_text body

theorem HasLine.flatMap {α : Type} {l : List α} {f : α → Text} {x : α} {line : Text}
    (hx : x ∈ l) (hline : HasLine (f x) line) (h : ∀ y ∈ l, WholeLines (f y)) :
    HasLine (l.flatMap f) line := by
  obtain ⟨l₁, l₂, rfl⟩ := List.append_of_mem hx
  obtain ⟨before, after, htext, hbefore⟩ := hline
  have hwhole : WholeLines (l₁.flatMap f) := .flatMap fun y hy => h y (List.mem_append_left _ hy)
  exact ⟨l₁.flatMap f ++ before, after ++ l₂.flatMap f, by simp [htext], hwhole.append hbefore⟩

/-- A statement that is wanted has its line in what is written. -/
theorem hasLine_render (hused : ∀ u ∈ us, u.isUsed = true) (hmem : (u, id) ∈ us.zipIdx 1)
    {bodies : List BodyRef} {globals : Bool} {file : Nat}
    (hwanted : u.isWanted bodies globals ⟨file, id⟩ = true) :
    HasLine ((ofStatements us).render (Catalog.isWanted bodies globals file)) u.line := by
  rw [render_ofStatements hused]
  refine .flatMap (List.mem_filter.2 ⟨hmem, hwanted⟩) ⟨[], [], by simp, fun _ h => nomatch h⟩ ?_
  exact fun x _ => wholeLines_lineOf x.1.conditions x.1.core

end StyleSieve.Stylesheet
