import StyleSieve.Proofs.Css.Places
import StyleSieve.Proofs.Stylesheet.Lines
import StyleSieve.Stylesheet.Read

/-!
# What a stylesheet says

An entry is a statement without the places it covers: its branches, the conditions around them, and
what their block holds.  The entries of a text that is not too long are those of its nodes, one for
each statement with branches, and the places of the nodes do not matter.

* `readLeniently_eq`: the stylesheet of a text is that of its statements.
* `entries_readLeniently`: the entries of a text.
* `entriesIn_bareOf`: places do not matter.
* `ofStatements_alike`: statements with the same entries make stylesheets that differ in places
  only.
* `render_alike`: statements with the same entries are written alike.
-/

namespace StyleSieve.Stylesheet

open Css (Declaration Node Place)

/-- Some branches with what their body holds. -/
structure Entry where
  labels : List (Text × Selector.Parts)
  conditions : List Condition
  isGlobal : Bool
  settings : List Setting
  source : Option Text
  deriving DecidableEq

/-- The branches of an entry whose body has a number. -/
def Entry.branches (e : Entry) (body : BodyId) : List Branch :=
  e.labels.map fun label =>
    { text := label.1, parts := label.2, conditions := e.conditions, isGlobal := e.isGlobal, body }

/-- What a run says, with its body. -/
def Run.entry (run : Run) (body : Body) : Entry where
  labels := run.branches.map fun b => (b.text, b.parts)
  conditions := run.first.conditions
  isGlobal := run.first.isGlobal
  settings := body.settings
  source := body.source

/-- The entries of a stylesheet: its runs with their bodies. -/
def entries (s : Stylesheet) : List Entry :=
  (Run.ofBranches s.branches).flatMap fun run => ((s.body? run.first.body).map run.entry).toList

/-- What a statement says. -/
def Statement.entry (u : Statement) : Entry where
  labels := u.labels
  conditions := u.conditions
  isGlobal := u.isGlobal
  settings := u.block.settings
  source := u.block.source

/-- What a body holds, with its number. -/
def Body.said (b : Body) : BodyId × List Setting × Option Text := (b.id, b.settings, b.source)

variable {file : Nat} {u : Statement} {us vs : List Statement}

/-! ### Statements -/

theorem entries_ofStatements (hused : ∀ u ∈ us, u.isUsed = true) :
    (ofStatements us).entries = us.map Statement.entry := by
  have hruns : Run.ofBranches (ofStatements us).branches =
      (us.zipIdx 1).map fun x => x.1.run x.2 := ofBranches_statements hused 1
  have hone : ∀ x ∈ us.zipIdx 1, (((ofStatements us).body? (x.1.run x.2).first.body).map
      (x.1.run x.2).entry).toList = [x.1.entry] := by
    rintro ⟨u, id⟩ hmem
    have hu : u.isUsed = true := hused u (List.fst_mem_of_mem_zipIdx hmem)
    have hbody : (ofStatements us).body? (u.run id).first.body = some { u.block with id } :=
      body?_ofStatements hmem
    have hlabels : (u.run id).branches.map (fun b => (b.text, b.parts)) = u.labels := by
      rw [branches_run hu, Statement.branches, List.map_map]
      exact List.map_id _
    rw [hbody, Option.map_some, Option.toList_some, Run.entry, hlabels]
    rfl
  have hfst : (us.zipIdx 1).map Prod.fst = us := List.zipIdx_map_fst 1 us
  rw [entries, hruns, List.flatMap_map, List.flatMap_congr hone, ← List.map_eq_flatMap]
  conv_rhs => rw [← hfst, List.map_map]
  rfl

/-- Statements with the same entries make stylesheets that differ in places only. -/
theorem ofStatements_alike (h : us.map Statement.entry = vs.map Statement.entry) :
    (ofStatements us).branches = (ofStatements vs).branches ∧
      (ofStatements us).bodies.map Body.said = (ofStatements vs).bodies.map Body.said := by
  have hbranches (us : List Statement) : (ofStatements us).branches =
      ((us.map Statement.entry).zipIdx 1).flatMap fun x => x.1.branches x.2 := by
    rw [List.zipIdx_map, List.flatMap_map]
    rfl
  have hbodies (us : List Statement) : (ofStatements us).bodies.map Body.said =
      ((us.map Statement.entry).zipIdx 1).map fun x => (x.2, x.1.settings, x.1.source) := by
    rw [List.zipIdx_map, List.map_map, ofStatements, List.map_map]
    rfl
  rw [hbranches, hbodies, h, ← hbranches, ← hbodies]
  exact ⟨rfl, rfl⟩

/-- A statement is written as its entry says. -/
theorem Statement.line_congr {u v : Statement} (h : u.entry = v.entry) : u.line = v.line := by
  obtain ⟨hlabels, hconditions, hglobal, hsettings, hsource⟩ := Entry.mk.inj h
  simp only [line, core, hlabels, hconditions, hglobal, hsettings, hsource]

/-- Statements with the same entries are written alike. -/
theorem render_alike (hus : ∀ u ∈ us, u.isUsed = true) (hvs : ∀ v ∈ vs, v.isUsed = true)
    (h : us.map Statement.entry = vs.map Statement.entry) {bodies bodies' : List BodyRef}
    {file file' : Nat} (hbodies : ∀ id, bodies.contains ⟨file, id⟩ = bodies'.contains ⟨file', id⟩)
    (globals : Bool) :
    (ofStatements us).render (Catalog.isWanted bodies globals file) =
      (ofStatements vs).render (Catalog.isWanted bodies' globals file') := by
  rw [render_ofStatements hus, render_ofStatements hvs]
  clear hus hvs
  generalize 1 = k
  induction us generalizing vs k with
  | nil =>
      obtain rfl := List.map_eq_nil_iff.1 h.symm
      rfl
  | cons u us ih =>
      obtain ⟨v, vs, rfl, huv, hrest⟩ := List.map_eq_cons_iff.1 h.symm
      have hwanted :
          u.isWanted bodies globals ⟨file, k⟩ = v.isWanted bodies' globals ⟨file', k⟩ := by
        have hglobal : v.isGlobal = u.isGlobal := congrArg Entry.isGlobal huv
        rw [Statement.isWanted, Statement.isWanted, hglobal, hbodies]
      rw [List.zipIdx_cons, List.zipIdx_cons, List.filter_cons, List.filter_cons]
      dsimp only
      rw [hwanted]
      split
      · rw [List.flatMap_cons, List.flatMap_cons, ih hrest.symm]
        exact congrArg (· ++ _) (Statement.line_congr huv.symm)
      · exact ih hrest.symm _

/-- The statements of a text that have a branch. -/
def Statement.ofText (file : Nat) (css : Text) : List Statement :=
  (statementsIn file [] (Node.ofText css)).filter Statement.isUsed

theorem Statement.isUsed_ofText (file : Nat) (css : Text) :
    ∀ u ∈ ofText file css, u.isUsed = true :=
  fun _ hu => (List.mem_filter.1 hu).2

/-- The stylesheet of a text that is not too long is that of its statements. -/
theorem readLeniently_eq {css : Text} (h : 2 * css.length < Location.limit) (file : Nat) :
    readLeniently file css = ofStatements (Statement.ofText file css) :=
  ofNodes_distinct (Node.nodup_startsIn css) (Node.inRange_startsIn h)

/-! ### Entries of nodes -/

theorem declarationsIn_bareOf (nodes : List Node) :
    declarationsIn (Node.bareOf nodes) = (declarationsIn nodes).map Declaration.bare := by
  fun_induction declarationsIn nodes with
  | case1 => simp [Node.bareOf, declarationsIn]
  | case2 d rest ih => rw [Node.bareOf, Node.bare, declarationsIn, ih, List.map_cons]
  | case3 selector declarations start stop rest ih =>
      rw [Node.bareOf, Node.bare, declarationsIn, ih, List.map_append]
  | case4 name params block children start stop rest ih =>
      rw [Node.bareOf, Node.bare, declarationsIn, ← Node.bareOf_append, ih]

/-- Some declarations as settings. -/
def settingsOf (declarations : List Declaration) : List Setting :=
  declarations.map fun d => ⟨d.property, d.value⟩

theorem settingsOf_bare (declarations : List Declaration) :
    settingsOf (declarations.map Declaration.bare) = settingsOf declarations := by
  rw [settingsOf, List.map_map]
  rfl

mutual

theorem entries_statementsOf_bare (file file' : Nat) (conditions : List Condition) :
    (n : Node) → (statementsOf file conditions n.bare).map Statement.entry =
      (statementsOf file' conditions n).map Statement.entry
  | .declaration d => rfl
  | .rule selector declarations start stop => by
    simp only [Node.bare, statementsOf, List.map_cons, List.map_nil, Statement.entry,
      Statement.rule, Block.ofDeclarations]
    exact congrArg (fun settings => [Entry.mk _ _ _ settings _]) (settingsOf_bare declarations)
  | .atRule name params block children start stop => by
    rw [Node.bare, statementsOf, statementsOf]
    split
    · exact entries_statementsIn_bareOf file file' _ children
    · simp only [List.map_cons, List.map_nil, Statement.entry, Statement.atRule,
        Block.ofDeclarations, declarationsIn_bareOf]
      exact congrArg (fun settings => [Entry.mk _ _ _ settings _]) (settingsOf_bare _)

/-- The places of some nodes, and the number of their file, do not matter for their entries. -/
theorem entries_statementsIn_bareOf (file file' : Nat) (conditions : List Condition) :
    (nodes : List Node) →
      (statementsIn file conditions (Node.bareOf nodes)).map Statement.entry =
        (statementsIn file' conditions nodes).map Statement.entry
  | [] => rfl
  | n :: nodes => by
    rw [Node.bareOf, statementsIn, statementsIn, List.map_append, List.map_append,
      entries_statementsOf_bare file file', entries_statementsIn_bareOf file file']

end

/-- The entries of some nodes that have a branch. -/
def entriesIn (nodes : List Node) : List Entry :=
  ((statementsIn 0 [] nodes).filter Statement.isUsed).map Statement.entry

theorem map_entry_filter (h : us.map Statement.entry = vs.map Statement.entry) :
    (us.filter Statement.isUsed).map Statement.entry =
      (vs.filter Statement.isUsed).map Statement.entry := by
  have hfilter (us : List Statement) : (us.filter Statement.isUsed).map Statement.entry =
      (us.map Statement.entry).filter fun e => !e.labels.isEmpty := by
    rw [List.filter_map]
    rfl
  rw [hfilter, h, ← hfilter]

theorem entriesIn_bareOf (nodes : List Node) : entriesIn (Node.bareOf nodes) = entriesIn nodes :=
  map_entry_filter (entries_statementsIn_bareOf 0 0 [] nodes)

theorem entriesIn_append (ns ms : List Node) :
    entriesIn (ns ++ ms) = entriesIn ns ++ entriesIn ms := by
  simp only [entriesIn, statementsIn_eq, List.flatMap_append, List.filter_append, List.map_append]

/-- The entries of the statements of a text are those of its nodes, whatever its file. -/
theorem entries_ofText (file : Nat) (css : Text) :
    (Statement.ofText file css).map Statement.entry = entriesIn (Node.ofText css) :=
  map_entry_filter <| ((entries_statementsIn_bareOf 0 file [] _).symm).trans
    (entries_statementsIn_bareOf 0 0 [] _)

/-- The entries of a text that is not too long are those of its nodes. -/
theorem entries_readLeniently {css : Text} (h : 2 * css.length < Location.limit) (file : Nat) :
    (readLeniently file css).entries = entriesIn (Node.ofText css) := by
  rw [readLeniently_eq h, entries_ofStatements (Statement.isUsed_ofText file css), entries_ofText]

end StyleSieve.Stylesheet
