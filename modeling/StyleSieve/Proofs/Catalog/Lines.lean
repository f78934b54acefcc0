import StyleSieve.Proofs.Stylesheet.Lines
import StyleSieve.Proofs.Stylesheet.Starts

/-!
# The lines of a catalog

What is written of a catalog is a list of lines, each a run with its body.  In a catalog that is
numbered each statement has a body of its own.  Then the lines for some bodies are those lines of
the catalog that are wanted, and no line is for the body of another.

* `render_eq_lines`: what is written is lines.
* `IsNumbered.ofNodes`: trees whose nodes start at different places make a numbered catalog.
* `IsNumbered.lines_eq`, `IsNumbered.nodup_refs`: the lines of a numbered catalog.
* `IsNumbered.exists_line`: every branch stands in a line.
-/

namespace StyleSieve.Catalog

open Css (Node)
open Stylesheet (Body Branch Run Statement)

/-- A run that is written, with its body and the number of its file. -/
structure Line where
  file : Nat
  run : Run
  body : Body

namespace Line

/-- The body that a line is for. -/
def ref (l : Line) : BodyRef := ⟨l.file, l.run.first.body⟩

/-- Whether a line is a global at-rule. -/
def isGlobal (l : Line) : Bool := l.run.first.isGlobal

/-- A line as it is written. -/
def text (l : Line) : Text := l.run.text l.body

/-- Whether a line is to be written for some bodies. -/
def isWanted (l : Line) (bodies : List BodyRef) (globals : Bool) : Bool :=
  if l.isGlobal then globals else bodies.contains l.ref

end Line

/-- Some runs of a file as lines.  A run without a body is none. -/
def linesOf (file : Nat) (s : Stylesheet) (runs : List Run) : List Line :=
  runs.filterMap fun run => (s.body? run.first.body).map fun body => ⟨file, run, body⟩

/-- The lines that are written for some bodies, with the global at-rules or without. -/
def lines (c : Catalog) (bodies : List BodyRef) (globals : Bool) : List Line :=
  c.files.zipIdx.flatMap fun (file, number) =>
    linesOf number file.sheet <|
      Run.pick (isWanted bodies globals number) [] (Run.ofBranches file.sheet.branches)

/-- All lines of a catalog, two for one body included. -/
def allLines (c : Catalog) : List Line :=
  c.files.zipIdx.flatMap fun (file, number) =>
    linesOf number file.sheet (Run.ofBranches file.sheet.branches)

variable {c : Catalog} {bodies : List BodyRef} {globals : Bool}

theorem text_linesOf (file : Nat) (s : Stylesheet) (runs : List Run) :
    (linesOf file s runs).flatMap Line.text =
      runs.flatMap fun run => ((s.body? run.first.body).map run.text).getD [] := by
  induction runs with
  | nil => rfl
  | cons run runs ih =>
      rw [linesOf, List.filterMap_cons, List.flatMap_cons, ← ih, linesOf]
      cases s.body? run.first.body with
      | none => rfl
      | some body => rfl

/-- What is written for some bodies is their lines. -/
theorem render_eq_lines (c : Catalog) (bodies : List BodyRef) (globals : Bool) :
    c.render bodies globals = (c.lines bodies globals).flatMap Line.text := by
  rw [lines, List.flatMap_assoc, render]
  exact List.flatMap_congr fun x _ => (text_linesOf x.2 x.1.sheet _).symm

theorem mem_linesOf {file : Nat} {s : Stylesheet} {runs : List Run} {l : Line} :
    l ∈ linesOf file s runs ↔
      l.file = file ∧ l.run ∈ runs ∧ s.body? l.run.first.body = some l.body := by
  simp only [linesOf, List.mem_filterMap, Option.map_eq_some_iff]
  constructor
  · rintro ⟨run, hrun, body, hbody, rfl⟩
    exact ⟨rfl, hrun, hbody⟩
  · rintro ⟨rfl, hrun, hbody⟩
    exact ⟨l.run, hrun, l.body, hbody, rfl⟩

theorem filter_linesOf (file : Nat) (s : Stylesheet) (runs : List Run) :
    linesOf file s (runs.filter fun run => isWanted bodies globals file run.first) =
      (linesOf file s runs).filter (·.isWanted bodies globals) := by
  induction runs with
  | nil => rfl
  | cons run runs ih =>
      have hline (body : Body) : (Line.mk file run body).isWanted bodies globals =
          isWanted bodies globals file run.first := rfl
      rw [linesOf] at ih
      rw [linesOf, linesOf, List.filterMap_cons, List.filter_cons]
      cases hbody : s.body? run.first.body with
      | none =>
          split
          · rw [List.filterMap_cons, hbody]
            exact ih
          · exact ih
      | some body =>
          rw [Option.map_some, List.filter_cons, hline]
          split
          · rw [List.filterMap_cons, hbody]
            exact congrArg _ ih
          · exact ih

/-! ### Numbered catalogs -/

/-- Every statement of a file has a body of its own. -/
def IsNumbered (c : Catalog) : Prop :=
  ∀ file ∈ c.files, ∃ us, (∀ u ∈ us, u.isUsed = true) ∧ file.sheet = .ofStatements us

/-- The file is made of nodes that start at different places, all in range. -/
def StartsApart (file : StyleFile) : Prop :=
  ∃ number nodes, file.sheet = .ofNodes number nodes ∧ (Node.startsIn nodes).Nodup ∧
    ∀ p ∈ Node.startsIn nodes, p.InRange

theorem IsNumbered.ofNodes {files : List StyleFile} (h : ∀ file ∈ files, StartsApart file) :
    (ofFiles files).IsNumbered := by
  intro file hfile
  obtain ⟨number, nodes, hsheet, hstarts, hrange⟩ := h file hfile
  rw [hsheet, Stylesheet.ofNodes_distinct hstarts hrange]
  exact ⟨_, fun u hu => (List.mem_filter.1 hu).2, rfl⟩

theorem IsNumbered.nodup (h : c.IsNumbered) {file : StyleFile} (hfile : file ∈ c.files) :
    ((Run.ofBranches file.sheet.branches).map (·.first.body)).Nodup := by
  obtain ⟨us, hused, hsheet⟩ := h file hfile
  rw [hsheet]
  exact Stylesheet.nodup_ofStatements hused

/-- The lines for some bodies are those that are wanted. -/
theorem IsNumbered.lines_eq (h : c.IsNumbered) (bodies : List BodyRef) (globals : Bool) :
    c.lines bodies globals = c.allLines.filter (·.isWanted bodies globals) := by
  rw [lines, allLines, List.filter_flatMap]
  refine List.flatMap_congr fun x hx => ?_
  dsimp only
  rw [Stylesheet.pick_eq_filter (fun _ _ => List.not_mem_nil)
    (h.nodup (List.fst_mem_of_mem_zipIdx hx)), filter_linesOf]

/-- No two lines are for the same body. -/
theorem IsNumbered.nodup_refs (h : c.IsNumbered) : (c.allLines.map Line.ref).Nodup := by
  refine List.pairwise_map.2 (List.pairwise_flatMap.2 ⟨fun x hx => ?_, ?_⟩)
  · -- the runs of one file
    have hruns := List.pairwise_map.1 (h.nodup (List.fst_mem_of_mem_zipIdx hx))
    refine List.pairwise_filterMap.2 (hruns.imp fun {run run'} hne l hl l' hl' e => hne ?_)
    obtain ⟨body, -, rfl⟩ := Option.map_eq_some_iff.1 hl
    obtain ⟨body', -, rfl⟩ := Option.map_eq_some_iff.1 hl'
    exact congrArg BodyRef.body e
  · -- two files
    have hnumbers : (c.files.zipIdx.map (·.2)).Nodup := by
      rw [List.zipIdx_map_snd]
      exact List.nodup_range' 1
    refine (List.pairwise_map.1 hnumbers).imp fun {x y} hne l hl l' hl' e => hne ?_
    rw [← (mem_linesOf.1 hl).1, ← (mem_linesOf.1 hl').1]
    exact congrArg BodyRef.file e

/-- Every branch stands in a line, with its body. -/
theorem IsNumbered.exists_line (h : c.IsNumbered) {number : Nat} {file : StyleFile} {b : Branch}
    (hfile : c.files[number]? = some file) (hb : b ∈ file.sheet.branches) :
    ∃ l ∈ c.allLines, l.ref = ⟨number, b.body⟩ ∧ l.isGlobal = b.isGlobal ∧ b ∈ l.run.branches := by
  obtain ⟨us, hused, hsheet⟩ := h file (List.mem_of_getElem? hfile)
  rw [hsheet] at hb
  obtain ⟨⟨u, id⟩, hmem, hbranch⟩ := List.mem_flatMap.1 hb
  have hu : u.isUsed = true := hused u (List.fst_mem_of_mem_zipIdx hmem)
  refine ⟨⟨number, u.run id, { u.block with id }⟩, ?_, ?_⟩
  · refine List.mem_flatMap.2 ⟨(file, number), List.mk_mem_zipIdx_iff_getElem?.2 hfile,
      mem_linesOf.2 ⟨rfl, ?_, ?_⟩⟩
    · have hruns : Run.ofBranches file.sheet.branches =
          (us.zipIdx 1).map fun x => x.1.run x.2 := by
        rw [hsheet]
        exact Stylesheet.ofBranches_statements hused 1
      rw [hruns]
      exact List.mem_map_of_mem hmem
    · dsimp only
      rw [hsheet]
      exact Stylesheet.body?_ofStatements hmem
  · obtain ⟨label, hlabel, rfl⟩ := List.mem_map.1 hbranch
    refine ⟨rfl, rfl, ?_⟩
    rw [Stylesheet.branches_run hu]
    exact List.mem_map_of_mem hlabel

end StyleSieve.Catalog
