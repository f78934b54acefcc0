import StyleSieve.Proofs.Catalog.Render
import StyleSieve.Proofs.Stylesheet.Walk
import StyleSieve.Stylesheet.Read

/-!
# The number of a file

A text is read as file number `file` of a project.  The number stands in the places that bodies
cover, and nowhere else: it decides neither which blocks share a body nor what is written.

* `ofNodes_inFile`, `read_inFile`: a text read as one file is that text read as another, with its
  places moved there.
* `render_inFile`: what is written of a stylesheet does not say which file it is.
-/

namespace StyleSieve

open Css (Declaration Node Place)

/-- The same line and column of another file. -/
def Location.inFile (file : Nat) (l : Location) : Location := { l with file }

/-- The same stretch of another file. -/
def Span.inFile (file : Nat) (s : Span) : Span := ⟨file, s.start.inFile file, s.stop.inFile file⟩

namespace Stylesheet

/-- The same block of another file. -/
def Block.inFile (file : Nat) (b : Block) : Block :=
  { b with first := b.first.inFile file, last := b.last.inFile file }

/-- The same body of another file. -/
def Body.inFile (file : Nat) (b : Body) : Body := { b.toBlock.inFile file with id := b.id }

/-- The same statement of another file. -/
def Statement.inFile (file : Nat) (u : Statement) : Statement :=
  { u with block := u.block.inFile file }

/-- The same stylesheet as another file. -/
def inFile (file : Nat) (s : Stylesheet) : Stylesheet :=
  { s with bodies := s.bodies.map (Body.inFile file) }

variable {file : Nat} {s : Stylesheet}

/-- The number that is given last counts. -/
theorem inFile_inFile (file other : Nat) (s : Stylesheet) :
    (s.inFile other).inFile file = s.inFile file := by
  rw [inFile, inFile, List.map_map]
  rfl

/-! ### Places -/

theorem earlierStart_inFile (file : Nat) (a b : Span) :
    Span.earlierStart (a.inFile file) (b.inFile file) = (Span.earlierStart a b).inFile file :=
  (apply_ite (Span.inFile file) (b.start.order a.start = .lt) b a).symm

theorem laterStop_inFile (file : Nat) (a b : Span) :
    Span.laterStop (a.inFile file) (b.inFile file) = (Span.laterStop a b).inFile file :=
  (apply_ite (Span.inFile file) (b.stop.order a.stop = .gt) b a).symm

/-- A choice among spans is the same in every file. -/
theorem foldl_inFile {choose : Span → Span → Span}
    (h : ∀ a b : Span, choose (a.inFile file) (b.inFile file) = (choose a b).inFile file)
    (spans : List Span) (seed : Span) :
    (spans.map (Span.inFile file)).foldl choose (seed.inFile file) =
      (spans.foldl choose seed).inFile file := by
  induction spans generalizing seed with
  | nil => rfl
  | cons s spans ih => rw [List.map_cons, List.foldl_cons, h, ih, List.foldl_cons]

theorem ofDeclarations_inFile (file : Nat) (declarations : List Declaration) (start stop : Place)
    (source : Option Text) :
    Block.ofDeclarations file declarations start stop source =
      (Block.ofDeclarations 0 declarations start stop source).inFile file := by
  have hspans : declarations.map (spanOf file) =
      (declarations.map (spanOf 0)).map (Span.inFile file) := by
    rw [List.map_map]
    rfl
  have hempty : (declarations.map (spanOf file)).isEmpty =
      (declarations.map (spanOf 0)).isEmpty := by
    rw [hspans, List.isEmpty_map]
  have hfirst := foldl_inFile (earlierStart_inFile file) (declarations.map (spanOf 0)) (.pastEnd 0)
  have hlast := foldl_inFile (laterStop_inFile file) (declarations.map (spanOf 0)) (.beforeStart 0)
  rw [← hspans] at hfirst hlast
  simp only [Block.ofDeclarations, Block.inFile, hempty, apply_ite (Span.inFile file), ← hfirst,
    ← hlast]
  rfl

/-- Two blocks of one file cover the same span there if they do in another. -/
theorem coincides_inFile (file : Nat) (a b : Block) :
    (a.inFile file).span.coincides (b.inFile file).span =
      (a.inFile 0).span.coincides (b.inFile 0).span := by
  rw [Bool.eq_iff_iff, coincides_iff, coincides_iff]
  simp [Block.span, Block.inFile, Span.inFile, Location.inFile, Span.between]

/-! ### Statements -/

mutual

theorem statementsOf_inFile (file : Nat) (conditions : List Condition) (n : Node) :
    statementsOf file conditions n =
      (statementsOf 0 conditions n).map (Statement.inFile file) := by
  cases n with
  | declaration d => simp only [statementsOf, List.map_nil]
  | rule selector declarations start stop =>
      simp only [statementsOf, List.map_singleton, Statement.rule, Statement.inFile]
      rw [ofDeclarations_inFile file]
  | atRule name params block children start stop =>
      simp only [statementsOf]
      split
      · exact statementsIn_inFile file _ children
      · simp only [List.map_singleton, Statement.atRule, Statement.inFile]
        rw [ofDeclarations_inFile file]

theorem statementsIn_inFile (file : Nat) (conditions : List Condition) (nodes : List Node) :
    statementsIn file conditions nodes =
      (statementsIn 0 conditions nodes).map (Statement.inFile file) := by
  cases nodes with
  | nil => simp only [statementsIn, List.map_nil]
  | cons n nodes =>
      simp only [statementsIn, List.map_append]
      rw [statementsOf_inFile file conditions n, statementsIn_inFile file conditions nodes]

end

/-! ### Bodies -/

/-- The body that covers the span of a block is the same body in every file. -/
theorem find?_inFile (file : Nat) (bodies : List Body) (block : Block) :
    (bodies.map (Body.inFile file)).find?
        (fun b => b.span.coincides (block.inFile file).span) =
      ((bodies.map (Body.inFile 0)).find?
        (fun b => b.span.coincides (block.inFile 0).span)).map (Body.inFile file) := by
  induction bodies with
  | nil => rfl
  | cons b bodies ih =>
      have hspan : (b.inFile file).span.coincides (block.inFile file).span =
          (b.inFile 0).span.coincides (block.inFile 0).span := coincides_inFile file b.toBlock block
      simp only [List.map_cons, List.find?_cons, hspan]
      split
      · rfl
      · exact ih

theorem addBranch_inFile (file : Nat) (s : Stylesheet) (u : Statement)
    (label : Text × Selector.Parts) :
    (s.inFile file).addBranch label.1 label.2 u.conditions u.isGlobal (u.block.inFile file) =
      ((s.inFile 0).addBranch label.1 label.2 u.conditions u.isGlobal
        (u.block.inFile 0)).inFile file := by
  have hfind := find?_inFile file s.bodies u.block
  simp only [addBranch, addBlock, inFile]
  rw [hfind]
  cases (s.bodies.map (Body.inFile 0)).find?
      (fun b => b.span.coincides (u.block.inFile 0).span) with
  | some known =>
      simp only [Option.map_some, List.map_map]
      rfl
  | none =>
      simp only [Option.map_none, List.map_append, List.map_map, List.length_map]
      rfl

/-- The branches of a statement. -/
theorem add_inFile (file : Nat) (s : Stylesheet) (u : Statement) :
    (s.inFile file).add (u.inFile file) = ((s.inFile 0).add (u.inFile 0)).inFile file := by
  have hlabels (labels : List (Text × Selector.Parts)) (s : Stylesheet) :
      labels.foldl (fun s label => s.addBranch label.1 label.2 u.conditions u.isGlobal
          (u.block.inFile file)) (s.inFile file) =
        (labels.foldl (fun s label => s.addBranch label.1 label.2 u.conditions u.isGlobal
          (u.block.inFile 0)) (s.inFile 0)).inFile file := by
    induction labels generalizing s with
    | nil => exact (inFile_inFile file 0 s).symm
    | cons label labels ih =>
        -- one more branch stays in file 0, where the other branches are added to it
        have hzero := addBranch_inFile 0 s u label
        rw [List.foldl_cons, List.foldl_cons, addBranch_inFile, ih, ← hzero]
  exact hlabels u.labels s

theorem foldl_add_inFile (file : Nat) (us : List Statement) (s : Stylesheet) :
    (us.map (Statement.inFile file)).foldl add (s.inFile file) =
      ((us.map (Statement.inFile 0)).foldl add (s.inFile 0)).inFile file := by
  induction us generalizing s with
  | nil => exact (inFile_inFile file 0 s).symm
  | cons u us ih =>
      have hzero := add_inFile 0 s u
      simp only [List.map_cons, List.foldl_cons]
      rw [add_inFile, ih, ← hzero]

/-- Nodes make the same stylesheet as any file. -/
theorem ofNodes_inFile (file : Nat) (nodes : List Node) :
    ofNodes file nodes = (ofNodes 0 nodes).inFile file := by
  have h := foldl_add_inFile file (statementsIn 0 [] nodes) {}
  rw [← statementsIn_inFile, ← statementsIn_inFile] at h
  rw [ofNodes_eq, ofNodes_eq]
  exact h

/-- A text is read alike as any file. -/
theorem read_inFile (strict : Bool) (file : Nat) (name css : Text) :
    read strict file name css = (read strict 0 name css).map (inFile file) := by
  have hlenient : readLeniently file css = (readLeniently 0 css).inFile file :=
    ofNodes_inFile file (Css.Node.ofText css)
  cases strict with
  | false => exact congrArg Except.ok hlenient
  | true =>
      simp only [read, readStrictly, if_true]
      cases Css.Strict.verdict css with
      | ok _ => exact congrArg Except.ok hlenient
      | error offence => rfl

/-! ### What is written -/

theorem body?_inFile (file : Nat) (s : Stylesheet) (id : BodyId) :
    (s.inFile file).body? id = (s.body? id).map (Body.inFile file) := by
  rw [body?, inFile, List.find?_map]
  rfl

/-- What is written of a stylesheet does not say which file it is. -/
theorem render_inFile (file : Nat) (s : Stylesheet) (wanted : Branch → Bool) :
    (s.inFile file).render wanted = s.render wanted := by
  have hbody (run : Run) : ((s.inFile file).body? run.first.body).map run.text =
      (s.body? run.first.body).map run.text := by
    rw [body?_inFile, Option.map_map]
    rfl
  simp only [render, hbody]
  rfl

end Stylesheet

end StyleSieve
