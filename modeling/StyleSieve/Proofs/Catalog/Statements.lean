import StyleSieve.Proofs.Stylesheet.Lines
import StyleSieve.Proofs.Stylesheet.Numbers

/-!
# The statements of a catalog

The sources of a catalog are trees of nodes.  Where the nodes of each start at different places,
what is written for some bodies is, source by source and in document order, the line of each style
rule whose body is among them, and of each global at-rule if these are wanted.  A line has the
conditions that stand around its statement in the tree, and no others.

* `line_atRule`: the line of a global at-rule.
* `standsIn_iff`: the statements of a tree, with their lines.
* `render_statements`: what is written of trees.
-/

namespace StyleSieve

namespace Stylesheet

open Css (AtRule.isGroup Declaration Node Place)
open Run (closing opening)

variable {file : Nat} {outer : List Condition} {nodes children : List Node} {u : Statement}
  {line : Text}

/-- The line of a global at-rule: its block as it stands in the source, or a semicolon. -/
def globalLine (conditions : List Condition) (name params : Text) (source : Option Text) : Text :=
  lineOf conditions <|
    globalText name params ++
      source.elim [';'] fun source => opening ++ (' ' :: (source ++ closing))

theorem line_atRule (file : Nat) (conditions : List Condition) (name params : Text)
    (source : Option Text) (children : List Node) (start stop : Place) :
    (Statement.atRule file conditions name params source children start stop).line =
      globalLine conditions name params source := by
  rw [Statement.line, Statement.core, if_pos (by rfl)]
  rfl

/-! ### Where a statement stands -/

/-- A style rule or a global at-rule that stands in some nodes, with its line.  All of these stand
in some outer conditions. -/
inductive StandsIn (file : Nat) (outer : List Condition) (nodes : List Node) :
    Statement → Text → Prop where
  | rule {inner : List Condition} {selector : Text} {declarations : List Declaration}
      {start stop : Place} :
      (Node.rule selector declarations start stop).Within inner nodes →
        StandsIn file outer nodes (.rule file (outer ++ inner) selector declarations start stop)
          (ruleLine (outer ++ inner) selector declarations)
  | atRule {inner : List Condition} {name params : Text} {source : Option Text}
      {children : List Node} {start stop : Place} :
      (Node.atRule name params source children start stop).Within inner nodes →
        (source.isSome && AtRule.isGroup name) = false →
          StandsIn file outer nodes
            (.atRule file (outer ++ inner) name params source children start stop)
            (globalLine (outer ++ inner) name params source)

namespace StandsIn

theorem mono (h : StandsIn file outer nodes u line) {ms : List Node}
    (hsub : ∀ m ∈ nodes, m ∈ ms) : StandsIn file outer ms u line := by
  cases h with
  | rule h => exact .rule (h.mono hsub)
  | atRule h hgroup => exact .atRule (h.mono hsub) hgroup

/-- What stands in a group has its condition inside the outer ones. -/
theorem group {name params block : Text} {start stop : Place}
    (h : StandsIn file (outer ++ [⟨name, params⟩]) children u line)
    (hmem : .atRule name params (some block) children start stop ∈ nodes)
    (hname : AtRule.isGroup name = true) : StandsIn file outer nodes u line := by
  cases h with
  | rule h =>
      rw [← List.append_cons]
      exact .rule (.group hmem hname h)
  | atRule h hgroup =>
      rw [← List.append_cons]
      exact .atRule (.group hmem hname h) hgroup

theorem mem (h : StandsIn file outer nodes u line) :
    u ∈ statementsIn file outer nodes ∧ u.line = line := by
  cases h with
  | rule h =>
      refine ⟨mem_statementsIn h outer _ ?_, line_rule ..⟩
      rw [statementsOf]
      exact List.mem_singleton_self _
  | atRule h hgroup =>
      refine ⟨mem_statementsIn h outer _ ?_, line_atRule ..⟩
      rw [statementsOf, hgroup, if_neg Bool.false_ne_true]
      exact List.mem_singleton_self _

end StandsIn

mutual

theorem standsIn_of_mem_statementsOf (outer : List Condition) (n : Node) :
    ∀ u ∈ statementsOf file outer n, StandsIn file outer [n] u u.line := by
  intro u hu
  have hself : n ∈ [n] := List.mem_singleton_self n
  cases n with
  | declaration d =>
      rw [statementsOf] at hu
      cases hu
  | rule selector declarations start stop =>
      rw [statementsOf, List.mem_singleton] at hu
      subst hu
      have h : StandsIn file outer _ _ _ := .rule (.here hself)
      rw [List.append_nil] at h
      rwa [line_rule]
  | atRule name params block children start stop =>
      rw [statementsOf] at hu
      split at hu
      case isTrue hgroup =>
        obtain ⟨hblock, hname⟩ := Bool.and_eq_true_iff.1 hgroup
        obtain ⟨block, rfl⟩ := Option.isSome_iff_exists.1 hblock
        exact (standsIn_of_mem_statementsIn _ children u hu).group hself hname
      case isFalse hgroup =>
        rw [List.mem_singleton] at hu
        subst hu
        have h : StandsIn file outer _ _ _ :=
          .atRule (.here hself) (Bool.not_eq_true _ ▸ hgroup)
        rw [List.append_nil] at h
        rwa [line_atRule]

theorem standsIn_of_mem_statementsIn (outer : List Condition) (nodes : List Node) :
    ∀ u ∈ statementsIn file outer nodes, StandsIn file outer nodes u u.line := by
  intro u hu
  cases nodes with
  | nil =>
      rw [statementsIn] at hu
      cases hu
  | cons n nodes =>
      rw [statementsIn] at hu
      rcases List.mem_append.1 hu with hu | hu
      · refine (standsIn_of_mem_statementsOf outer n u hu).mono fun m hm => ?_
        rw [List.mem_singleton.1 hm]
        exact List.mem_cons_self
      · exact (standsIn_of_mem_statementsIn outer nodes u hu).mono fun m hm =>
          List.mem_cons_of_mem n hm

end

/-- The statements of a tree are the style rules and global at-rules that stand in it. -/
theorem standsIn_iff :
    StandsIn file outer nodes u line ↔ u ∈ statementsIn file outer nodes ∧ u.line = line :=
  ⟨StandsIn.mem, fun ⟨hu, hline⟩ => hline ▸ standsIn_of_mem_statementsIn outer nodes u hu⟩

end Stylesheet

namespace Catalog

open Css (Node)
open Stylesheet (StandsIn Statement)

/-- The nodes of a source, with the number that its file is read under. -/
structure Source where
  name : Text
  number : Nat
  nodes : List Node

namespace Source

/-- The file of a source. -/
def file (x : Source) : StyleFile := ⟨x.name, .ofNodes x.number x.nodes⟩

/-- No two nodes of a source start at one place. -/
structure StartsApart (x : Source) : Prop where
  nodup : (Node.startsIn x.nodes).Nodup
  inRange : ∀ p ∈ Node.startsIn x.nodes, p.InRange

/-- The statements of a source that have a branch. -/
def statements (x : Source) : List Statement := Stylesheet.usedIn x.number x.nodes

variable {x : Source}

theorem sheet_eq (h : x.StartsApart) : x.file.sheet = .ofStatements x.statements :=
  Stylesheet.ofNodes_distinct h.nodup h.inRange

theorem isUsed_of_mem {u : Statement} (h : u ∈ x.statements) : u.isUsed = true :=
  (List.mem_filter.1 h).2

end Source

/-- **Each statement that is wanted is written once, whole, and in order.**  What is written for
some bodies is the lines of the statements of each source in document order, of a style rule if its
body is one of them, of a global at-rule if these are wanted.  The statements of a source are those
that stand in its nodes and have a branch, and their branches have their numbers as bodies. -/
theorem render_statements {sources : List Source} (h : ∀ x ∈ sources, x.StartsApart)
    (bodies : List BodyRef) (globals : Bool) :
    (ofFiles (sources.map Source.file)).render bodies globals =
        sources.zipIdx.flatMap (fun x =>
          ((x.1.statements.zipIdx 1).filter fun u =>
            u.1.isWanted bodies globals ⟨x.2, u.2⟩).flatMap (·.1.line)) ∧
      ∀ x ∈ sources,
        x.file.sheet.branches = (x.statements.zipIdx 1).flatMap (fun u => u.1.branches u.2) ∧
          ∀ u line, (u ∈ x.statements ∧ u.line = line) ↔
            (u.isUsed = true ∧ StandsIn x.number [] x.nodes u line) := by
  constructor
  · have hfiles : (sources.map Source.file).zipIdx =
        sources.zipIdx.map (Prod.map Source.file id) := List.zipIdx_map ..
    rw [render, ofFiles, hfiles, List.flatMap_map]
    refine List.flatMap_congr fun x hx => ?_
    dsimp only [Prod.map]
    rw [Source.sheet_eq (h x.1 (List.fst_mem_of_mem_zipIdx hx))]
    exact Stylesheet.render_ofStatements (fun _ => Source.isUsed_of_mem) bodies globals x.2
  · intro x hx
    refine ⟨by rw [Source.sheet_eq (h x hx)]; rfl, fun u line => ?_⟩
    rw [Stylesheet.standsIn_iff, Source.statements, Stylesheet.usedIn, List.mem_filter, and_assoc,
      and_left_comm]

/-- A source of a page, and one for print. -/
def printSources : List Source :=
  [⟨"page.css".toList, 0, Stylesheet.pageNodes⟩, ⟨"print.css".toList, 1, Stylesheet.printNodes⟩]

/-- The second rule of the second source is written, and the global at-rules.  A body that is asked
for twice counts once, and one that there is not counts for nothing. -/
theorem render_statements_print :
    (∀ x ∈ printSources, x.StartsApart) ∧
      (ofFiles (printSources.map Source.file)).render [⟨1, 3⟩, ⟨0, 7⟩, ⟨1, 3⟩] true =
        ("@top-left \x7b content: none \x7d\n" ++ "@layer base;\n" ++
          "@media print \x7b @supports (gap: 0) \x7b .b, .a \x7b \x7d \x7d \x7d\n" ++
          "@page \x7b margin: 0; @top-left \x7b content: none \x7d size: a4 \x7d\n").toList := by
  have h : ∀ x ∈ printSources, x.StartsApart :=
    List.forall_mem_cons.2 ⟨⟨by decide, by decide⟩,
      List.forall_mem_singleton.2 ⟨by decide, by decide⟩⟩
  exact ⟨h, (render_statements h _ _).1.trans (by decide +kernel)⟩

end Catalog

end StyleSieve
