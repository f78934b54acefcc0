import StyleSieve.Stylesheet.OfNodes

/-!
# The statements of a stylesheet

The walk over the nodes of a source comes past style rules and global at-rules, each with the
conditions around it.  These statements, in order, are read off the tree by recursion
(`statementsIn`); the walk adds one after the other (`walk_eq`).  Where no two of them cover the
same span, each gets a body of its own, numbered in order (`foldl_add`).
-/

namespace StyleSieve.Stylesheet

open Css (Declaration Node Place)

/-- A style rule or a global at-rule: what stands in front of its block, the conditions around it,
and the block. -/
structure Statement where
  /-- The selectors of a rule, or the one text of an at-rule. -/
  labels : List (Text × Selector.Parts)
  conditions : List Condition
  isGlobal : Bool
  block : Block

namespace Statement

/-- A style rule. -/
def rule (file : Nat) (conditions : List Condition) (selector : Text)
    (declarations : List Declaration) (start stop : Place) : Statement where
  labels := (Selector.branches selector).map fun branch => (branch, Selector.parts branch)
  conditions
  isGlobal := false
  block := .ofDeclarations file declarations start stop none

/-- A global at-rule, with all declarations that stand in it. -/
def atRule (file : Nat) (conditions : List Condition) (name params : Text) (source : Option Text)
    (children : List Node) (start stop : Place) : Statement where
  labels := [(globalText name params, ⟨[], []⟩)]
  conditions
  isGlobal := true
  block := .ofDeclarations file (declarationsIn children) start stop source

/-- One of the branches of a statement whose body has a number. -/
def branch (u : Statement) (body : BodyId) (label : Text × Selector.Parts) : Branch :=
  { text := label.1, parts := label.2, conditions := u.conditions, isGlobal := u.isGlobal, body }

/-- The branches of a statement whose body has a number. -/
def branches (u : Statement) (body : BodyId) : List Branch := u.labels.map (u.branch body)

end Statement

/-- Adds the branches of a statement. -/
def add (s : Stylesheet) (u : Statement) : Stylesheet :=
  u.labels.foldl (fun s label => s.addBranch label.1 label.2 u.conditions u.isGlobal u.block) s

/-! ### The walk -/

mutual

/-- The statements of a node under some conditions. -/
def statementsOf (file : Nat) : (conditions : List Condition) → Node → List Statement
  | _, .declaration _ => []
  | conditions, .rule selector declarations start stop =>
    [.rule file conditions selector declarations start stop]
  | conditions, .atRule name params block children start stop =>
    if block.isSome && Css.AtRule.isGroup name then
      statementsIn file (conditions ++ [⟨name, params⟩]) children
    else [.atRule file conditions name params block children start stop]

/-- The statements of some nodes under the same conditions. -/
def statementsIn (file : Nat) : (conditions : List Condition) → List Node → List Statement
  | _, [] => []
  | conditions, n :: nodes => statementsOf file conditions n ++ statementsIn file conditions nodes

end

theorem statementsIn_eq (file : Nat) (conditions : List Condition) (nodes : List Node) :
    statementsIn file conditions nodes = nodes.flatMap (statementsOf file conditions) := by
  induction nodes with
  | nil => rfl
  | cons n nodes ih => rw [statementsIn, ih, List.flatMap_cons]

theorem addRule_eq (s : Stylesheet) (file : Nat) (conditions : List Condition) (selector : Text)
    (declarations : List Declaration) (start stop : Place) :
    s.addRule conditions selector (.ofDeclarations file declarations start stop none) =
      s.add (.rule file conditions selector declarations start stop) := by
  rw [addRule, add, Statement.rule, List.foldl_map]

/-- The walk adds the statements in order. -/
theorem walk_eq (file : Nat) (waiting : List Waiting) (s : Stylesheet) :
    walk file waiting s =
      (waiting.flatMap fun w => statementsOf file w.conditions w.node).foldl add s := by
  fun_induction walk file waiting s with
  | case1 => rfl
  | case2 s _ _ rest ih => rw [ih, List.flatMap_cons, statementsOf, List.nil_append]
  | case3 s conditions selector declarations start stop rest ih =>
      rw [ih, List.flatMap_cons, statementsOf, List.singleton_append, List.foldl_cons, addRule_eq]
  | case4 s conditions name params block children start stop rest hgroup ih =>
      rw [ih, List.flatMap_cons, statementsOf, if_pos hgroup, List.flatMap_append, statementsIn_eq,
        Waiting.under, List.flatMap_map]
  | case5 s conditions name params block children start stop rest hgroup ih =>
      rw [ih, List.flatMap_cons, statementsOf, if_neg hgroup, List.singleton_append,
        List.foldl_cons]
      rfl

theorem ofNodes_eq (file : Nat) (nodes : List Node) :
    ofNodes file nodes = (statementsIn file [] nodes).foldl add {} := by
  rw [ofNodes, walk_eq, Waiting.under, List.flatMap_map, statementsIn_eq]

/-! ### Numbers -/

/-- A statement has a branch. -/
def Statement.isUsed (u : Statement) : Bool := !u.labels.isEmpty

/-- No two statements cover the same span. -/
def Distinct (us : List Statement) : Prop :=
  us.Pairwise fun u v => u.block.span.coincides v.block.span = false

/-- The stylesheet of some statements, each with a body of its own, numbered from one. -/
def ofStatements (us : List Statement) : Stylesheet where
  branches := (us.zipIdx 1).flatMap fun x => x.1.branches x.2
  bodies := (us.zipIdx 1).map fun x => { x.1.block with id := x.2 }

variable {s : Stylesheet} {u : Statement} {us vs : List Statement} {b : Body}

theorem labels_of_isUsed (h : u.isUsed = true) : ∃ label labels, u.labels = label :: labels := by
  refine List.exists_cons_of_ne_nil fun e => ?_
  rw [Statement.isUsed, e] at h
  cases h

theorem labels_of_unused (h : u.isUsed = false) : u.labels = [] := by
  simpa [Statement.isUsed] using h

theorem coincides_self (a : Span) : a.coincides a = true := by
  simp [Span.coincides]

/-- A block that is known gets no new body. -/
theorem addBranch_known (h : s.bodies.find? (fun b => b.span.coincides u.block.span) = some b)
    (label : Text × Selector.Parts) :
    s.addBranch label.1 label.2 u.conditions u.isGlobal u.block =
      { s with branches := s.branches ++ [u.branch b.id label] } := by
  unfold addBranch addBlock
  rw [h]
  rfl

/-- A block that is not known gets a body with the next number. -/
theorem addBranch_new (h : s.bodies.find? (fun b => b.span.coincides u.block.span) = none)
    (label : Text × Selector.Parts) :
    s.addBranch label.1 label.2 u.conditions u.isGlobal u.block =
      { branches := s.branches ++ [u.branch (s.bodies.length + 1) label]
        bodies := s.bodies ++ [{ u.block with id := s.bodies.length + 1 }] } := by
  unfold addBranch addBlock
  rw [h]
  rfl

theorem foldl_addBranch_known
    (h : s.bodies.find? (fun b => b.span.coincides u.block.span) = some b)
    (labels : List (Text × Selector.Parts)) :
    labels.foldl
        (fun s label => s.addBranch label.1 label.2 u.conditions u.isGlobal u.block) s =
      { s with branches := s.branches ++ labels.map (u.branch b.id) } := by
  induction labels generalizing s with
  | nil => simp
  | cons label labels ih =>
      rw [List.foldl_cons, addBranch_known h,
        ih (s := { s with branches := s.branches ++ [u.branch b.id label] }) h]
      simp

/-- A statement without branches adds nothing. -/
theorem add_unused (s : Stylesheet) (h : u.isUsed = false) : s.add u = s := by
  rw [add, labels_of_unused h]
  rfl

/-- The branches of a statement whose block is known get the number that it has. -/
theorem add_known (h : s.bodies.find? (fun b => b.span.coincides u.block.span) = some b) :
    s.add u = { s with branches := s.branches ++ u.branches b.id } :=
  foldl_addBranch_known h u.labels

/-- A statement whose block is not known gets the next number: its first branch makes the body, and
the others find it. -/
theorem add_new (hused : u.isUsed = true)
    (hnone : s.bodies.find? (fun b => b.span.coincides u.block.span) = none) :
    s.add u =
      { branches := s.branches ++ u.branches (s.bodies.length + 1)
        bodies := s.bodies ++ [{ u.block with id := s.bodies.length + 1 }] } := by
  obtain ⟨label, labels, hlabels⟩ := labels_of_isUsed hused
  let body : Body := { u.block with id := s.bodies.length + 1 }
  have hfind : (s.bodies ++ [body]).find? (fun b => b.span.coincides u.block.span) =
      some body := by
    rw [List.find?_append, hnone, Option.none_or]
    exact List.find?_cons_of_pos (coincides_self u.block.span)
  rw [add, hlabels, List.foldl_cons, addBranch_new hnone, foldl_addBranch_known hfind]
  simp [Statement.branches, hlabels, body]

/-- A statement with a new span gets the next number. -/
theorem add_ofStatements (hused : u.isUsed = true)
    (hnew : ∀ v ∈ us, v.block.span.coincides u.block.span = false) :
    (ofStatements us).add u = ofStatements (us ++ [u]) := by
  have hnone : (ofStatements us).bodies.find? (fun b => b.span.coincides u.block.span) = none := by
    refine List.find?_eq_none.2 fun b hb => ?_
    obtain ⟨⟨v, id⟩, hv, rfl⟩ := List.mem_map.1 hb
    rw [Bool.not_eq_true]
    exact hnew v (List.fst_mem_of_mem_zipIdx hv)
  rw [add_new hused hnone]
  simp [ofStatements, List.zipIdx_append, Nat.add_comm]

/-- Statements with different spans get a body each, in order; one without branches gets none. -/
theorem foldl_add (vs : List Statement) (h : Distinct (vs ++ us)) :
    us.foldl add (ofStatements vs) = ofStatements (vs ++ us.filter Statement.isUsed) := by
  induction us generalizing vs with
  | nil => simp
  | cons u us ih =>
      rw [List.foldl_cons]
      cases hused : u.isUsed with
      | false =>
          rw [add_unused _ hused, List.filter_cons_of_neg (by simp [hused])]
          exact ih vs (h.sublist (List.Sublist.append_left (List.sublist_cons_self u us) vs))
      | true =>
          have hnew : ∀ v ∈ vs, v.block.span.coincides u.block.span = false := fun v hv =>
            (List.pairwise_append.1 h).2.2 v hv u List.mem_cons_self
          rw [add_ofStatements hused hnew, List.filter_cons_of_pos hused]
          have h' : Distinct (vs ++ [u] ++ us) := by simpa using h
          rw [ih _ h', List.append_assoc, List.singleton_append]

end StyleSieve.Stylesheet
