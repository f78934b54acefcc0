import Mathlib.Data.List.Pairwise
import StyleSieve.Proofs.Css.Places
import StyleSieve.Proofs.Stylesheet.Numbers

/-!
# The walk over a tree

The walk takes nodes from a list of those that wait, and puts the children of a group in front of
them.  So it comes past statements in the order of the recursion over the tree (`statementsIn`), and
past the declarations of a global at-rule in the order of that over its block (`Node.declaredIn`).
The branches of a statement get the number of the body that covers its span, and that body is the
block of the first statement that does (`Settled`).

* `declarationsIn_eq`: the declarations of a block.
* `Settled.add`, `settled_ofNodes`: one statement, and a whole tree.
* `walk_is_recursive`: the stylesheet of any nodes, read off the recursion.
-/

namespace StyleSieve

namespace Css

mutual

/-- The declarations anywhere in a node, in source order. -/
def Node.declared : Node → List Declaration
  | .declaration d => [d]
  | .rule _ declarations _ _ => declarations
  | .atRule _ _ _ children _ _ => Node.declaredIn children

/-- The declarations anywhere in some nodes, in source order. -/
def Node.declaredIn : List Node → List Declaration
  | [] => []
  | n :: nodes => n.declared ++ Node.declaredIn nodes

end

theorem Node.declaredIn_append (ns ms : List Node) :
    declaredIn (ns ++ ms) = declaredIn ns ++ declaredIn ms := by
  induction ns with
  | nil => rfl
  | cons n ns ih => rw [List.cons_append, declaredIn, ih, declaredIn, List.append_assoc]

end Css

namespace Stylesheet

open Css (AtRule.isGroup Declaration Node Place)

variable {s : Stylesheet} {u : Statement} {us : List Statement} {b : Body} {file : Nat}
  {nodes children : List Node} {conditions : List Condition} {name params : Text}
  {source : Option Text} {start stop : Place}

/-! ### The declarations of a block -/

/-- The declarations of a global at-rule are those of the recursion over its block. -/
theorem declarationsIn_eq (nodes : List Node) : declarationsIn nodes = Node.declaredIn nodes := by
  fun_induction declarationsIn nodes with
  | case1 => rfl
  | case2 d rest ih => rw [ih, Node.declaredIn, Node.declared, List.singleton_append]
  | case3 selector declarations start stop rest ih => rw [ih, Node.declaredIn, Node.declared]
  | case4 name params block children start stop rest ih =>
      rw [ih, Node.declaredIn_append, Node.declaredIn, Node.declared]

/-- The settings of a global at-rule are all declarations anywhere in its block. -/
theorem settings_atRule (file : Nat) (conditions : List Condition) (name params : Text)
    (source : Option Text) (children : List Node) (start stop : Place) :
    (Statement.atRule file conditions name params source children start stop).block.settings =
      (Node.declaredIn children).map fun d => ⟨d.property, d.value⟩ := by
  rw [Statement.atRule, Block.ofDeclarations, declarationsIn_eq]

/-- A body has the text of a block, and the declarations anywhere in it. -/
def Body.HoldsAll (b : Body) (source : Option Text) (children : List Node) : Prop :=
  b.source = source ∧
    b.settings = (Node.declaredIn children).map fun d => ⟨d.property, d.value⟩

theorem holdsAll_atRule
    (h : b.toBlock =
      (Statement.atRule file conditions name params source children start stop).block) :
    b.HoldsAll source children := by
  refine ⟨by rw [h]; rfl, ?_⟩
  rw [h]
  exact settings_atRule file conditions name params source children start stop

/-! ### The bodies of statements -/

/-- The number of the body that covers the span of a block.  Where none does it is zero. -/
def numberOf (s : Stylesheet) (block : Block) : BodyId :=
  ((s.bodies.find? fun b => b.span.coincides block.span).map (·.id)).getD 0

/-- The first statement with branches that covers the span of a block. -/
def firstOver (us : List Statement) (block : Block) : Option Statement :=
  us.find? fun u => u.isUsed && u.block.span.coincides block.span

theorem numberOf_eq {block : Block}
    (h : s.bodies.find? (fun b => b.span.coincides block.span) = some b) :
    s.numberOf block = b.id := by
  rw [numberOf, h]
  rfl

theorem coincides_iff {a b : Span} : a.coincides b = true ↔ a = b := by
  cases a
  cases b
  simp [Span.coincides, and_assoc]

theorem firstOver_snoc (us : List Statement) (u : Statement) (block : Block) :
    firstOver (us ++ [u]) block = (firstOver us block).or (firstOver [u] block) :=
  List.find?_append

theorem branches_of_unused (h : u.isUsed = false) (id : BodyId) : u.branches id = [] := by
  rw [Statement.branches, labels_of_unused h, List.map_nil]

/-- A stylesheet that holds some statements. -/
structure Settled (us : List Statement) (s : Stylesheet) : Prop where
  /-- The branches of a statement have the number of the body that covers its span. -/
  branches : s.branches = us.flatMap fun u => u.branches (s.numberOf u.block)
  /-- The body that covers a span is the block of the first statement that does. -/
  blocks : ∀ block : Block,
    (s.bodies.find? fun b => b.span.coincides block.span).map (·.toBlock) =
      (firstOver us block).map (·.block)

theorem settled_empty : Settled [] {} := ⟨rfl, fun _ => rfl⟩

namespace Settled

/-- A statement with branches has a body. -/
theorem exists_body (h : Settled us s) (hu : u ∈ us) (hused : u.isUsed = true) :
    ∃ b, s.bodies.find? (fun b => b.span.coincides u.block.span) = some b := by
  rw [← Option.isSome_iff_exists, ← Option.isSome_map (f := (·.toBlock)), h.blocks,
    Option.isSome_map, firstOver, List.find?_isSome]
  exact ⟨u, hu, by rw [hused, coincides_self, Bool.and_self]⟩

/-- A statement that comes last has the body that was known, or a new one.  The bodies of the others
stay what they are. -/
theorem add (h : Settled us s) (u : Statement) : Settled (us ++ [u]) (s.add u) := by
  cases hused : u.isUsed with
  | false =>
      have hnone (block : Block) : firstOver [u] block = none := by simp [firstOver, hused]
      rw [add_unused s hused]
      refine ⟨?_, fun block => ?_⟩
      · rw [List.flatMap_append, List.flatMap_singleton, branches_of_unused hused,
          List.append_nil]
        exact h.branches
      · rw [firstOver_snoc, hnone, Option.or_none]
        exact h.blocks block
  | true =>
      cases hfind : s.bodies.find? (fun b => b.span.coincides u.block.span) with
      | some known =>
          rw [add_known hfind]
          refine ⟨?_, fun block => ?_⟩
          · rw [List.flatMap_append, List.flatMap_singleton]
            exact congrArg₂ _ h.branches (congrArg u.branches (numberOf_eq hfind).symm)
          · -- what the statement covers is covered already
            rw [firstOver_snoc]
            cases hfirst : firstOver us block with
            | some first => exact (h.blocks block).trans (congrArg _ hfirst)
            | none =>
                have hnone : s.bodies.find? (fun b => b.span.coincides block.span) = none := by
                  simpa [hfirst] using h.blocks block
                have hother : firstOver [u] block = none := by
                  refine List.find?_eq_none.2 (List.forall_mem_singleton.2 fun hcovers => ?_)
                  rw [hused, Bool.true_and, coincides_iff] at hcovers
                  rw [← hcovers, hfind] at hnone
                  cases hnone
                rw [hother]
                exact congrArg _ hnone
      | none =>
          rw [add_new hused hfind]
          let body : Body := { u.block with id := s.bodies.length + 1 }
          let s' : Stylesheet :=
            { branches := s.branches ++ u.branches body.id, bodies := s.bodies ++ [body] }
          have hself : s'.numberOf u.block = body.id := by
            refine numberOf_eq (b := body) ?_
            rw [List.find?_append, hfind, Option.none_or]
            exact List.find?_cons_of_pos (coincides_self u.block.span)
          have hkept : ∀ v ∈ us, v.branches (s.numberOf v.block) =
              v.branches (s'.numberOf v.block) := by
            intro v hv
            cases hv' : v.isUsed with
            | false => rw [branches_of_unused hv', branches_of_unused hv']
            | true =>
                obtain ⟨b, hb⟩ := h.exists_body hv hv'
                have hb' : s'.bodies.find? (fun b => b.span.coincides v.block.span) = some b := by
                  rw [List.find?_append, hb, Option.some_or]
                rw [numberOf_eq hb, numberOf_eq hb']
          refine ⟨?_, fun block => ?_⟩
          · rw [List.flatMap_append, List.flatMap_singleton]
            refine congrArg₂ _ (h.branches.trans (List.flatMap_congr hkept)) ?_
            exact (congrArg u.branches hself).symm
          · rw [List.find?_append, Option.map_or, h.blocks, firstOver_snoc, Option.map_or]
            refine congrArg _ ?_
            simp only [firstOver, List.find?_singleton, hused, Bool.true_and]
            split <;> rfl

theorem foldl_add {vs : List Statement} (h : Settled vs s) (us : List Statement) :
    Settled (vs ++ us) (us.foldl Stylesheet.add s) := by
  induction us generalizing vs s with
  | nil => rwa [List.append_nil]
  | cons u us ih =>
      rw [List.append_cons]
      exact ih (h.add u)

end Settled

/-- The stylesheet of any nodes holds the statements of the tree. -/
theorem settled_ofNodes (file : Nat) (nodes : List Node) :
    Settled (statementsIn file [] nodes) (ofNodes file nodes) := by
  rw [ofNodes_eq]
  exact settled_empty.foldl_add _

/-- Where no two statements cover the same span, the first over a block is its own. -/
theorem firstOver_of_distinct (h : Distinct us) (hu : u ∈ us) (hused : u.isUsed = true) :
    firstOver us u.block = some u := by
  have hsome : (firstOver us u.block).isSome = true := by
    rw [firstOver, List.find?_isSome]
    exact ⟨u, hu, by rw [hused, coincides_self, Bool.and_self]⟩
  obtain ⟨v, hv⟩ := Option.isSome_iff_exists.1 hsome
  have hcovers := List.find?_some hv
  rw [Bool.and_eq_true, coincides_iff] at hcovers
  have hsymm : Std.Symm fun u v : Statement => u.block.span.coincides v.block.span = false := by
    refine ⟨fun x y hxy => ?_⟩
    rw [← Bool.not_eq_true, coincides_iff] at hxy ⊢
    exact fun e => hxy e.symm
  by_contra hne
  have hvu : v ≠ u := fun e => hne (e ▸ hv)
  have hapart := List.Pairwise.forall h (List.mem_of_find?_eq_some hv) hu hvu
  rw [hcovers.2, coincides_self] at hapart
  cases hapart

/-! ### The whole tree -/

/-- A statement with branches has its body under the number of these. -/
theorem body?_numberOf (hs : Settled us s) (hn : s.Numbered) (hu : u ∈ us)
    (hused : u.isUsed = true) :
    ∃ b, s.body? (s.numberOf u.block) = some b ∧
      (firstOver us u.block).map (·.block) = some b.toBlock := by
  obtain ⟨b, hb⟩ := hs.exists_body hu hused
  refine ⟨b, ?_, by rw [← hs.blocks, hb, Option.map_some]⟩
  rw [numberOf_eq hb]
  exact hn.body?_id (List.mem_of_find?_eq_some hb)

/-- Where no two statements cover the same span, each has a body of its own. -/
theorem body?_of_distinct (hs : Settled us s) (hn : s.Numbered) (hdistinct : Distinct us)
    (hu : u ∈ us) (hused : u.isUsed = true) :
    ∃ b, s.body? (s.numberOf u.block) = some b ∧ b.toBlock = u.block := by
  obtain ⟨b, hb, hfirst⟩ := body?_numberOf hs hn hu hused
  rw [firstOver_of_distinct hdistinct hu hused] at hfirst
  exact ⟨b, hb, (Option.some.inj hfirst).symm⟩

/-- An at-rule that is no group has one branch, under the conditions around it. -/
theorem mem_branches_atRule (hs : Settled (statementsIn file [] nodes) s)
    (h : (Node.atRule name params source children start stop).Within conditions nodes)
    (hgroup : (source.isSome && AtRule.isGroup name) = false) :
    ∃ u ∈ statementsIn file [] nodes,
      u = .atRule file conditions name params source children start stop ∧
        (⟨globalText name params, ⟨[], []⟩, conditions, true, s.numberOf u.block⟩ : Branch) ∈
          s.branches := by
  have hmem : Statement.atRule file conditions name params source children start stop ∈
      statementsIn file [] nodes := by
    refine mem_statementsIn h [] _ ?_
    rw [statementsOf, hgroup, if_neg Bool.false_ne_true, List.nil_append]
    exact List.mem_singleton_self _
  refine ⟨_, hmem, rfl, ?_⟩
  rw [hs.branches]
  exact List.mem_flatMap.2 ⟨_, hmem, List.mem_singleton_self _⟩

/-- A global at-rule has the body that is numbered for it: its own block, or else that of another
statement with branches that covers the same span. -/
theorem body?_atRule (hs : Settled (statementsIn file [] nodes) s) (hn : s.Numbered)
    (hu : u ∈ statementsIn file [] nodes)
    (hatRule : u = .atRule file conditions name params source children start stop) :
    ∃ b, s.body? (s.numberOf u.block) = some b ∧
      (b.HoldsAll source children ∨
        ∃ v ∈ statementsIn file [] nodes, v ≠ u ∧ v.isUsed = true ∧ v.block.span = u.block.span ∧
          b.toBlock = v.block) := by
  obtain ⟨b, hb, hfirst⟩ := body?_numberOf hs hn hu (hatRule ▸ rfl)
  obtain ⟨v, hv, hblock⟩ := Option.map_eq_some_iff.1 hfirst
  refine ⟨b, hb, ?_⟩
  by_cases hvu : v = u
  · subst hvu hatRule
    exact .inl (holdsAll_atRule hblock.symm)
  · have hcovers := List.find?_some hv
    rw [Bool.and_eq_true, coincides_iff] at hcovers
    exact .inr ⟨v, List.mem_of_find?_eq_some hv, hvu, hcovers.1, hcovers.2, hblock.symm⟩

/-- Two at-rules over one span, as no text has them: the one is given the block of the other. -/
example :
    let page (size : Text) : Node :=
      .atRule "page".toList [] (some size) [.declaration ⟨size, size, ⟨1, 8⟩, ⟨1, 9⟩⟩] ⟨1, 1⟩ ⟨1, 9⟩
    ((ofNodes 0 [page ['a'], page ['b']]).bodies.map (·.settings)) = [[⟨['a'], ['a']⟩]] := by
  decide +kernel

end Stylesheet

end StyleSieve
