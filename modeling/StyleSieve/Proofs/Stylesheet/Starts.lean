import StyleSieve.Proofs.Stylesheet.Cover
import StyleSieve.Proofs.Stylesheet.Statements

/-!
# Where statements start

A source has one thing at a place.  So the nodes of a tree start at different places
(`Node.startsIn`), and the blocks of two statements do too: a block starts with its first
declaration, or, if it has none, with its statement.

* `distinct_statementsIn`: the statements of such a tree cover different spans.
* `mem_statementsIn`: a node in conditional groups gives its statements under their conditions.
-/

namespace StyleSieve

namespace Css

mutual

/-- Where the node and all nodes in it start. -/
def Node.starts : Node → List Place
  | .declaration d => [d.start]
  | .rule _ declarations start _ => start :: declarations.map (·.start)
  | .atRule _ _ _ children start _ => start :: Node.startsIn children

/-- Where some nodes and all nodes in them start. -/
def Node.startsIn : List Node → List Place
  | [] => []
  | n :: nodes => n.starts ++ Node.startsIn nodes

end

theorem Node.startsIn_append (ns ms : List Node) :
    startsIn (ns ++ ms) = startsIn ns ++ startsIn ms := by
  induction ns with
  | nil => rfl
  | cons n ns ih => rw [List.cons_append, startsIn, ih, startsIn, List.append_assoc]

/-- A node stands in a tree, in conditional groups that have the given conditions, outermost
first. -/
inductive Node.Within (n : Node) : (conditions : List Condition) → (nodes : List Node) → Prop where
  | here {nodes : List Node} : n ∈ nodes → Within n [] nodes
  | group {name params block : Text} {children nodes : List Node} {start stop : Place}
      {conditions : List Condition} :
      .atRule name params (some block) children start stop ∈ nodes →
        AtRule.isGroup name = true → Within n conditions children →
          Within n (⟨name, params⟩ :: conditions) nodes

theorem Node.Within.mono {n : Node} {conditions : List Condition} {ns ms : List Node}
    (h : n.Within conditions ns) (hsub : ∀ m ∈ ns, m ∈ ms) : n.Within conditions ms := by
  cases h with
  | here hn => exact .here (hsub n hn)
  | group hgroup hname hinner => exact .group (hsub _ hgroup) hname hinner

end Css

namespace Stylesheet

open Css (Declaration Node Place)

variable {file : Nat} {conditions : List Condition}

/-! ### The start of a block -/

/-- A block starts with one of its declarations, or without any with its statement. -/
theorem ofDeclarations_start {declarations : List Declaration} (file : Nat) (start stop : Place)
    (source : Option Text) (h : ∀ d ∈ declarations, d.start.InRange) :
    ∃ p ∈ start :: declarations.map (·.start),
      (Block.ofDeclarations file declarations start stop source).first.start =
        locationOf file p := by
  cases declarations with
  | nil => exact ⟨start, List.mem_cons_self, rfl⟩
  | cons d declarations =>
      have hcover :=
        covers_ofDeclarations file (List.cons_ne_nil d declarations) start stop source h
      obtain ⟨s, hs, hstart⟩ := hcover.start_mem
      obtain ⟨e, he, rfl⟩ := List.mem_map.1 hs
      exact ⟨e.start, List.mem_cons_of_mem _ (List.mem_map_of_mem he), hstart.symm⟩

/-- The declarations in some nodes are nodes in them. -/
theorem start_mem_startsIn (nodes : List Node) {d : Declaration}
    (h : d ∈ declarationsIn nodes) : d.start ∈ Node.startsIn nodes := by
  fun_induction declarationsIn nodes with
  | case1 => cases h
  | case2 e rest ih =>
      rw [Node.startsIn, Node.starts]
      rcases List.mem_cons.1 h with rfl | h
      · exact List.mem_cons_self
      · exact List.mem_cons_of_mem _ (ih h)
  | case3 selector declarations start stop rest ih =>
      rw [Node.startsIn, Node.starts]
      rcases List.mem_append.1 h with h | h
      · exact List.mem_append_left _ (List.mem_cons_of_mem _ (List.mem_map_of_mem h))
      · exact List.mem_append_right _ (ih h)
  | case4 name params block children start stop rest ih =>
      have hmem := ih h
      rw [Node.startsIn_append] at hmem
      rw [Node.startsIn, Node.starts]
      exact List.mem_cons_of_mem _ hmem

/-! ### Statements -/

/-- Where the block of a statement starts. -/
def Statement.anchor (u : Statement) : Location := u.block.first.start

mutual

/-- The block of a statement starts with a node. -/
theorem anchor_statementsOf (conditions : List Condition) (n : Node)
    (hrange : ∀ p ∈ n.starts, p.InRange) :
    ∀ u ∈ statementsOf file conditions n, ∃ p ∈ n.starts, u.anchor = locationOf file p := by
  intro u hu
  cases n with
  | declaration d =>
      rw [statementsOf] at hu
      cases hu
  | rule selector declarations start stop =>
      rw [statementsOf, List.mem_singleton] at hu
      subst hu
      rw [Node.starts] at hrange ⊢
      exact ofDeclarations_start file start stop none fun d hd =>
        hrange _ (List.mem_cons_of_mem _ (List.mem_map_of_mem hd))
  | atRule name params block children start stop =>
      rw [Node.starts] at hrange ⊢
      have hchildren : ∀ p ∈ Node.startsIn children, p.InRange := fun p hp =>
        hrange p (List.mem_cons_of_mem _ hp)
      rw [statementsOf] at hu
      split at hu
      · -- a group has no block of its own
        obtain ⟨p, hp, hanchor⟩ := anchor_statementsIn _ children hchildren u hu
        exact ⟨p, List.mem_cons_of_mem _ hp, hanchor⟩
      · rw [List.mem_singleton] at hu
        subst hu
        have hdeclared : ∀ d ∈ declarationsIn children, d.start ∈ Node.startsIn children :=
          fun d hd => start_mem_startsIn children hd
        obtain ⟨p, hp, hanchor⟩ := ofDeclarations_start file start stop block
          fun d hd => hchildren _ (hdeclared d hd)
        refine ⟨p, ?_, hanchor⟩
        rcases List.mem_cons.1 hp with rfl | hp
        · exact List.mem_cons_self
        · obtain ⟨d, hd, rfl⟩ := List.mem_map.1 hp
          exact List.mem_cons_of_mem _ (hdeclared d hd)

theorem anchor_statementsIn (conditions : List Condition) (nodes : List Node)
    (hrange : ∀ p ∈ Node.startsIn nodes, p.InRange) :
    ∀ u ∈ statementsIn file conditions nodes,
      ∃ p ∈ Node.startsIn nodes, u.anchor = locationOf file p := by
  intro u hu
  cases nodes with
  | nil =>
      rw [statementsIn] at hu
      cases hu
  | cons n nodes =>
      rw [Node.startsIn] at hrange ⊢
      rw [statementsIn] at hu
      rcases List.mem_append.1 hu with hu | hu
      · obtain ⟨p, hp, hanchor⟩ := anchor_statementsOf conditions n
          (fun p hp => hrange p (List.mem_append_left _ hp)) u hu
        exact ⟨p, List.mem_append_left _ hp, hanchor⟩
      · obtain ⟨p, hp, hanchor⟩ := anchor_statementsIn conditions nodes
          (fun p hp => hrange p (List.mem_append_right _ hp)) u hu
        exact ⟨p, List.mem_append_right _ hp, hanchor⟩

end

theorem locationOf_inj {p q : Place} (h : locationOf file p = locationOf file q) : p = q := by
  cases p
  cases q
  cases h
  rfl

mutual

/-- The statements of a node start at different places. -/
theorem nodup_statementsOf (file : Nat) (conditions : List Condition) (n : Node)
    (hstarts : n.starts.Nodup) (hrange : ∀ p ∈ n.starts, p.InRange) :
    ((statementsOf file conditions n).map Statement.anchor).Nodup := by
  cases n with
  | declaration d =>
      rw [statementsOf]
      exact List.nodup_nil
  | rule selector declarations start stop =>
      rw [statementsOf]
      exact List.pairwise_singleton _ _
  | atRule name params block children start stop =>
      rw [Node.starts] at hstarts hrange
      rw [statementsOf]
      split
      · exact nodup_statementsIn file _ children (List.nodup_cons.1 hstarts).2 fun p hp =>
          hrange p (List.mem_cons_of_mem _ hp)
      · exact List.pairwise_singleton _ _

theorem nodup_statementsIn (file : Nat) (conditions : List Condition) (nodes : List Node)
    (hstarts : (Node.startsIn nodes).Nodup) (hrange : ∀ p ∈ Node.startsIn nodes, p.InRange) :
    ((statementsIn file conditions nodes).map Statement.anchor).Nodup := by
  cases nodes with
  | nil =>
      rw [statementsIn]
      exact List.nodup_nil
  | cons n nodes =>
      rw [Node.startsIn] at hstarts hrange
      obtain ⟨hn, hnodes, hdisjoint⟩ := List.nodup_append.1 hstarts
      have hrange₁ : ∀ p ∈ n.starts, p.InRange := fun p hp =>
        hrange p (List.mem_append_left _ hp)
      have hrange₂ : ∀ p ∈ Node.startsIn nodes, p.InRange := fun p hp =>
        hrange p (List.mem_append_right _ hp)
      rw [statementsIn, List.map_append]
      refine List.nodup_append.2 ⟨nodup_statementsOf file conditions n hn hrange₁,
        nodup_statementsIn file conditions nodes hnodes hrange₂, ?_⟩
      -- what starts at one place would be in both parts
      intro a ha b hb e
      obtain ⟨u, hu, rfl⟩ := List.mem_map.1 ha
      obtain ⟨v, hv, rfl⟩ := List.mem_map.1 hb
      obtain ⟨p, hp, hpu⟩ := anchor_statementsOf conditions n hrange₁ u hu
      obtain ⟨q, hq, hqv⟩ := anchor_statementsIn conditions nodes hrange₂ v hv
      exact hdisjoint p hp q hq (locationOf_inj (hpu.symm.trans (e.trans hqv)))

end

/-- Statements of nodes that start at different places cover different spans. -/
theorem distinct_statementsIn {nodes : List Node} (hstarts : (Node.startsIn nodes).Nodup)
    (hrange : ∀ p ∈ Node.startsIn nodes, p.InRange) :
    Distinct (statementsIn file conditions nodes) := by
  have hnodup := nodup_statementsIn file conditions nodes hstarts hrange
  refine (List.pairwise_map.1 hnodup).imp fun {u v} hne => ?_
  rw [← Bool.not_eq_true]
  intro h
  simp only [Span.coincides, Bool.and_eq_true, beq_iff_eq] at h
  exact hne h.1.2

/-- The stylesheet of such nodes has a body for each statement with branches. -/
theorem ofNodes_distinct {nodes : List Node} (hstarts : (Node.startsIn nodes).Nodup)
    (hrange : ∀ p ∈ Node.startsIn nodes, p.InRange) :
    ofNodes file nodes = ofStatements ((statementsIn file [] nodes).filter Statement.isUsed) := by
  rw [ofNodes_eq]
  exact foldl_add [] (distinct_statementsIn hstarts hrange)

/-- A node in conditional groups gives its statements under their conditions. -/
theorem mem_statementsIn {n : Node} {nodes : List Node}
    (h : n.Within conditions nodes) (outer : List Condition) :
    ∀ u ∈ statementsOf file (outer ++ conditions) n, u ∈ statementsIn file outer nodes := by
  induction h generalizing outer with
  | here hn =>
      intro u hu
      rw [List.append_nil] at hu
      rw [statementsIn_eq]
      exact List.mem_flatMap.2 ⟨n, hn, hu⟩
  | @group name params block children nodes start stop conditions hmem hgroup _ ih =>
      intro u hu
      rw [statementsIn_eq]
      refine List.mem_flatMap.2 ⟨_, hmem, ?_⟩
      rw [statementsOf, if_pos (by rw [hgroup]; rfl)]
      exact ih _ u (by rwa [List.append_assoc])

end Stylesheet

end StyleSieve
