import Mathlib.Data.List.Forall2
import StyleSieve.Proofs.Stylesheet.Entries

/-!
# Statements and the groups around them

The statements of a tree, each with the conditional groups that it stands in (`placedIn`).  A group
is known by its position.  A statement in groups of its own (`Wraps`) is placed in these, wherever
they stand; so copies of statements are placed under the same conditions (`placedOf_wraps`).

* `forall_placedIn`: what holds of all that is placed.
* `statementsIn_placed`: what is placed are the statements.
* `placedOf_wraps`: a statement within some conditions.
* `IsCopy`: a node that says one statement again.
-/

namespace StyleSieve.Stylesheet

open Css (Declaration Node Place)
open Run (closing opening settingText)

/-- A conditional group and its position: its number among its siblings, behind the position of the
group that these stand in. -/
structure Group where
  condition : Condition
  position : List Nat
  deriving DecidableEq, Repr

/-- A statement with the groups around it, outermost first. -/
structure Placed where
  groups : List Group
  node : Node

/-- The conditions around a statement, outermost first. -/
def Placed.conditions (p : Placed) : List Condition := p.groups.map (·.condition)

mutual

/-- The statements of a node that stands at a position, in some groups. -/
def placedOf (groups : List Group) (position : List Nat) : Node → List Placed
  | .declaration _ => []
  | .rule selector declarations start stop => [⟨groups, .rule selector declarations start stop⟩]
  | .atRule name params block children start stop =>
    if block.isSome && Css.AtRule.isGroup name then
      placedIn (groups ++ [⟨⟨name, params⟩, position⟩]) position 0 children
    else [⟨groups, .atRule name params block children start stop⟩]

/-- The statements of some siblings, the first of which has number `k`. -/
def placedIn (groups : List Group) (position : List Nat) : (k : Nat) → List Node → List Placed
  | _, [] => []
  | k, n :: nodes => placedOf groups (position ++ [k]) n ++ placedIn groups position (k + 1) nodes

end

/-- The statements of a stylesheet. -/
def placed (nodes : List Node) : List Placed := placedIn [] [] 0 nodes

/-- A node is a style rule or a global at-rule. -/
def isStatement : Node → Bool
  | .declaration _ => false
  | .rule _ _ _ _ => true
  | .atRule name _ block _ _ _ => !(block.isSome && Css.AtRule.isGroup name)

variable {groups : List Group} {position : List Nat} {k : Nat} {nodes : List Node} {n m : Node}
  {p : Placed} {conditions : List Condition}

/-! ### What is placed -/

theorem placedOf_statement (h : isStatement n = true) :
    placedOf groups position n = [⟨groups, n⟩] := by
  cases n with
  | declaration d => cases h
  | rule selector declarations start stop => rw [placedOf]
  | atRule name params block children start stop =>
      rw [isStatement, Bool.not_eq_true'] at h
      rw [placedOf, h, if_neg Bool.false_ne_true]

/-- What holds of a group holds of all that stands in it. -/
def EntersGroups (P : List Group → Node → Prop) : Prop :=
  ∀ groups position name params source children start stop, Css.AtRule.isGroup name = true →
    P groups (.atRule name params (some source) children start stop) →
      ∀ n ∈ children, P (groups ++ [⟨⟨name, params⟩, position⟩]) n

mutual

theorem forall_placedOf {P : List Group → Node → Prop} (h : EntersGroups P) (groups : List Group)
    (position : List Nat) :
    (n : Node) → P groups n →
      ∀ p ∈ placedOf groups position n, isStatement p.node = true ∧ P p.groups p.node
  | .declaration d => fun _ _ hp => nomatch hp
  | .rule selector declarations start stop => by
    intro hn p hp
    obtain rfl := List.mem_singleton.1 hp
    exact ⟨rfl, hn⟩
  | .atRule name params block children start stop => by
    intro hn p hp
    rw [placedOf] at hp
    split at hp
    case isTrue hgroup =>
      obtain ⟨hblock, hname⟩ := Bool.and_eq_true_iff.1 hgroup
      obtain ⟨source, rfl⟩ := Option.isSome_iff_exists.1 hblock
      exact forall_placedIn h _ position 0 children (h _ _ _ _ _ _ _ _ hname hn) p hp
    case isFalse hgroup =>
      obtain rfl := List.mem_singleton.1 hp
      refine ⟨?_, hn⟩
      rw [isStatement, Bool.eq_false_iff.2 hgroup]
      rfl

/-- What holds of some nodes, and enters groups, holds of the statements that are placed. -/
theorem forall_placedIn {P : List Group → Node → Prop} (h : EntersGroups P) (groups : List Group)
    (position : List Nat) (k : Nat) :
    (nodes : List Node) → (∀ n ∈ nodes, P groups n) →
      ∀ p ∈ placedIn groups position k nodes, isStatement p.node = true ∧ P p.groups p.node
  | [] => fun _ _ hp => nomatch hp
  | n :: nodes => by
    intro hnodes p hp
    obtain ⟨hn, hnodes⟩ := List.forall_mem_cons.1 hnodes
    rcases List.mem_append.1 hp with hp | hp
    · exact forall_placedOf h groups _ n hn p hp
    · exact forall_placedIn h groups position (k + 1) nodes hnodes p hp

end

/-- A statement, in conditional groups. -/
structure Placed.IsProper (p : Placed) : Prop where
  statement : isStatement p.node = true
  groups : ∀ c ∈ p.conditions, Css.AtRule.isGroup c.name = true

/-- What is placed are statements, in conditional groups. -/
theorem isProper_of_mem (h : p ∈ placedIn [] [] k nodes) : p.IsProper := by
  have henters : EntersGroups fun groups _ =>
      ∀ c ∈ groups.map (·.condition), Css.AtRule.isGroup c.name = true := by
    intro groups position name params source children start stop hname hgroups n _
    rw [List.map_append]
    exact List.forall_mem_append.2 ⟨hgroups, List.forall_mem_singleton.2 hname⟩
  obtain ⟨hstatement, hgroups⟩ := forall_placedIn henters [] [] k nodes
    (fun _ _ => List.forall_mem_nil _) p h
  exact ⟨hstatement, hgroups⟩

/-- The statement that is placed, as one of a file. -/
def Placed.statements (file : Nat) (p : Placed) : List Statement :=
  statementsOf file p.conditions p.node

mutual

theorem statementsOf_placed (file : Nat) (groups : List Group) (position : List Nat) :
    (n : Node) → statementsOf file (groups.map (·.condition)) n =
      (placedOf groups position n).flatMap (·.statements file)
  | .declaration d => rfl
  | .rule selector declarations start stop => rfl
  | .atRule name params block children start stop => by
    rw [statementsOf, placedOf]
    split
    · have h := statementsIn_placed file (groups ++ [⟨⟨name, params⟩, position⟩]) position 0
        children
      rwa [List.map_append] at h
    case isFalse h =>
      rw [List.flatMap_singleton, Placed.statements, statementsOf, if_neg h]
      rfl

/-- What is placed are the statements, in order. -/
theorem statementsIn_placed (file : Nat) (groups : List Group) (position : List Nat) (k : Nat) :
    (nodes : List Node) → statementsIn file (groups.map (·.condition)) nodes =
      (placedIn groups position k nodes).flatMap (·.statements file)
  | [] => rfl
  | n :: nodes => by
    rw [statementsIn, placedIn, List.flatMap_append, ← statementsOf_placed file groups _ n,
      ← statementsIn_placed file groups position (k + 1) nodes]

end

/-- Whether a statement has a branch. -/
def Placed.isUsed (p : Placed) : Bool :=
  match p.node with
  | .rule selector _ _ _ => !(Selector.branches selector).isEmpty
  | _ => true

/-- A statement as it is written, without the conditions around it. -/
def coreOf : Node → Text
  | .declaration _ => []
  | .rule selector declarations _ _ =>
    Selector.join (Selector.branches selector) ++
      (opening ++ ((settingsOf declarations).flatMap settingText ++ closing))
  | .atRule name params block _ _ _ =>
    globalText name params ++ block.elim [';'] fun source => opening ++ (' ' :: (source ++ closing))

/-- The line of a statement. -/
def Placed.line (p : Placed) : Text := lineOf p.conditions (coreOf p.node)

/-- What is placed is one statement, with its branches, its conditions and its text. -/
theorem exists_statement (h : isStatement p.node = true) (file : Nat) :
    ∃ u, p.statements file = [u] ∧ u.isUsed = p.isUsed ∧ u.conditions = p.conditions ∧
      u.core = coreOf p.node := by
  obtain ⟨groups, n⟩ := p
  cases n with
  | declaration d => cases h
  | rule selector declarations start stop =>
      refine ⟨_, rfl, ?_, rfl, ?_⟩
      · rw [Statement.isUsed, Statement.rule, List.isEmpty_map]
        rfl
      · rw [Statement.core, if_neg (by exact Bool.false_ne_true), labels_rule]
        rfl
  | atRule name params block children start stop =>
      rw [isStatement, Bool.not_eq_true'] at h
      have hone : Placed.statements file ⟨groups, .atRule name params block children start stop⟩ =
          [.atRule file (groups.map (·.condition)) name params block children start stop] := by
        rw [Placed.statements, statementsOf, h, if_neg Bool.false_ne_true]
        rfl
      refine ⟨_, hone, rfl, rfl, ?_⟩
      rw [Statement.core, if_pos (by rfl)]
      rfl

theorem placedIn_append (groups : List Group) (position : List Nat) (k : Nat) (ns ms : List Node) :
    placedIn groups position k (ns ++ ms) =
      placedIn groups position k ns ++ placedIn groups position (k + ns.length) ms := by
  induction ns generalizing k with
  | nil => rfl
  | cons n ns ih =>
      rw [List.cons_append, placedIn, placedIn, ih, List.append_assoc, List.length_cons,
        Nat.add_right_comm, Nat.add_assoc]

/-! ### Copies -/

/-- Two nodes are the same style rule, or the same at-rule; only places and what does not count in
a block may differ. -/
inductive Alike : Node → Node → Prop where
  | rule {selector selector' : Text} {declarations declarations' : List Declaration}
      {start stop start' stop' : Place}
      (hbranches : Selector.branches selector = Selector.branches selector')
      (hsettings : settingsOf declarations = settingsOf declarations') :
      Alike (.rule selector declarations start stop) (.rule selector' declarations' start' stop')
  | atRule {name params : Text} {block : Option Text} {children children' : List Node}
      {start stop start' stop' : Place}
      (hsettings : settingsOf (declarationsIn children) = settingsOf (declarationsIn children')) :
      Alike (.atRule name params block children start stop)
        (.atRule name params block children' start' stop')

theorem Alike.refl (h : isStatement n = true) : Alike n n := by
  cases n with
  | declaration d => cases h
  | rule => exact .rule rfl rfl
  | atRule => exact .atRule rfl

theorem Alike.isStatement_eq (h : Alike n m) : isStatement n = isStatement m := by
  cases h <;> rfl

/-- Like nodes say the same. -/
theorem Alike.entries (h : Alike n m) (hn : isStatement n = true) (file file' : Nat)
    (conditions : List Condition) :
    (statementsOf file conditions n).map Statement.entry =
      (statementsOf file' conditions m).map Statement.entry := by
  cases h with
  | rule hbranches hsettings =>
      simp only [statementsOf, List.map_cons, List.map_nil, Statement.entry, Statement.rule,
        Block.ofDeclarations, hbranches]
      exact congrArg (fun settings => [Entry.mk _ _ _ settings _]) hsettings
  | atRule hsettings =>
      rw [isStatement, Bool.not_eq_true'] at hn
      simp only [statementsOf, hn, Bool.false_eq_true, if_false, List.map_cons, List.map_nil,
        Statement.entry, Statement.atRule, Block.ofDeclarations]
      exact congrArg (fun settings => [Entry.mk _ _ _ settings _]) hsettings

/-- A node is a statement, alone in groups with some conditions, outermost first. -/
inductive Wraps : List Condition → Node → Node → Prop where
  | here (n : Node) : Wraps [] n n
  | within {c : Condition} {conditions : List Condition} {n m : Node} {source : Text}
      {start stop : Place} (hc : Css.AtRule.isGroup c.name = true) (h : Wraps conditions n m) :
      Wraps (c :: conditions) n (.atRule c.name c.params (some source) [m] start stop)

/-- A statement in groups of its own is placed in these. -/
theorem placedOf_wraps (h : Wraps conditions n m) (hn : isStatement n = true)
    (groups : List Group) (position : List Nat) :
    ∃ inner, placedOf groups position m = [⟨groups ++ inner, n⟩] ∧
      inner.map (·.condition) = conditions ∧ ∀ g ∈ inner, position <+: g.position := by
  induction h generalizing groups position with
  | here n => exact ⟨[], by rw [placedOf_statement hn, List.append_nil], rfl, fun _ h => nomatch h⟩
  | @within c conditions n m source start stop hc h ih =>
      obtain ⟨inner, hplaced, hconditions, hposition⟩ :=
        ih hn (groups ++ [⟨c, position⟩]) (position ++ [0])
      refine ⟨⟨c, position⟩ :: inner, ?_, ?_, ?_⟩
      · rw [placedOf, if_pos (by simp [hc]), placedIn, placedIn, List.append_nil, hplaced,
          List.append_assoc, List.singleton_append]
      · rw [List.map_cons, hconditions]
      · exact List.forall_mem_cons.2 ⟨List.prefix_refl position, fun g hg =>
          (List.prefix_append position [0]).trans (hposition g hg)⟩

/-- A statement in groups of its own is under their conditions. -/
theorem statementsOf_wraps (h : Wraps conditions n m) (file : Nat) (outer : List Condition) :
    statementsOf file outer m = statementsOf file (outer ++ conditions) n := by
  induction h generalizing outer with
  | here n => rw [List.append_nil]
  | within hc h ih =>
      rw [statementsOf, if_pos (by simp [hc]), statementsIn, statementsIn, List.append_nil, ih,
        List.append_assoc, List.singleton_append]

/-- A node that says again what is placed, under the same conditions. -/
def IsCopy (p : Placed) (m : Node) : Prop := ∃ n, Wraps p.conditions n m ∧ Alike n p.node

theorem eq_singleton_of_bareOf (h : Node.bareOf nodes = [m]) : ∃ n, nodes = [n] ∧ n.bare = m := by
  match nodes with
  | [] => cases h
  | [n] => exact ⟨n, rfl, (List.cons.inj h).1⟩
  | _ :: _ :: _ => cases (List.cons.inj h).2

/-- The places of a node do not matter for what it wraps. -/
theorem Wraps.of_bare (h : Wraps conditions n m.bare) :
    ∃ n', Wraps conditions n' m ∧ n'.bare = n := by
  generalize hm : m.bare = m' at h
  induction h generalizing m with
  | here n => exact ⟨m, .here m, hm⟩
  | within hc h ih =>
      cases m with
      | atRule name params block children start stop =>
          rw [Node.bare] at hm
          injection hm with hname hparams hblock hchildren
          obtain ⟨x, rfl, hx⟩ := eq_singleton_of_bareOf hchildren
          obtain ⟨n', hn', hbare⟩ := ih hx
          subst hname hparams hblock
          exact ⟨n', .within hc hn', hbare⟩
      | _ => cases hm

theorem Alike.of_bare (h : Alike n.bare m) : Alike n m := by
  generalize hn : n.bare = n' at h
  cases h with
  | rule hbranches hsettings =>
      cases n with
      | rule selector declarations start stop =>
          rw [Node.bare] at hn
          injection hn with hselector hdeclarations
          subst hselector hdeclarations
          exact .rule hbranches ((settingsOf_bare declarations).symm.trans hsettings)
      | _ => cases hn
  | atRule hsettings =>
      cases n with
      | atRule name params block children start stop =>
          rw [Node.bare] at hn
          injection hn with hname hparams hblock hchildren
          subst hname hparams hblock hchildren
          rw [declarationsIn_bareOf, settingsOf_bare] at hsettings
          exact .atRule hsettings
      | _ => cases hn

/-- The places of copies do not matter. -/
theorem IsCopy.of_bare (h : IsCopy p m.bare) : IsCopy p m := by
  obtain ⟨n, hwraps, halike⟩ := h
  obtain ⟨n', hwraps', rfl⟩ := hwraps.of_bare
  exact ⟨n', hwraps', halike.of_bare⟩

theorem copies_of_bareOf {ps : List Placed} {ms : List Node}
    (h : List.Forall₂ IsCopy ps (Node.bareOf ms)) : List.Forall₂ IsCopy ps ms := by
  induction ms generalizing ps with
  | nil => exact h
  | cons m ms ih =>
      cases h with
      | cons hcopy hrest => exact .cons hcopy.of_bare (ih hrest)

end StyleSieve.Stylesheet
