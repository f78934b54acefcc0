import Mathlib.Data.List.Basic
import StyleSieve.Proofs.Stylesheet.Starts

/-!
# The numbers of bodies

Bodies are numbered from one, in the order in which branches come to use them.  A branch that is
added keeps this (`Numbered.addBranch`): its block is known and has a number, or it gets the next.
So it holds of the stylesheet of any nodes.  Where nodes start at different places, each statement
with branches has a body of its own, and no body is for two (`OneBlockEach`).

* `numbered_ofNodes`: the stylesheet of any nodes is numbered.
* `length_ofNodes_le`: there are no more bodies than nodes.
* `oneBlockEach_ofStatements`: which branches share a body.
* `bodies_are_blocks`: both, for the nodes of a tree.
-/

namespace StyleSieve.Stylesheet

open Css (Node)

variable {s : Stylesheet} {u : Statement} {us : List Statement} {b : Body}

/-! ### One branch, and any number -/

/-- The bodies are numbered in order, and differ. -/
structure Numbered (s : Stylesheet) : Prop where
  /-- From one on, without a gap. -/
  ids : s.bodies.map (·.id) = List.range' 1 s.bodies.length
  /-- In this order branches first use them, and branches use no others. -/
  firstUse : (s.branches.map (·.body)).eraseDups = s.bodies.map (·.id)
  /-- No two cover the same span. -/
  apart : s.bodies.Pairwise fun a b => a.span.coincides b.span = false

theorem numbered_empty : Numbered {} := ⟨rfl, rfl, .nil⟩

namespace Numbered

/-- Branches use the bodies there are, and all of them. -/
theorem mem_ids (h : s.Numbered) {id : BodyId} :
    id ∈ s.branches.map (·.body) ↔ id ∈ s.bodies.map (·.id) := by
  rw [← h.firstUse, List.mem_eraseDups]

/-- A body is found under its number. -/
theorem body?_id (h : s.Numbered) (hb : b ∈ s.bodies) : s.body? b.id = some b := by
  have hnodup : (s.bodies.map (·.id)).Nodup := h.ids ▸ List.nodup_range' 1
  obtain ⟨before, after, hbodies⟩ := List.append_of_mem hb
  rw [hbodies, List.map_append, List.map_cons] at hnodup
  have hnone : before.find? (·.id == b.id) = none := by
    refine List.find?_eq_none.2 fun c hc => ?_
    have hne := (List.nodup_append.1 hnodup).2.2 c.id (List.mem_map_of_mem hc) b.id
      List.mem_cons_self
    simpa using hne
  rw [body?, hbodies, List.find?_append, hnone, Option.none_or]
  exact List.find?_cons_of_pos (beq_self_eq_true b.id)

/-- Every branch finds its body. -/
theorem exists_body (h : s.Numbered) {br : Branch} (hbr : br ∈ s.branches) :
    ∃ body, s.body? br.body = some body := by
  obtain ⟨body, hbody, hid⟩ := List.mem_map.1 (h.mem_ids.1 (List.mem_map_of_mem hbr))
  exact ⟨body, hid ▸ h.body?_id hbody⟩

/-- Every body has a branch. -/
theorem exists_branch (h : s.Numbered) (hb : b ∈ s.bodies) : ∃ br ∈ s.branches, br.body = b.id :=
  List.mem_map.1 (h.mem_ids.2 (List.mem_map_of_mem hb))

/-- A branch for a block that is known uses its body once more; any other brings a body with the
next number. -/
theorem addBranch (h : s.Numbered) (u : Statement) (label : Text × Selector.Parts) :
    (s.addBranch label.1 label.2 u.conditions u.isGlobal u.block).Numbered := by
  cases hfind : s.bodies.find? (fun b => b.span.coincides u.block.span) with
  | some known =>
      rw [addBranch_known hfind]
      refine ⟨h.ids, ?_, h.apart⟩
      have hknown : known.id ∈ s.branches.map (·.body) :=
        h.mem_ids.2 (List.mem_map_of_mem (List.mem_of_find?_eq_some hfind))
      have hold : [known.id].removeAll (s.branches.map (·.body)) = [] := by
        simpa [List.removeAll] using hknown
      have hbody : (u.branch known.id label).body = known.id := rfl
      simp only [List.map_append, List.map_singleton, hbody, List.eraseDups_append, hold,
        List.eraseDups_nil, List.append_nil, h.firstUse]
  | none =>
      rw [addBranch_new hfind]
      have hnew : s.bodies.length + 1 ∉ s.branches.map (·.body) := by
        rw [h.mem_ids, h.ids, List.mem_range'_1]
        omega
      refine ⟨?_, ?_, ?_⟩
      · simp only [List.map_append, h.ids, List.map_singleton, List.length_append,
          List.length_singleton, List.range'_1_concat, Nat.add_comm 1]
      · have hnext : [s.bodies.length + 1].removeAll (s.branches.map (·.body)) =
            [s.bodies.length + 1] := by
          simpa [List.removeAll] using hnew
        have hbody : (u.branch (s.bodies.length + 1) label).body = s.bodies.length + 1 := rfl
        simp only [List.map_append, List.map_singleton, hbody, List.eraseDups_append, hnext,
          h.firstUse]
        rfl
      · refine List.pairwise_append.2 ⟨h.apart, List.pairwise_singleton _ _, fun c hc d hd => ?_⟩
        rw [List.mem_singleton.1 hd]
        exact Bool.not_eq_true _ ▸ List.find?_eq_none.1 hfind c hc

/-- The branches of a statement. -/
theorem add (h : s.Numbered) (u : Statement) : (s.add u).Numbered := by
  rw [Stylesheet.add]
  generalize u.labels = labels
  induction labels generalizing s with
  | nil => exact h
  | cons label labels ih => exact ih (h.addBranch u label)

theorem foldl_add (h : s.Numbered) (us : List Statement) :
    (us.foldl Stylesheet.add s).Numbered := by
  induction us generalizing s with
  | nil => exact h
  | cons u us ih => exact ih (h.add u)

end Numbered

/-- The stylesheet of any nodes is numbered. -/
theorem numbered_ofNodes (file : Nat) (nodes : List Node) : (ofNodes file nodes).Numbered := by
  rw [ofNodes_eq]
  exact numbered_empty.foldl_add _

/-! ### How many bodies there are -/

theorem length_add_le (s : Stylesheet) (u : Statement) :
    (s.add u).bodies.length ≤ s.bodies.length + 1 := by
  cases hused : u.isUsed with
  | false =>
      rw [add_unused s hused]
      exact Nat.le_succ _
  | true =>
      cases hfind : s.bodies.find? (fun b => b.span.coincides u.block.span) with
      | some known =>
          rw [add_known hfind]
          exact Nat.le_succ _
      | none =>
          rw [add_new hused hfind, List.length_append]
          exact Nat.le_refl _

theorem length_foldl_add_le (us : List Statement) (s : Stylesheet) :
    (us.foldl Stylesheet.add s).bodies.length ≤ s.bodies.length + us.length := by
  induction us generalizing s with
  | nil => exact Nat.le_refl _
  | cons u us ih =>
      have hone := length_add_le s u
      have hrest := ih (s.add u)
      rw [List.foldl_cons, List.length_cons]
      omega

mutual

theorem length_statementsOf_le (file : Nat) (conditions : List Condition) :
    (n : Node) → (statementsOf file conditions n).length ≤ n.starts.length
  | .declaration d => Nat.zero_le _
  | .rule selector declarations start stop => Nat.le_add_left 1 _
  | .atRule name params block children start stop => by
    rw [statementsOf, Node.starts, List.length_cons]
    split
    · exact Nat.le_succ_of_le (length_statementsIn_le file _ children)
    · exact Nat.le_add_left 1 _

/-- There are no more statements than nodes. -/
theorem length_statementsIn_le (file : Nat) (conditions : List Condition) :
    (nodes : List Node) → (statementsIn file conditions nodes).length ≤ (Node.startsIn nodes).length
  | [] => Nat.le_refl 0
  | n :: nodes => by
    rw [statementsIn, Node.startsIn, List.length_append, List.length_append]
    exact Nat.add_le_add (length_statementsOf_le file conditions n)
      (length_statementsIn_le file conditions nodes)

end

/-- There are no more bodies than nodes. -/
theorem length_ofNodes_le (file : Nat) (nodes : List Node) :
    (ofNodes file nodes).bodies.length ≤ (Node.startsIn nodes).length := by
  have hbodies := length_foldl_add_le (statementsIn file [] nodes) {}
  rw [← ofNodes_eq, List.length_nil, Nat.zero_add] at hbodies
  exact Nat.le_trans hbodies (length_statementsIn_le file [] nodes)

/-! ### Blocks with a body of their own -/

/-- The statements of some nodes that have a branch. -/
def usedIn (file : Nat) (nodes : List Node) : List Statement :=
  (statementsIn file [] nodes).filter Statement.isUsed

/-- For each branch of some statements, the place of its statement among them. -/
def origins (us : List Statement) : List Nat :=
  us.zipIdx.flatMap fun x => x.1.labels.map fun _ => x.2

/-- Each of some statements has a body of its own, and its branches stand together. -/
structure OneBlockEach (us : List Statement) (s : Stylesheet) : Prop where
  /-- In order, the branches of each statement with the next number, and the body of that number
  with the block of the statement. -/
  eq : s = ofStatements us
  length_origins : (origins us).length = s.branches.length
  /-- Two branches share a body if and only if they are of the same statement. -/
  body_iff : ∀ (i j : Nat) (a b : Branch), s.branches[i]? = some a → s.branches[j]? = some b →
    (a.body = b.body ↔ (origins us)[i]? = (origins us)[j]?)
  /-- Between two branches of a statement there are no others, and they are alike. -/
  together : ∀ (i j k : Nat) (a b c : Branch), i ≤ j → j ≤ k →
    s.branches[i]? = some a → s.branches[j]? = some b → s.branches[k]? = some c →
      a.body = c.body → b.body = a.body ∧ b.isGlobal = a.isGlobal ∧ b.conditions = a.conditions

/-- The number of a branch is the place of its statement, counted from one. -/
theorem bodies_ofStatements (us : List Statement) :
    (ofStatements us).branches.map (·.body) = (origins us).map (· + 1) := by
  have hshift : us.zipIdx 1 = us.zipIdx.map fun x => (x.1, x.2 + 1) := by
    rw [List.zipIdx_eq_map_add]
    exact List.map_congr_left fun x _ => congrArg (x.1, ·) (Nat.add_comm 1 x.2)
  rw [ofStatements, origins, hshift, List.map_flatMap, List.map_flatMap, List.flatMap_map]
  refine List.flatMap_congr fun x _ => ?_
  rw [Statement.branches, List.map_map, List.map_map]
  rfl

theorem getElem?_origins {i : Nat} {a : Branch} (ha : (ofStatements us).branches[i]? = some a) :
    ∃ n, (origins us)[i]? = some n ∧ a.body = n + 1 := by
  have hbody := congrArg (·[i]?) (bodies_ofStatements us)
  simp only [List.getElem?_map, ha, Option.map_some] at hbody
  obtain ⟨n, hn, hsucc⟩ := Option.map_eq_some_iff.1 hbody.symm
  exact ⟨n, hn, hsucc.symm⟩

/-- The numbers of branches never decrease. -/
theorem pairwise_ofStatements (us : List Statement) :
    (ofStatements us).branches.Pairwise fun a b => a.body ≤ b.body := by
  have hincreasing : (us.zipIdx 1).Pairwise fun x y => x.2 < y.2 := by
    have hnumbers : ((us.zipIdx 1).map (·.2)).Pairwise (· < ·) := by
      rw [List.zipIdx_map_snd]
      exact List.pairwise_lt_range' 1
    exact List.pairwise_map.1 hnumbers
  refine List.pairwise_flatMap.2 ⟨fun x _ => ?_, hincreasing.imp fun hlt a ha b hb => ?_⟩
  · exact List.pairwise_map.2 (List.pairwise_of_forall fun _ _ => Nat.le_refl _)
  · obtain ⟨_, -, rfl⟩ := List.mem_map.1 ha
    obtain ⟨_, -, rfl⟩ := List.mem_map.1 hb
    exact Nat.le_of_lt hlt

/-- Branches of one body are branches of one statement. -/
theorem alike_of_body {a b : Branch} (ha : a ∈ (ofStatements us).branches)
    (hb : b ∈ (ofStatements us).branches) (hbody : b.body = a.body) :
    b.isGlobal = a.isGlobal ∧ b.conditions = a.conditions := by
  obtain ⟨⟨u, n⟩, hu, ha⟩ := List.mem_flatMap.1 ha
  obtain ⟨⟨v, m⟩, hv, hb⟩ := List.mem_flatMap.1 hb
  obtain ⟨_, -, rfl⟩ := List.mem_map.1 ha
  obtain ⟨_, -, rfl⟩ := List.mem_map.1 hb
  obtain rfl : m = n := hbody
  have huv : u = v := by
    rw [List.mk_mem_zipIdx_iff_le_and_getElem?_sub] at hu hv
    exact Option.some.inj (hu.2.symm.trans hv.2)
  rw [huv]
  exact ⟨rfl, rfl⟩

theorem oneBlockEach_ofStatements (us : List Statement) : OneBlockEach us (ofStatements us) where
  eq := rfl
  length_origins := by
    simpa using (congrArg List.length (bodies_ofStatements us)).symm
  body_iff i j a b ha hb := by
    obtain ⟨n, hn, han⟩ := getElem?_origins ha
    obtain ⟨m, hm, hbm⟩ := getElem?_origins hb
    rw [han, hbm, hn, hm, Nat.add_left_inj, Option.some_inj]
  together i j k a b c hij hjk ha hb hc hac := by
    have hle {i j : Nat} {a b : Branch} (hij : i ≤ j)
        (ha : (ofStatements us).branches[i]? = some a)
        (hb : (ofStatements us).branches[j]? = some b) : a.body ≤ b.body := by
      obtain ⟨hi, rfl⟩ := List.getElem?_eq_some_iff.1 ha
      obtain ⟨hj, rfl⟩ := List.getElem?_eq_some_iff.1 hb
      rcases Nat.lt_or_eq_of_le hij with hlt | rfl
      · exact List.pairwise_iff_getElem.1 (pairwise_ofStatements us) i j hi hj hlt
      · exact Nat.le_refl _
    have hbody : b.body = a.body := Nat.le_antisymm (hac ▸ hle hjk hb hc) (hle hij ha hb)
    exact ⟨hbody, alike_of_body (List.mem_of_getElem? ha) (List.mem_of_getElem? hb) hbody⟩

/-- **A body is a block.**  Bodies are numbered from one in the order of their first use, each is
found under its number, branches have the bodies there are and every body has a branch, and no two
cover the same span.  They are no more than the nodes, so their numbers fit a word where the number
of nodes does.  Where nodes start at different places, two branches have the same body if and
only if they are branches of the same statement, and such branches stand together under the same
conditions. -/
theorem bodies_are_blocks (file : Nat) (nodes : List Node) :
    let s := ofNodes file nodes
    s.Numbered ∧ s.bodies.length ≤ (Node.startsIn nodes).length ∧
      (∀ b ∈ s.bodies, s.body? b.id = some b ∧ ∃ a ∈ s.branches, a.body = b.id) ∧
      (∀ a ∈ s.branches, ∃ b, s.body? a.body = some b) ∧
      ((Node.startsIn nodes).Nodup → (∀ p ∈ Node.startsIn nodes, p.InRange) →
        OneBlockEach (usedIn file nodes) s) := by
  have h := numbered_ofNodes file nodes
  refine ⟨h, length_ofNodes_le file nodes, fun b hb => ⟨h.body?_id hb, h.exists_branch hb⟩,
    fun a ha => h.exists_body ha, fun hstarts hrange => ?_⟩
  rw [ofNodes_distinct hstarts hrange]
  exact oneBlockEach_ofStatements _

/-- The block of a page, with a margin between its declarations. -/
def pageNodes : List Node :=
  [.declaration ⟨"margin".toList, "0".toList, ⟨9, 8⟩, ⟨9, 17⟩⟩,
    .atRule "top-left".toList [] (some "content: none".toList)
      [.declaration ⟨"content".toList, "none".toList, ⟨9, 31⟩, ⟨9, 44⟩⟩] ⟨9, 19⟩ ⟨9, 44⟩,
    .declaration ⟨"size".toList, "a4".toList, ⟨9, 47⟩, ⟨9, 55⟩⟩]

/-- A statement, rules without declarations in a group and in a group in it, a declaration beside
them, and a page. -/
def printNodes : List Node :=
  [.atRule "layer".toList "base".toList none [] ⟨1, 1⟩ ⟨1, 1⟩,
    .atRule "media".toList "print".toList (some [])
      [.rule ".a, .b".toList [] ⟨3, 3⟩ ⟨3, 12⟩,
        .declaration ⟨"color".toList, "red".toList, ⟨4, 3⟩, ⟨4, 13⟩⟩,
        .atRule "supports".toList "(gap: 0)".toList (some [])
          [.rule ".b, .a".toList [] ⟨6, 5⟩ ⟨6, 14⟩] ⟨5, 3⟩ ⟨7, 3⟩] ⟨2, 1⟩ ⟨8, 1⟩,
    .atRule "page".toList [] (some "margin: 0; @top-left \x7b content: none \x7d size: a4".toList)
      pageNodes ⟨9, 1⟩ ⟨9, 55⟩]

theorem bodies_are_blocks_print :
    (Node.startsIn printNodes).Nodup ∧ (∀ p ∈ Node.startsIn printNodes, p.InRange) ∧
      OneBlockEach (usedIn 0 printNodes) (ofNodes 0 printNodes) :=
  ⟨by decide, by decide, (bodies_are_blocks 0 printNodes).2.2.2.2 (by decide) (by decide)⟩

example : (ofNodes 0 printNodes).branches.map (·.body) = [1, 2, 2, 3, 3, 4] := by decide +kernel

end StyleSieve.Stylesheet
