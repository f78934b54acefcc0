import StyleSieve.Proofs.Selector.Branches
import StyleSieve.Stylesheet.OfNodes

/-!
# Rules that are read again

A rule is written with its branches joined, one for each branch of the stylesheet.  What a reader of
that rule adds to a stylesheet is decided by these branches alone.

* `text_addRule`: a rule adds the branches of its selector list, in order.
* `rejoined_branches`: which branches come of the list that is written, and that they are those of
  the rule exactly where none but the last ends in an escape.
-/

namespace StyleSieve.Stylesheet

open Selector (endsInEscape glue join)

theorem text_addBranch (s : Stylesheet) (text : Text) (parts : Selector.Parts)
    (conditions : List Condition) (isGlobal : Bool) (block : Block) :
    (s.addBranch text parts conditions isGlobal block).branches.map (·.text) =
      s.branches.map (·.text) ++ [text] := by
  have hbranches : (s.addBlock block).1.branches = s.branches := by
    unfold addBlock
    split <;> rfl
  have hadd : (s.addBranch text parts conditions isGlobal block).branches =
      (s.addBlock block).1.branches ++
        [{ text, parts, conditions, isGlobal, body := (s.addBlock block).2 }] := rfl
  rw [hadd, hbranches, List.map_append, List.map_singleton]

/-- A rule adds the branches of its selector list, in order. -/
theorem text_addRule (s : Stylesheet) (conditions : List Condition) (list : Text)
    (block : Block) :
    (s.addRule conditions list block).branches.map (·.text) =
      s.branches.map (·.text) ++ Selector.branches list := by
  unfold addRule
  generalize Selector.branches list = bs
  induction bs generalizing s with
  | nil => exact (List.append_nil _).symm
  | cons b bs ih =>
      rw [List.foldl_cons, ih, text_addBranch, List.append_assoc, List.singleton_append]

/-- Two rules add the same to a stylesheet exactly if they have the same branches. -/
theorem addRule_eq_iff (s : Stylesheet) (conditions : List Condition) (list list' : Text)
    (block : Block) :
    s.addRule conditions list block = s.addRule conditions list' block ↔
      Selector.branches list = Selector.branches list' := by
  refine ⟨fun h => ?_, fun h => by rw [addRule, addRule, h]⟩
  have htext := congrArg (fun s : Stylesheet => s.branches.map (·.text)) h
  simp only [text_addRule] at htext
  exact List.append_cancel_left htext

/-- Of the branches of a selector list, joined as they are written in front of a block and cut
again, one that ends in an escape takes in the comma behind it, and with it the next.  The branches
stay what they were, and a reader of the rule that is written adds what the rule itself adds,
exactly where no branch but the last ends in an escape. -/
theorem rejoined_branches (list : Text) :
    Selector.branches (join (Selector.branches list)) = glue (Selector.branches list) ∧
    (Selector.branches (join (Selector.branches list)) = Selector.branches list ↔
      ∀ b ∈ (Selector.branches list).dropLast, endsInEscape b = false) ∧
    ∀ (s : Stylesheet) (conditions : List Condition) (block : Block),
      s.addRule conditions (join (Selector.branches list)) block = s.addRule conditions list block ↔
        ∀ b ∈ (Selector.branches list).dropLast, endsInEscape b = false := by
  have hglue := Selector.branches_join_glue (Selector.standInList_branches list)
  have hiff : Selector.branches (join (Selector.branches list)) = Selector.branches list ↔
      ∀ b ∈ (Selector.branches list).dropLast, endsInEscape b = false := by
    rw [hglue, Selector.glue_eq_iff]
  exact ⟨hglue, hiff, fun s conditions block => (addRule_eq_iff ..).trans hiff⟩

/-- The blank behind a backslash is trimmed off, and of two branches one is left. -/
theorem rejoined_branches_differs :
    Selector.branches (join (Selector.branches ".a\\ , .b".toList)) ≠
      Selector.branches ".a\\ , .b".toList := by
  decide

end StyleSieve.Stylesheet
