import Mathlib.Data.List.Forall2
import StyleSieve.Proofs.Css.Reads
import StyleSieve.Proofs.Text.Blank

/-!
# Statements that are read back

A statement that is written with a bare name and sealed texts is read as one node, the same at every
place where a statement may stand (`Stands`).

* `Stands.statement`, `Stands.block`: an at-rule with a semicolon, and one with a block.
* `Stands.rule`: a style rule.
* `Stands.group`: a statement in the block of an at-rule.
-/

namespace StyleSieve.Css

open Component (mark curly ended isSealed)

/-- A sealed text in which nothing stands that would end it. -/
def fits (ends : Component → Bool) (t : Text) : Bool := isSealed t && (ended t).all (!ends ·)

/-! ### Up to an end -/

section Ends

variable {ends : Component → Bool} {cs : List Component} {c : Component}

theorem before_append (more : List Component) (hcs : ∀ c ∈ cs, ends c = false)
    (hc : ends c = true) : before ends (cs ++ c :: more) = cs := by
  rw [before, List.takeWhile_append_of_pos (by simpa using hcs),
    List.takeWhile_cons_of_neg (by simpa using hc), List.append_nil]

theorem dropWhile_append (more : List Component) (hcs : ∀ c ∈ cs, ends c = false)
    (hc : ends c = true) : (cs ++ c :: more).dropWhile (fun c => !ends c) = c :: more := by
  rw [List.dropWhile_append_of_pos (by simpa using hcs),
    List.dropWhile_cons_of_neg (by simpa using hc)]

theorem after_append (more : List Component) (hcs : ∀ c ∈ cs, ends c = false)
    (hc : ends c = true) : after ends (cs ++ c :: more) = more := by
  rw [after, dropWhile_append more hcs hc, List.drop_one, List.tail_cons]

end Ends

theorem isSealed_of_fits {ends : Component → Bool} {t : Text} (h : fits ends t = true) :
    isSealed t = true :=
  (Bool.and_eq_true_iff.1 h).1

theorem not_ends_of_fits {ends : Component → Bool} {t : Text} (h : fits ends t = true) :
    ∀ c ∈ ended t, ends c = false := by
  simpa using (Bool.and_eq_true_iff.1 h).2

theorem start_of_mem_ended {t : Text} {c : Component} (h : c ∈ ended t) : c.start = {} := by
  have hmem := (List.dropLast_sublist _).subset h
  rw [Component.bareOf_eq] at hmem
  obtain ⟨d, -, rfl⟩ := List.mem_map.1 hmem
  exact Component.start_bare d

theorem sourceText_ended {t : Text} (h : isSealed t = true) : sourceText (ended t) = t.trim := by
  rw [sourceText, (Component.sealed_spec h).1]

/-! ### Statements -/

/-- A text starts with no space, and is read as a statement where one may stand. -/
structure Stands (level : Level) (t : Text) (n : Node) : Prop where
  head : t.StartsBare
  read : ∃ cs, Reads (fun _ => True) t cs ∧
    ∀ more, nodes level {} (cs ++ more) = n :: nodes level.next {} more

/-- No at-rule of this name is passed over. -/
def isKept (name : Text) : Bool := !Text.sameLetters name "charset".toList

theorem Level.keep_of_isKept {name : Text} (h : isKept name = true) (level : Level) (n : Node) :
    level.keep name n = [n] := by
  have hname : Text.sameLetters name "charset".toList = false := by simpa [isKept] using h
  rw [keep, dropsAtRule, hname, Bool.and_false]
  rfl

section AtRule

variable {name slot : Text} (hname : Name.isBare name = true)
  (hslot : fits Component.endsPrelude slot = true)
  (hblank : slot.head?.all (· == ' ') = true)
include hname hslot hblank

/-- An at-rule up to its block or its semicolon. -/
theorem Reads.atPrelude :
    Reads StopNext ('@' :: (name ++ slot))
      (.leaf ⟨.atKeyword name, '@' :: name, {}⟩ :: ended slot) := by
  refine (Reads.atKeyword hname).append (.of_isSealed (isSealed_of_fits hslot)) ?_
  rintro _ ⟨c, rest, rfl, hc⟩
  cases slot with
  | nil => exact ⟨c, rest, rfl, .inr (.inr hc)⟩
  | cons b slot => exact ⟨b, slot ++ c :: rest, rfl, .inl (by simpa using hblank)⟩

variable (hkept : isKept name = true)
include hkept

/-- An at-rule with a semicolon. -/
theorem Stands.statement (level : Level) :
    Stands level ('@' :: (name ++ slot) ++ [';']) (.atRule name slot.trim none [] {} {}) := by
  refine ⟨⟨'@', _, rfl, by decide⟩, _,
    (Reads.atPrelude hname hslot hblank).append .semicolon fun rest _ => ⟨';', rest, rfl, rfl⟩,
    fun more => ?_⟩
  have hends : (mark .semicolon ';').endsPrelude = true := rfl
  have hend := dropWhile_append more (not_ends_of_fits hslot) hends
  rw [List.append_assoc, List.cons_append, List.singleton_append, nodes_cons_atRule_leaf rfl hend,
    before_append _ (not_ends_of_fits hslot) hends, level.keep_of_isKept hkept,
    sourceText_ended (isSealed_of_fits hslot)]
  rfl

/-- An at-rule with a block. -/
theorem Stands.block (level : Level) {F : Text → Prop} {content : Text} {cs : List Component}
    (hcontent : Reads F content cs) (hF : ∀ rest, F ('}' :: rest)) :
    Stands level ('@' :: (name ++ slot) ++ '{' :: (content ++ ['}']))
      (.atRule name slot.trim (some content.trim) (nodes .group {} cs) {} {}) := by
  refine ⟨⟨'@', _, rfl, by decide⟩, _,
    (Reads.atPrelude hname hslot hblank).append (.block hcontent hF)
      fun rest _ => ⟨'{', _, rfl, rfl⟩, fun more => ?_⟩
  have hends : (curly cs).endsPrelude = true := rfl
  have hend := dropWhile_append more (not_ends_of_fits hslot) hends
  rw [List.append_assoc, List.cons_append, List.singleton_append, nodes_cons_atRule_block rfl hend,
    before_append _ (not_ends_of_fits hslot) hends, level.keep_of_isKept hkept,
    sourceText_ended (isSealed_of_fits hslot), sourceText, hcontent.text]
  rfl

/-- A statement in the block of an at-rule. -/
theorem Stands.group (level : Level) {t : Text} {n : Node} (h : Stands .group t n) :
    Stands level ('@' :: (name ++ slot) ++ '{' :: (' ' :: (t ++ [' ']) ++ ['}']))
      (.atRule name slot.trim (some (Text.trim (' ' :: (t ++ [' '])))) [n] {} {}) := by
  obtain ⟨⟨c, rest, rfl, hc⟩, cs, hread, hnodes⟩ := h
  have hblank' : Level.isGap .group (mark .space ' ') = true := rfl
  have hcontent := (Reads.space (c := ' ') rfl).append
    (hread.append (.space (c := ' ') rfl) fun _ _ => trivial) fun rest _ => hc
  have h := Stands.block hname hslot hblank hkept level hcontent fun rest => rfl
  have hone : nodes .group {} ([mark .space ' '] ++ (cs ++ [mark .space ' '])) = [n] := by
    rw [List.singleton_append, nodes_cons_gap hblank', hnodes, nodes_cons_gap, nodes]
    rfl
  rwa [hone] at h

end AtRule

section Rule

/-- Components start as a style rule does where a statement may stand. -/
def Level.startsRule (level : Level) : List Component → Bool
  | [] => false
  | c :: rest =>
    !level.isGap c && !(c.token?.any fun token => token matches .atKeyword _) &&
      !startsCustomProperty (c :: rest)

variable {level : Level} {c : Component} {cs rest more : List Component}

theorem startsCustomProperty_curly :
    startsCustomProperty (c :: (rest ++ curly cs :: more)) = startsCustomProperty (c :: rest) := by
  have hcolon : (Component.skipBlank (rest ++ curly cs :: more)).head?.any (·.is .colon) =
      (Component.skipBlank rest).head?.any (·.is .colon) := by
    induction rest with
    | nil => rfl
    | cons d rest ih =>
        unfold Component.skipBlank at ih ⊢
        rw [List.cons_append, List.dropWhile_cons, List.dropWhile_cons]
        split
        · exact ih
        · rfl
  simp only [startsCustomProperty, hcolon]

/-- In front of its block a style rule starts as it does alone. -/
theorem Level.StartsRule.of_startsRule (cs more : List Component)
    (h : level.startsRule (c :: rest) = true)
    (hrest : ∀ d ∈ rest, level.endsSelector d = false) :
    level.StartsRule {} c (rest ++ curly cs :: more) := by
  simp only [startsRule, Bool.and_eq_true, Bool.not_eq_true'] at h
  obtain ⟨⟨hgap, hat⟩, hcustom⟩ := h
  refine ⟨hgap, fun name hc => by simp [hc] at hat, ?_, by rw [startsCustomProperty_curly, hcustom]⟩
  cases level with
  | sheet first => rfl
  | group =>
      have hsemi : ∀ d ∈ rest, d.isSemicolon = false := fun d hd =>
        (Bool.or_eq_false_iff.1 (hrest d hd)).1
      have hcurly : (before Component.isSemicolon (rest ++ curly cs :: more)).any
          Component.isCurly = true := by
        rw [before, List.takeWhile_append_of_pos (by simpa using hsemi),
          List.takeWhile_cons_of_pos (by rfl), List.any_append, List.any_cons]
        simp [curly, Component.isCurly]
      unfold declaration?
      split
      · exact if_pos hcurly
      · rfl

/-- A style rule. -/
theorem Stands.rule {slot : Text} (hslot : fits level.endsSelector slot = true)
    (hstart : level.startsRule (ended slot) = true)
    (hhead : slot.StartsBare) {F : Text → Prop} {content : Text} (hcontent : Reads F content cs)
    (hF : ∀ rest, F ('}' :: rest)) :
    Stands level (slot ++ '{' :: (content ++ ['}']))
      (.rule slot.trim (declarations {} cs) {} {}) := by
  have hends : level.endsSelector (curly cs) = true := by cases level <;> rfl
  have hnot := not_ends_of_fits hslot
  have htext := sourceText_ended (isSealed_of_fits hslot)
  refine ⟨hhead.append _, _, (Reads.of_isSealed (isSealed_of_fits hslot)).append
    (.block hcontent hF) fun rest _ => ⟨'{', _, rfl, rfl⟩, fun more => ?_⟩
  rw [List.append_assoc, List.singleton_append]
  have hbare : ∀ c ∈ ended slot, c.start = {} := fun c => start_of_mem_ended
  generalize ended slot = ds at hstart hnot htext hbare
  cases ds with
  | nil => cases hstart
  | cons c rest =>
      have hend := dropWhile_append more hnot hends
      have hrule := Level.StartsRule.of_startsRule cs more hstart
        fun d hd => hnot d (List.mem_cons_of_mem _ hd)
      rw [List.cons_append] at hend ⊢
      rw [nodes_cons_rule_block hrule hend, ← List.cons_append, before_append _ hnot hends, htext,
        hbare c List.mem_cons_self]

end Rule

/-! ### Lines -/

/-- Statements on lines of their own are read one after the other. -/
theorem Stands.lines {α : Type} {text : α → Text} {P : α → Node → Prop} {lines : List α}
    (h : ∀ l ∈ lines, ∀ first, ∃ n, Stands (.sheet first) (text l) n ∧ P l n) (first : Bool) :
    ∃ cs, Reads NoSpaceNext (lines.flatMap fun l => text l ++ ['\n']) cs ∧
      List.Forall₂ P lines (nodes (.sheet first) {} cs) := by
  induction lines generalizing first with
  | nil => exact ⟨[], .nil, by rw [nodes]; exact .nil⟩
  | cons l lines ih =>
      obtain ⟨hl, hlines⟩ := List.forall_mem_cons.1 h
      obtain ⟨n, ⟨-, cs, hread, hnodes⟩, hn⟩ := hl first
      obtain ⟨ds, hreads, hrest⟩ := ih hlines false
      -- the next line starts with no space
      have hnext (rest : Text) (hr : NoSpaceNext rest) :
          NoSpaceNext ((lines.flatMap fun l => text l ++ ['\n']) ++ rest) := by
        cases lines with
        | nil => exact hr
        | cons m lines =>
            obtain ⟨-, ⟨⟨c, t, ht, hc⟩, -⟩, -⟩ := hlines m List.mem_cons_self false
            simpa [NoSpaceNext, ht] using hc
      refine ⟨_, (hread.append (.space (c := '\n') rfl) fun _ _ => trivial).append hreads hnext, ?_⟩
      have hgap : Level.isGap (Level.sheet first).next (mark .space '\n') = true := rfl
      rw [List.append_assoc, hnodes, List.singleton_append, nodes_cons_gap hgap]
      exact .cons hn hrest

/-- The nodes of a stylesheet that is written line by line. -/
theorem Stands.bareOf_ofText {α : Type} {text : α → Text} {P : α → Node → Prop} {lines : List α}
    (h : ∀ l ∈ lines, ∀ first, ∃ n, Stands (.sheet first) (text l) n ∧ P l n) :
    List.Forall₂ P lines
      (Node.bareOf (Node.ofText (lines.flatMap fun l => text l ++ ['\n']))) := by
  obtain ⟨cs, hread, hnodes⟩ := Stands.lines h true
  rwa [Node.ofText, Node.bareOf_nodes, hread.bareOf_ofText rfl]

end StyleSieve.Css
