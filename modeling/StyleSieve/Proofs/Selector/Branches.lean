import Mathlib.Data.List.Induction
import StyleSieve.Proofs.Text.Blank
import StyleSieve.Selector.Branches

/-!
# Branches that are cut again

The branches of a selector list hold no comma that would cut, and where a comma follows all that
they open is closed.  But a blank behind a backslash is trimmed off as any other blank, and then the
backslash keeps the comma behind it from cutting: the branch takes in the comma and what follows it
(`glue`).

* `branches_join_glue`: joined and cut again, branches are glued where they end in an escape.
* `branches_join`: where none but the last does, they are what they were.
-/

namespace StyleSieve.Selector

namespace ListCursor

/-- No comma in a text would cut. -/
def Uncut : ListCursor → Text → Prop
  | _, [] => True
  | s, c :: rest => ¬(s.isOpen = true ∧ c = ',') ∧ Uncut (s.step c) rest

/-- What has been read after a text. -/
def run (s : ListCursor) (t : Text) : ListCursor := t.foldl step s

variable {s : ListCursor} {t u : Text}

theorem eq_of_isOpen (h : s.isOpen = true) : s = {} := by
  obtain ⟨escaped, quote, depth⟩ := s
  simp only [isOpen, Bool.and_eq_true, Bool.not_eq_true', Option.isNone_iff_eq_none,
    beq_iff_eq] at h
  obtain ⟨⟨rfl, rfl⟩, rfl⟩ := h
  rfl

theorem uncut_append : Uncut s (t ++ u) ↔ Uncut s t ∧ Uncut (s.run t) u := by
  induction t generalizing s with
  | nil => simp [Uncut, run]
  | cons c t ih =>
      rw [List.cons_append, Uncut, Uncut, ih, and_assoc]
      rfl

theorem cut_ne_nil (s : ListCursor) (t : Text) : cut s t ≠ [] := by
  cases t with
  | nil => simp [cut]
  | cons c t =>
      rw [cut]
      split
      · simp
      · split <;> simp

/-- A character that does not cut stands at the start of the first part. -/
theorem cut_cons {c : Char} (h : ¬(s.isOpen = true ∧ c = ',')) :
    ∃ part more, cut (s.step c) t = part :: more ∧ cut s (c :: t) = (c :: part) :: more := by
  obtain ⟨part, more, hcut⟩ := List.exists_cons_of_ne_nil (cut_ne_nil (s.step c) t)
  refine ⟨part, more, hcut, ?_⟩
  rw [cut, if_neg (by simpa using h), hcut]

theorem cut_of_uncut (h : Uncut s t) : cut s t = [t] := by
  induction t generalizing s with
  | nil => rfl
  | cons c t ih =>
      obtain ⟨part, more, hcut, hcons⟩ := cut_cons (t := t) h.1
      rw [ih h.2] at hcut
      obtain ⟨rfl, rfl⟩ := List.cons.inj hcut
      exact hcons

/-- The last part of a text reads on into the first part of what follows. -/
theorem cut_append {ps hs : List Text} {l h : Text} (ht : cut s t = ps ++ [l])
    (hu : cut (s.run t) u = h :: hs) : cut s (t ++ u) = ps ++ (l ++ h) :: hs := by
  induction t generalizing s ps l with
  | nil =>
      obtain ⟨rfl, hl⟩ : ps = [] ∧ [] = l := by simpa [cut, List.singleton_eq_append_iff] using ht
      rw [← hl]
      exact hu
  | cons c t ih =>
      by_cases hc : s.isOpen = true ∧ c = ','
      · obtain ⟨hopen, rfl⟩ := hc
        obtain rfl := eq_of_isOpen hopen
        cases ps with
        | nil => exact absurd (List.cons.inj ht).2 (cut_ne_nil {} t)
        | cons p ps =>
            obtain ⟨rfl, hrest⟩ := List.cons.inj ht
            exact congrArg ([] :: ·) (ih hrest hu)
      · obtain ⟨part, more, hcut, hcons⟩ := cut_cons (t := t) hc
        obtain ⟨part', more', hcut', hcons'⟩ := cut_cons (t := t ++ u) hc
        rw [hcons] at ht
        rw [List.cons_append, hcons']
        cases ps with
        | nil =>
            obtain ⟨rfl, rfl⟩ := List.cons.inj ht
            have hrest : cut (s.step c) t = [] ++ [part] := hcut
            obtain ⟨rfl, rfl⟩ := List.cons.inj (hcut'.symm.trans (ih hrest hu))
            rfl
        | cons p ps =>
            obtain ⟨rfl, rfl⟩ := List.cons.inj ht
            have hrest : cut (s.step c) t = part :: ps ++ [l] := hcut
            obtain ⟨rfl, rfl⟩ := List.cons.inj (hcut'.symm.trans (ih hrest hu))
            rfl

/-- A comma behind a text that leaves nothing open cuts. -/
theorem cut_append_comma (hopen : s.run t = {}) (u : Text) :
    cut s (t ++ ',' :: u) = cut s t ++ cut {} u := by
  obtain ⟨ps, l, ht⟩ := (List.eq_nil_or_concat (cut s t)).resolve_left (cut_ne_nil s t)
  rw [List.concat_eq_append] at ht
  have hu : cut (s.run t) (',' :: u) = [] :: cut {} u := by
    rw [hopen]
    rfl
  rw [cut_append ht hu, ht, List.append_nil, List.append_assoc, List.singleton_append]

/-- The parts are what stands between the commas that cut. -/
theorem intercalate_cut (s : ListCursor) (t : Text) : [','].intercalate (cut s t) = t := by
  have hcons (c : Char) (part : Text) (more : List Text) :
      [','].intercalate ((c :: part) :: more) = c :: [','].intercalate (part :: more) := by
    cases more with
    | nil => simp
    | cons next more => simp [List.intercalate_cons_cons]
  induction t generalizing s with
  | nil => rfl
  | cons c t ih =>
      by_cases hc : s.isOpen = true ∧ c = ','
      · obtain ⟨part, more, hcut⟩ := List.exists_cons_of_ne_nil (cut_ne_nil s t)
        have h := ih s
        rw [hcut] at h
        rw [cut, if_pos (by simpa using hc), hcut, List.intercalate_cons_cons, h, hc.2]
        rfl
      · obtain ⟨part, more, hcut, hcut'⟩ := cut_cons (t := t) hc
        rw [hcut', hcons, ← hcut, ih]

/-- The first part is at the start of a text. -/
theorem prefix_of_cut {h : Text} {hs : List Text} (hcut : cut s t = h :: hs) : h <+: t := by
  rw [← intercalate_cut s t, hcut]
  cases hs with
  | nil => simp
  | cons next hs =>
      rw [List.intercalate_cons_cons, List.append_assoc]
      exact List.prefix_append ..

/-- The last part is at the end of a text. -/
theorem suffix_of_cut {ps : List Text} {l : Text} (hcut : cut s t = ps ++ [l]) : l <:+ t := by
  rw [← intercalate_cut s t, hcut]
  clear hcut
  induction ps with
  | nil => simp
  | cons p ps ih =>
      obtain ⟨next, more, hmore⟩ := List.exists_cons_of_ne_nil (l := ps ++ [l]) (by simp)
      rw [List.cons_append, hmore, List.intercalate_cons_cons]
      rw [hmore] at ih
      exact ih.trans (List.suffix_append ..)

/-- Parts of a list: no comma in them cuts, and each that a comma follows leaves nothing open. -/
def Parts : ListCursor → List Text → Prop
  | _, [] => False
  | s, [part] => Uncut s part
  | s, part :: next :: more => Uncut s part ∧ s.run part = {} ∧ Parts {} (next :: more)

theorem parts_cut (s : ListCursor) (t : Text) : Parts s (cut s t) := by
  induction t generalizing s with
  | nil => exact trivial
  | cons c t ih =>
      by_cases hc : s.isOpen = true ∧ c = ','
      · obtain rfl := eq_of_isOpen hc.1
        have hcut : cut {} (c :: t) = [] :: cut {} t := by rw [cut, if_pos (by simpa using hc)]
        obtain ⟨part, more, hrest⟩ := List.exists_cons_of_ne_nil (cut_ne_nil {} t)
        have hparts := ih {}
        rw [hrest] at hparts
        rw [hcut, hrest]
        exact ⟨trivial, rfl, hparts⟩
      · obtain ⟨part, more, hcut, hcons⟩ := cut_cons (t := t) hc
        have hparts := ih (s.step c)
        rw [hcut] at hparts
        rw [hcons]
        cases more with
        | nil => exact ⟨hc, hparts⟩
        | cons next more => exact ⟨⟨hc, hparts.1⟩, hparts.2⟩

/-! ### Blank characters -/

/-- No quote is a blank character. -/
def Sane (s : ListCursor) : Prop := ∀ q ∈ s.quote, Text.isBlank q = false

theorem sane_start : Sane {} := by
  rintro q hq
  cases hq

theorem Sane.step (h : s.Sane) (c : Char) : (s.step c).Sane := by
  obtain ⟨escaped, quote, depth⟩ := s
  have hnone (escaped : Bool) (depth : Nat) : Sane ⟨escaped, none, depth⟩ := fun _ h => nomatch h
  unfold ListCursor.step
  split
  · exact h
  split
  · exact h
  cases quote with
  | some q =>
      dsimp only
      split
      · exact hnone _ _
      · exact h
  | none =>
      dsimp only
      split
      case isTrue hc =>
        rintro q hq
        obtain rfl := Option.some.inj hq
        rcases (by simpa using hc : c = '\x22' ∨ c = '\x27') with rfl | rfl
        all_goals rfl
      case isFalse =>
        split
        · exact hnone _ _
        split
        · exact hnone _ _
        · exact hnone _ _

theorem Sane.run (h : s.Sane) (t : Text) : (s.run t).Sane := by
  induction t generalizing s with
  | nil => exact h
  | cons c t ih => exact ih (h.step c)

/-- A blank character changes nothing but an escape. -/
theorem step_blank (h : s.Sane) {c : Char} (hc : Text.isBlank c = true) :
    s.step c = { s with escaped := false } := by
  have hne {d : Char} (hd : Text.isBlank d = false) : c ≠ d := by
    rintro rfl
    rw [hc] at hd
    cases hd
  obtain ⟨escaped, quote, depth⟩ := s
  cases escaped with
  | true => rfl
  | false =>
      unfold step
      rw [if_neg Bool.false_ne_true, if_neg (hne (by decide))]
      cases quote with
      | some q => exact if_neg (hne (h q rfl))
      | none => simp [hne (d := '\x22') (by decide), hne (d := '\x27') (by decide),
          hne (d := '[') (by decide), hne (d := '(') (by decide), hne (d := ']') (by decide),
          hne (d := ')') (by decide)]

/-- Blank characters change nothing but an escape. -/
theorem run_blank (h : s.Sane) (hs : s.escaped = false) {t : Text}
    (ht : ∀ c ∈ t, Text.isBlank c = true) : s.run t = s := by
  induction t with
  | nil => rfl
  | cons c t ih =>
      obtain ⟨hc, ht⟩ := List.forall_mem_cons.1 ht
      have hstep : s.step c = s := by
        rw [step_blank h hc]
        obtain ⟨escaped, quote, depth⟩ := s
        obtain rfl : escaped = false := hs
        rfl
      rw [run, List.foldl_cons, hstep]
      exact ih ht

/-- A part, without the blank characters around it. -/
theorem Uncut.trim (h : Uncut {} t) : Uncut {} t.trim := by
  obtain ⟨front, back, hfront, -, ht⟩ := Text.exists_eq_trim t
  rw [ht, uncut_append, uncut_append, run_blank sane_start rfl hfront] at h
  exact h.2.1

/-- A part that leaves nothing open leaves nothing open but an escape without the blank characters
around it: that of the first blank behind it. -/
theorem run_trim (h : run {} t = {}) :
    run {} t.trim = {} ∨ run {} t.trim = { escaped := true } := by
  obtain ⟨front, back, hfront, hback, ht⟩ := Text.exists_eq_trim t
  have hrun : run {} t = run (run (run {} front) t.trim) back := by
    simp only [run, ← List.foldl_append]
    rw [List.append_assoc, ← ht]
  rw [run_blank sane_start rfl hfront, h] at hrun
  have hsane := sane_start.run t.trim
  generalize run {} t.trim = s at hrun hsane ⊢
  cases hescape : s.escaped with
  | false =>
      rw [run_blank hsane hescape hback] at hrun
      exact .inl hrun.symm
  | true =>
      cases back with
      | nil =>
          obtain rfl : {} = s := hrun
          cases hescape
      | cons c back =>
          obtain ⟨hc, hback⟩ := List.forall_mem_cons.1 hback
          have hstep := step_blank hsane hc
          have hrest : run (s.step c) back = s.step c :=
            run_blank (hsane.step c) (by rw [hstep]) hback
          have hopen : {} = s.step c := hrun.trans hrest
          obtain ⟨escaped, quote, depth⟩ := s
          obtain rfl : escaped = true := hescape
          rw [hstep] at hopen
          obtain ⟨-, rfl, rfl⟩ := ListCursor.mk.inj hopen
          exact .inr rfl

theorem escaped_step (s : ListCursor) (c : Char) :
    (s.step c).escaped = (c == '\\' && !s.escaped) := by
  obtain ⟨escaped, quote, depth⟩ := s
  cases escaped with
  | true => simp [step]
  | false =>
      by_cases hc : c = '\\'
      · simp [step, hc]
      · rw [beq_false_of_ne hc]
        unfold step
        rw [if_neg Bool.false_ne_true, if_neg hc]
        split
        · split <;> rfl
        · split
          · rfl
          split
          · rfl
          split <;> rfl

end ListCursor

open ListCursor (Uncut Parts cut cut_cons cut_of_uncut cut_append_comma)

variable {parts bs : List Text} {b c : Text}

theorem uncut_of_parts (h : Parts {} parts) : ∀ part ∈ parts, Uncut {} part := by
  induction parts with
  | nil => exact fun _ h => nomatch h
  | cons part parts ih =>
      cases parts with
      | nil => exact List.forall_mem_singleton.2 h
      | cons next more => exact List.forall_mem_cons.2 ⟨h.1, ih h.2.2⟩

theorem run_of_parts (h : Parts {} parts) :
    ∀ part ∈ parts.dropLast, ListCursor.run {} part = {} := by
  induction parts with
  | nil => exact fun _ h => nomatch h
  | cons part parts ih =>
      cases parts with
      | nil => exact fun _ h => nomatch h
      | cons next more => exact List.forall_mem_cons.2 ⟨h.2.1, ih h.2.2⟩

theorem join_singleton (b : Text) : join [b] = b := by simp [join, List.intercalate]

theorem join_cons (b c : Text) (bs : List Text) :
    join (b :: c :: bs) = b ++ ',' :: (' ' :: join (c :: bs)) := by
  simp [join, List.intercalate]

/-- Branches are trimmed, none is empty, and no comma cuts them. -/
theorem mem_branches {selector : Text} (h : b ∈ branches selector) :
    b.IsTrimmed ∧ b ≠ [] ∧ Uncut {} b := by
  obtain ⟨hmem, hne⟩ := List.mem_filter.1 h
  obtain ⟨part, hpart, rfl⟩ := List.mem_map.1 hmem
  exact ⟨Text.isTrimmed_trim part, by simpa using hne,
    (uncut_of_parts (ListCursor.parts_cut {} selector) part hpart).trim⟩

/-- Branches that are trimmed and not empty make a list that is. -/
theorem join_spec (h : ∀ c ∈ b :: bs, c.IsTrimmed ∧ c ≠ []) :
    (join (b :: bs)).IsTrimmed ∧ join (b :: bs) ≠ [] := by
  induction bs generalizing b with
  | nil =>
      rw [join_singleton]
      exact h b List.mem_cons_self
  | cons c bs ih =>
      obtain ⟨⟨hb, hne⟩, hbs⟩ := List.forall_mem_cons.1 h
      obtain ⟨hrest, hrestne⟩ := ih hbs
      obtain ⟨d, b, rfl⟩ := List.exists_cons_of_ne_nil hne
      obtain ⟨e, rest, hjoin⟩ := List.exists_cons_of_ne_nil hrestne
      rw [join_cons]
      refine ⟨⟨hb.1, ?_⟩, by simp⟩
      rw [List.getLast?_append, hjoin, List.getLast?_cons_cons, List.getLast?_cons_cons, ← hjoin]
      have hlast : (join (c :: bs)).getLast?.isSome := by rw [hjoin]; simp
      rw [Option.or_of_isSome hlast]
      exact hrest.2

/-! ### Escapes at the end of a branch -/

/-- The text ends with a backslash that is not escaped itself: with an odd number of backslashes. -/
def endsInEscape (t : Text) : Bool := (t.reverse.takeWhile (· == '\\')).length % 2 == 1

theorem endsInEscape_concat (t : Text) (c : Char) :
    endsInEscape (t ++ [c]) = (c == '\\' && !endsInEscape t) := by
  unfold endsInEscape
  rw [List.reverse_append, List.reverse_singleton, List.singleton_append, List.takeWhile_cons]
  by_cases hc : c = '\\'
  · rcases Nat.mod_two_eq_zero_or_one (t.reverse.takeWhile (· == '\\')).length with h | h
    all_goals simp [hc, Nat.add_mod, h]
  · simp [hc]

theorem escaped_run (t : Text) : (ListCursor.run {} t).escaped = endsInEscape t := by
  induction t using List.reverseRecOn with
  | nil => rfl
  | append_singleton t c ih =>
      rw [endsInEscape_concat, ← ih, ← ListCursor.escaped_step]
      simp [ListCursor.run]

/-- Branches as they stand in a selector list: each is trimmed and not empty, no comma cuts it, and
if another follows it leaves nothing open but an escape. -/
structure StandInList (bs : List Text) : Prop where
  isTrimmed : ∀ b ∈ bs, b.IsTrimmed
  ne_nil : ∀ b ∈ bs, b ≠ []
  uncut : ∀ b ∈ bs, Uncut {} b
  run : ∀ b ∈ bs.dropLast, ListCursor.run {} b = { escaped := endsInEscape b }

theorem standInList_branches (list : Text) : StandInList (branches list) := by
  refine ⟨fun b hb => (mem_branches hb).1, fun b hb => (mem_branches hb).2.1,
    fun b hb => (mem_branches hb).2.2, fun b hb => ?_⟩
  have hparts := run_of_parts (ListCursor.parts_cut {} list)
  unfold branches at hb
  rcases List.eq_nil_or_concat (cut {} list) with hnil | ⟨front, last, hcut⟩
  · exact absurd hnil (ListCursor.cut_ne_nil {} list)
  · rw [hcut, List.concat_eq_append] at hparts hb
    rw [List.dropLast_concat] at hparts
    rw [List.map_append, List.filter_append] at hb
    have hmem : b ∈ front.map Text.trim := by
      rw [List.map_singleton, List.filter_cons, List.filter_nil] at hb
      split at hb
      · rw [List.dropLast_concat] at hb
        exact List.filter_sublist.subset hb
      · rw [List.append_nil] at hb
        exact List.filter_sublist.subset ((List.dropLast_sublist _).subset hb)
    obtain ⟨part, hpart, rfl⟩ := List.mem_map.1 hmem
    rw [← escaped_run]
    rcases ListCursor.run_trim (hparts part hpart) with h | h
    all_goals rw [h]

/-- Branches as they are found again in the list that they make.  One that ends in an escape takes
in the comma behind it, and with it the next. -/
def glue : List Text → List Text
  | [] => []
  | [b] => [b]
  | b :: c :: bs => if endsInEscape b then glue (join [b, c] :: bs) else b :: glue (c :: bs)
termination_by bs => bs.length

theorem join_pair (b c : Text) : join [b, c] = b ++ ',' :: ' ' :: c := by
  rw [join_cons, join_singleton]

theorem join_join (b c : Text) (bs : List Text) :
    join (join [b, c] :: bs) = join (b :: c :: bs) := by
  cases bs with
  | nil => simp [join, List.intercalate]
  | cons d bs => simp [join, List.intercalate]

namespace StandInList

theorem tail (h : StandInList (b :: c :: bs)) : StandInList (c :: bs) :=
  ⟨(List.forall_mem_cons.1 h.isTrimmed).2, (List.forall_mem_cons.1 h.ne_nil).2,
    (List.forall_mem_cons.1 h.uncut).2, (List.forall_mem_cons.1 h.run).2⟩

theorem run_head (h : StandInList (b :: c :: bs)) :
    ListCursor.run {} b = { escaped := endsInEscape b } :=
  (List.forall_mem_cons.1 h.run).1

/-- Behind an escape, the comma and the blank that follow a branch leave nothing open. -/
theorem run_join (h : StandInList (b :: c :: bs)) (hb : endsInEscape b = true) :
    ListCursor.run {} (join [b, c]) = ListCursor.run {} c := by
  have hrun : ListCursor.run {} (join [b, c]) =
      ListCursor.run (ListCursor.run {} b) (',' :: ' ' :: c) := by
    rw [join_pair]
    exact List.foldl_append
  rw [hrun, h.run_head, hb]
  rfl

/-- A branch that ends in an escape stands in the list as one with the next. -/
theorem glued (h : StandInList (b :: c :: bs)) (hb : endsInEscape b = true) :
    StandInList (join [b, c] :: bs) := by
  have hpair : ∀ d ∈ [b, c], d.IsTrimmed ∧ d ≠ [] := fun d hd =>
    have hmem : d ∈ b :: c :: bs := (List.sublist_append_left [b, c] bs).subset hd
    ⟨h.isTrimmed d hmem, h.ne_nil d hmem⟩
  have huncut : Uncut {} (join [b, c]) := by
    have hb' := h.uncut b List.mem_cons_self
    have hc := h.tail.uncut c List.mem_cons_self
    rw [join_pair, ListCursor.uncut_append, h.run_head, hb]
    exact ⟨hb', by simp [ListCursor.isOpen], by simp, hc⟩
  refine ⟨List.forall_mem_cons.2 ⟨(join_spec hpair).1, ?_⟩,
    List.forall_mem_cons.2 ⟨(join_spec hpair).2, ?_⟩, List.forall_mem_cons.2 ⟨huncut, ?_⟩, ?_⟩
  · exact fun d hd => h.isTrimmed d (List.mem_cons_of_mem _ (List.mem_cons_of_mem _ hd))
  · exact fun d hd => h.ne_nil d (List.mem_cons_of_mem _ (List.mem_cons_of_mem _ hd))
  · exact fun d hd => h.uncut d (List.mem_cons_of_mem _ (List.mem_cons_of_mem _ hd))
  · cases bs with
    | nil => exact fun _ hd => nomatch hd
    | cons d bs =>
        obtain ⟨hc, hrest⟩ := List.forall_mem_cons.1 h.tail.run
        refine List.forall_mem_cons.2 ⟨?_, hrest⟩
        rw [← escaped_run, h.run_join hb, hc]

end StandInList

theorem branches_cons_blank (t : Text) : branches (' ' :: t) = branches t := by
  obtain ⟨part, more, hcut, hcons⟩ := cut_cons (s := {}) (c := ' ') (t := t) (by simp)
  have hstep : ListCursor.step {} ' ' = {} := rfl
  rw [hstep] at hcut
  rw [branches, branches, hcons, hcut, List.map_cons, List.map_cons, Text.trim_cons rfl part]

/-- A branch that leaves nothing open is cut off by the comma behind it. -/
theorem branches_append_comma (htrim : b.IsTrimmed) (hne : b ≠ []) (huncut : Uncut {} b)
    (hopen : ListCursor.run {} b = {}) (t : Text) : branches (b ++ ',' :: t) = b :: branches t := by
  rw [branches, cut_append_comma hopen, cut_of_uncut huncut, List.singleton_append, List.map_cons,
    Text.trim_of_isTrimmed htrim]
  exact List.filter_cons_of_pos (by simpa using hne)

/-- Joined and cut again, branches are glued where they end in an escape. -/
theorem branches_join_glue (h : StandInList bs) : branches (join bs) = glue bs := by
  fun_induction glue bs with
  | case1 => rfl
  | case2 b =>
      have htrim := Text.trim_of_isTrimmed (h.isTrimmed b List.mem_cons_self)
      have hne := h.ne_nil b List.mem_cons_self
      rw [join_singleton, branches, cut_of_uncut (h.uncut b List.mem_cons_self)]
      simp [htrim, hne]
  | case3 b c bs hb ih => rw [← join_join, ih (h.glued hb)]
  | case4 b c bs hb ih =>
      have hb : endsInEscape b = false := by simpa using hb
      have hopen : ListCursor.run {} b = {} := by rw [h.run_head, hb]
      rw [join_cons, branches_append_comma (h.isTrimmed b List.mem_cons_self)
        (h.ne_nil b List.mem_cons_self) (h.uncut b List.mem_cons_self) hopen, branches_cons_blank,
        ih h.tail]

theorem length_glue_le (bs : List Text) : (glue bs).length ≤ bs.length := by
  fun_induction glue bs with
  | case1 => exact Nat.le_refl 0
  | case2 b => exact Nat.le_refl 1
  | case3 b c bs hb ih => exact Nat.le_trans ih (Nat.le_succ _)
  | case4 b c bs hb ih => exact Nat.succ_le_succ ih

/-- Branches stay apart exactly where none but the last ends in an escape. -/
theorem glue_eq_iff (bs : List Text) :
    glue bs = bs ↔ ∀ b ∈ bs.dropLast, endsInEscape b = false := by
  fun_induction glue bs with
  | case1 => simp
  | case2 b => simp
  | case3 b c bs hb ih =>
      have hlength := length_glue_le (join [b, c] :: bs)
      refine ⟨fun h => ?_, fun h => ?_⟩
      · rw [h] at hlength
        exact absurd hlength (by simp)
      · exact absurd (h b (by simp)) (by simp [hb])
  | case4 b c bs hb ih => simp [ih, hb]

/-- No branch but the last ends with a backslash that is not escaped itself. -/
def keepsCommas (bs : List Text) : Bool := bs.dropLast.all fun b => !(ListCursor.run {} b).escaped

theorem keepsCommas_iff (bs : List Text) :
    keepsCommas bs = true ↔ ∀ b ∈ bs.dropLast, endsInEscape b = false := by
  simp [keepsCommas, escaped_run]

/-- Joined and cut again, branches are what they were. -/
theorem branches_join {selector : Text} (h : keepsCommas (branches selector) = true) :
    branches (join (branches selector)) = branches selector := by
  rw [branches_join_glue (standInList_branches selector), glue_eq_iff, ← keepsCommas_iff]
  exact h

/-- The branches of a list that has some make a list that is trimmed and not empty. -/
theorem join_branches {selector : Text} (h : branches selector ≠ []) :
    (join (branches selector)).IsTrimmed ∧ join (branches selector) ≠ [] := by
  obtain ⟨b, bs, hbs⟩ := List.exists_cons_of_ne_nil h
  rw [hbs]
  refine join_spec fun c hc => ?_
  obtain ⟨htrimmed, hne, -⟩ := mem_branches (hbs ▸ hc)
  exact ⟨htrimmed, hne⟩

end StyleSieve.Selector
