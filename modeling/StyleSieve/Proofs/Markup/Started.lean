import StyleSieve.Proofs.Markup.Scanner

/-!
# What a matcher knows of the bytes it has read

A matcher never goes back.  All it keeps of the bytes it has read is how far the last of them have
come into a boundary.

* `Matcher.idle_iff`: there is no match exactly where no end of what was read starts a boundary
  (`Starts`).
* `Matcher.points_run`: what a match has yet to see is the name without some of its first bytes.
* `Matcher.run_exact`: these, and the bytes that end a boundary.

A match that breaks forgets what it has come past.  Nothing is lost with it: a boundary holds no `<`
but its first byte, so of all these bytes only the one that breaks the match can start the next.
-/

namespace StyleSieve.Markup

/-- `t` starts `<name` or `</name`, in any case. -/
def Starts (name t : Bytes) : Prop :=
  ∃ (side : Side) (p : Bytes), p <+: side.head ++ name ∧ SameName t p

/-- The bytes that end the name of a tag: a space of any kind, `/` or `>`. -/
def nameEnds : Bytes := [0x20, 0x09, 0x0A, 0x0C, 0x0D, 0x2F, 0x3E]

theorem Mark.endsName_iff (b : UInt8) : (Mark.of b).endsName = true ↔ b ∈ nameEnds := by
  revert b
  exact forall_byte (by decide +kernel)

/-- What stands in front of a name has no case. -/
theorem eq_of_sameName_head {side : Side} {a : Bytes} (h : SameName a side.head) :
    a = side.head := by
  have less {b : UInt8} (h : lowerByte b = lowerByte 0x3C) : b = 0x3C :=
    (Mark.of_eq_less b).1 (by rw [← Mark.of_lowerByte, h]; rfl)
  have slash {b : UInt8} (h : lowerByte b = lowerByte 0x2F) : b = 0x2F :=
    (Mark.of_eq_slash b).1 (by rw [← Mark.of_lowerByte, h]; rfl)
  cases side with
  | opening =>
      obtain ⟨b, rfl, hb⟩ := List.map_eq_singleton_iff.1 h
      rw [less hb]
      rfl
  | closing =>
      obtain ⟨b, c, rfl, hb, hc⟩ :
          ∃ b c, a = [b, c] ∧ lowerByte b = lowerByte 0x3C ∧ lowerByte c = lowerByte 0x2F := by
        simpa [SameName, Side.head, List.map_eq_cons_iff] using h
      rw [less hb, slash hc]
      rfl

/-- What starts a boundary goes on to one with the same bytes. -/
theorem Starts.exists_name {name t : Bytes} (h : Starts name t) :
    ∃ (side : Side) (n : Bytes), SameName n name ∧ t <+: side.head ++ n := by
  obtain ⟨side, p, ⟨r, hr⟩, ht⟩ := h
  have hsame : (t ++ r).map lowerByte = side.head.map lowerByte ++ name.map lowerByte := by
    rw [List.map_append, ht, ← List.map_append, hr, List.map_append]
  obtain ⟨a, n, hsplit, ha, hn⟩ := List.map_eq_append_iff.1 hsame
  refine ⟨side, n, hn, r, ?_⟩
  rw [hsplit, eq_of_sameName_head ha]

namespace Matcher

variable {name : Bytes} {m : Matcher} {t : Bytes}

/-! ### There is a match where there is a start -/

theorem Holds.eq_idle_iff (h : Holds name m t) : m = .idle ↔ t = [] := by
  cases h with
  | idle => simp
  | less => simp
  | slash => simp
  | @name side n rest hne _ => simp [hne]

theorem Holds.starts (h : Holds name m t) : Starts name t := by
  cases h with
  | idle => exact ⟨.opening, [], List.nil_prefix, rfl⟩
  | less => exact ⟨.opening, [0x3C], List.prefix_append .., rfl⟩
  | slash => exact ⟨.closing, [0x3C, 0x2F], List.prefix_append .., rfl⟩
  | @name side n rest _ hn =>
      obtain ⟨p, r, hname, hp, -⟩ := List.map_eq_append_iff.1 (hn.symm.trans List.map_append)
      refine ⟨side, side.head ++ p, ?_, ?_⟩
      · rw [hname, ← List.append_assoc]
        exact List.prefix_append ..
      · rw [SameName, List.map_append, List.map_append, hp]

/-- A match that goes on with each byte comes past them all. -/
theorem Grows.holds {bytes : Bytes} (hg : m.Grows name bytes) (h : Holds name m t) :
    Holds name (m.run name bytes).1 (t ++ bytes) := by
  induction bytes generalizing m t with
  | nil => rwa [List.append_nil]
  | cons b bytes ih =>
      obtain ⟨hb, hbytes⟩ := grows_cons.1 hg
      rcases step_spec h b with ⟨-, hnext⟩ | ⟨side, e, -⟩ | ⟨e, -⟩
      · rw [List.append_cons]
        exact ih hbytes hnext
      · rw [e] at hb
        cases hb
      · rw [hb] at e
        rcases e with e | e
        all_goals cases e

/-- In whatever state the start of a boundary is read, there is a match of it behind it. -/
theorem holds_run_starts (hw : IsWord name) {s : Bytes} (h : Holds name m s) (ht : Starts name t)
    (hne : t ≠ []) : Holds name (m.run name t).1 t := by
  obtain ⟨side, n, hn, hprefix⟩ := ht.exists_name
  obtain ⟨b, t, rfl⟩ := List.exists_cons_of_ne_nil hne
  rw [head_append, List.cons_prefix_cons] at hprefix
  obtain ⟨rfl, hprefix⟩ := hprefix
  have hgrows : less.Grows name t := (run_less hw side hn).2.part hprefix
  have hrun : (m.run name (0x3C :: t)).1 = (less.run name t).1 := by
    rw [← (step_less hw h).1]
    rfl
  rw [hrun]
  exact hgrows.holds .less

/-- There is no match exactly where no end of what was read starts a boundary. -/
theorem idle_iff (hw : IsWord name) (s : Bytes) :
    (run name .idle s).1 = .idle ↔ ∀ t, t <:+ s → t ≠ [] → ¬ Starts name t := by
  constructor
  · rintro hidle t ⟨a, rfl⟩ hne ht
    obtain ⟨u, -, ha⟩ := holds_run name a
    rw [run_append] at hidle
    exact hne ((holds_run_starts hw ha ht hne).eq_idle_iff.1 hidle)
  · intro hnone
    obtain ⟨t, ht, h⟩ := holds_run name s
    rw [h.eq_idle_iff]
    by_contra hne
    exact hnone t ht hne h.starts

/-! ### What is left of the name -/

/-- What a match has yet to see of a name is the name without its first bytes, one at least. -/
def Points (name : Bytes) (m : Matcher) : Prop :=
  ∀ side rest, m = .name side rest → ∃ k, 0 < k ∧ k ≤ name.length ∧ rest = name.drop k

theorem points_restart (name : Bytes) (b : UInt8) : Points name (restart b) := by
  intro side rest h
  unfold restart at h
  split at h
  all_goals cases h

/-- Within a name, a match moves on by a byte or starts over. -/
theorem points_inName (side : Side) (k : Nat) (b : UInt8) :
    Points name (inName side (name.drop k) b).1 := by
  unfold inName
  split
  case h_1 expected rest hrest =>
    split
    case isTrue =>
      rintro side' rest' h
      obtain ⟨-, rfl⟩ := Matcher.name.inj h
      have hlt : k < name.length := by
        by_contra hle
        rw [List.drop_eq_nil_of_le (Nat.le_of_not_lt hle)] at hrest
        cases hrest
      refine ⟨k + 1, Nat.succ_pos k, hlt, ?_⟩
      rw [← List.tail_drop, hrest, List.tail_cons]
    case isFalse => exact points_restart name b
  case h_2 => exact points_restart name b

theorem points_step (h : Points name m) (b : UInt8) : Points name (m.step name b).1 := by
  have hidle : Points name .idle := fun _ _ h => nomatch h
  have hless : Points name .less := fun _ _ h => nomatch h
  have hslash : Points name .slash := fun _ _ h => nomatch h
  have hstart (side : Side) : Points name (inName side name b).1 :=
    points_inName side 0 b
  cases m with
  | idle =>
      simp only [step]
      split
      · exact hless
      · exact hidle
  | less =>
      simp only [step]
      split
      · exact hslash
      · exact hstart .opening
  | slash => exact hstart .closing
  | name side rest =>
      obtain ⟨k, -, -, hrest⟩ := h side rest rfl
      cases rest with
      | nil =>
          simp only [step]
          split
          · exact hidle
          · exact points_restart name b
      | cons expected rest =>
          simp only [step]
          rw [hrest]
          exact points_inName side k b

theorem points_run (h : Points name m) (bytes : Bytes) : Points name (m.run name bytes).1 := by
  induction bytes generalizing m with
  | nil => exact h
  | cons b bytes ih => exact ih (points_step h b)

/-! ### The signals of a run -/

/-- The signal of a byte of a run is the one that its step gives. -/
theorem signal_run (before after : Bytes) (b : UInt8) :
    (m.run name (before ++ b :: after)).2[before.length]? =
      some ((m.run name before).1.step name b).2 := by
  induction before generalizing m with
  | nil => rfl
  | cons c before ih => exact ih

/-- The signal of a byte is a find exactly where it ends the name of a boundary, and the name stands
in front of it. -/
theorem signal_found_iff (hw : IsWord name) (before after : Bytes) (b : UInt8) (side : Side) :
    (run name .idle (before ++ b :: after)).2[before.length]? = some (.found side) ↔
      b ∈ nameEnds ∧ ∃ n, SameName n name ∧ side.head ++ n <:+ before := by
  rw [signal_run, Option.some_inj, found_iff hw, ← Mark.endsName_iff]
  constructor
  · rintro ⟨u, ⟨a, hu⟩, n, c, rfl, hn, hc⟩
    rw [← List.append_assoc] at hu
    obtain ⟨hbefore, hb⟩ := List.append_inj' hu rfl
    obtain rfl := List.singleton_inj.1 hb
    exact ⟨hc, n, hn, a, hbefore⟩
  · rintro ⟨hb, n, hn, a, rfl⟩
    exact ⟨side.head ++ n ++ [b], ⟨a, (List.append_assoc ..).symm⟩, n, b, rfl, hn, hb⟩

/-- A matcher of a word that starts without a match signals exactly the bytes behind `<name` or
`</name` that end the name; after any bytes there is no match exactly where no end of them starts
`<name` or `</name`; and a match within the name always stands at one of its bytes or at its
end. -/
theorem run_exact (hw : IsWord name) :
    (∀ (before after : Bytes) (b : UInt8) (side : Side),
      (run name .idle (before ++ b :: after)).2[before.length]? = some (.found side) ↔
        b ∈ nameEnds ∧ ∃ n, SameName n name ∧ side.head ++ n <:+ before) ∧
    ∀ bytes : Bytes,
      ((run name .idle bytes).1 = .idle ↔ ∀ t, t <:+ bytes → t ≠ [] → ¬ Starts name t) ∧
      ∀ (side : Side) (rest : Bytes), (run name .idle bytes).1 = .name side rest →
        ∃ k, 0 < k ∧ k ≤ name.length ∧ rest = name.drop k := by
  refine ⟨signal_found_iff hw, fun bytes => ⟨idle_iff hw bytes, ?_⟩⟩
  exact points_run (m := .idle) (fun _ _ h => nomatch h) bytes

/-- A second `<` breaks the match of the first, and the end tag behind it is found; and where the
bytes end within the next name, there is a match. -/
theorem run_exact_broken :
    IsWord styleName ∧
      (run styleName .idle (Utf8.encode "<</STYLE".toList ++ [0x3E])).2[8]? =
        some (.found .closing) ∧
      (run styleName .idle (Utf8.encode "<sty<".toList)).1 ≠ .idle := by
  obtain ⟨hfound, hidle⟩ := run_exact styleName_isWord
  refine ⟨styleName_isWord, ?_, fun h => ?_⟩
  · refine (hfound (Utf8.encode "<</STYLE".toList) [] 0x3E .closing).2 ⟨by decide, ?_⟩
    exact ⟨Utf8.encode "STYLE".toList, by unfold SameName; decide, [0x3C], by decide⟩
  · exact (hidle _).1.1 h [0x3C] (by decide) (by decide) ⟨.opening, [0x3C], by decide, rfl⟩

end Matcher

end StyleSieve.Markup
