import Mathlib.Data.List.Induction
import StyleSieve.Markup.Boundary
import StyleSieve.Proofs.Markup.Mark

/-!
# A matcher finds every boundary

What a boundary of a name is (`Boundary`) says nothing about matchers.  Let `name` be made of
letters.  A matcher that starts idle gives the signal `found` exactly where a boundary ends, so a
stretch of bytes without that signal is one without a boundary (`Quiet`).

* `Matcher.holds_run`: the bytes just read that a match has come past (`Matcher.Holds`).
* `Matcher.found_iff`: the next byte is a find if and only if it ends a boundary.
* `Matcher.lacks_iff`: there is no find if and only if there is no boundary.
* `lacks_append_cons`: a byte that stands in no boundary but at its end parts a stretch in two.

No byte of a name is `<`, so a `<` starts a match in whatever state it is read
(`Matcher.step_less`): a matcher that is led astray misses nothing.
-/

namespace StyleSieve.Markup

/-! ### Boundaries -/

/-- What a boundary starts with. -/
def Side.head : Side → Bytes
  | .opening => [0x3C]
  | .closing => [0x3C, 0x2F]

/-- Two names agree up to case. -/
def SameName (a b : Bytes) : Prop := a.map lowerByte = b.map lowerByte

/-- `t` is a boundary of a name: `<name` or `</name` in any case, and the byte after it. -/
def Boundary (name : Bytes) (side : Side) (t : Bytes) : Prop :=
  ∃ n b, t = side.head ++ n ++ [b] ∧ SameName n name ∧ (Mark.of b).endsName = true

/-- No boundary of the one kind stands anywhere in `s`. -/
def Lacks (name : Bytes) (side : Side) (s : Bytes) : Prop :=
  ∀ t, Boundary name side t → ¬ t <:+: s

/-- No boundary of a name stands anywhere in `s`. -/
def Quiet (name s : Bytes) : Prop := ∀ side, Lacks name side s

/-- A name made of letters. -/
structure IsWord (name : Bytes) : Prop where
  ne_nil : name ≠ []
  letter : ∀ b ∈ name, Mark.of b = .letter

theorem Boundary.eq_snoc {name t : Bytes} {side : Side} (h : Boundary name side t) :
    ∃ n b, t = n ++ [b] := by
  obtain ⟨n, b, rfl, -, -⟩ := h
  exact ⟨_, b, rfl⟩

theorem lacks_nil (name : Bytes) (side : Side) : Lacks name side [] :=
  fun t ht h => by
    obtain ⟨n, b, rfl⟩ := ht.eq_snoc
    simp at h

theorem Lacks.part {name s s' : Bytes} {side : Side} (h : Lacks name side s)
    (hs : s' <:+: s) : Lacks name side s' :=
  fun t ht hi => h t ht (hi.trans hs)

theorem IsWord.of_sameName {a b : Bytes} (hb : IsWord b) (h : SameName a b) : IsWord a := by
  refine ⟨fun e => hb.ne_nil ?_, fun x hx => ?_⟩
  · subst e
    exact List.map_eq_nil_iff.1 h.symm
  · have hx' : lowerByte x ∈ b.map lowerByte := h ▸ List.mem_map_of_mem hx
    obtain ⟨y, hy, e⟩ := List.mem_map.1 hx'
    rw [← Mark.of_lowerByte, ← e, Mark.of_lowerByte]
    exact hb.letter y hy

/-! ### What cannot stand within a boundary -/

/-- Whether a byte stands in no boundary of a word, but at its end. -/
def Mark.divides : Mark → Bool
  | .less | .slash | .letter => false
  | _ => true

section
variable {name : Bytes} {side : Side} {a b : Bytes} {x : UInt8}

/-- What a boundary holds before its last byte does not divide. -/
theorem Boundary.divides_eq_false (h : Boundary name side (a ++ b)) (hw : IsWord name)
    (hb : b ≠ []) (hx : x ∈ a) : (Mark.of x).divides = false := by
  obtain ⟨n, c, e, hn, -⟩ := h
  have ha : a <+: side.head ++ n := by
    refine (List.prefix_concat_iff.1 ⟨b, e⟩).resolve_left fun h => hb ?_
    rwa [h, List.append_right_eq_self] at e
  rcases List.mem_append.1 (ha.subset hx) with hx | hx
  · have hhead : ∀ y ∈ side.head, (Mark.of y).divides = false := by
      cases side <;> decide +kernel
    exact hhead x hx
  · rw [(hw.of_sameName hn).letter x hx]
    rfl

/-- Behind its first byte a boundary holds no `<`. -/
theorem Boundary.ne_less (h : Boundary name side (a ++ b)) (hw : IsWord name)
    (ha : a ≠ []) (hx : x ∈ b) : x ≠ 0x3C := by
  rintro rfl
  obtain ⟨n, c, e, hn, hc⟩ := h
  obtain ⟨y, a, rfl⟩ := List.exists_cons_of_ne_nil ha
  have htail : a ++ b = side.head.tail ++ n ++ [c] := by
    have h := congrArg List.tail e
    cases side <;> exact h
  have hmem : (0x3C : UInt8) ∈ side.head.tail ++ n ++ [c] :=
    htail ▸ List.mem_append_right a hx
  rw [List.mem_append, List.mem_append, List.mem_singleton] at hmem
  rcases hmem with (hmem | hmem) | rfl
  · revert hmem
    cases side <;> decide
  · exact absurd ((hw.of_sameName hn).letter _ hmem) (by decide)
  · exact absurd hc (by decide)

theorem lacks_of_no_less {s : Bytes} (h : 0x3C ∉ s) : Lacks name side s := by
  rintro t ⟨n, c, rfl, -, -⟩ hi
  have hmem : (0x3C : UInt8) ∈ side.head ++ n ++ [c] := by cases side <;> simp [Side.head]
  exact h (hi.subset hmem)

/-- A byte that divides parts what stands before it and with it from what stands behind. -/
theorem lacks_append_cons (hw : IsWord name) (hx : (Mark.of x).divides = true) :
    Lacks name side (a ++ x :: b) ↔ Lacks name side (a ++ [x]) ∧ Lacks name side b := by
  rw [List.append_cons]
  refine ⟨fun h => ⟨h.part (List.prefix_append ..).isInfix, h.part (List.suffix_append ..).isInfix⟩,
    fun ⟨ha, hb⟩ t ht hi => ?_⟩
  rcases List.infix_append_iff.1 hi with hi | hi | ⟨l₁, l₂, rfl, h₁, h₂⟩
  · exact ha t ht hi
  · exact hb t ht hi
  · rcases List.suffix_concat_iff.1 h₁ with rfl | ⟨l, rfl, -⟩
    · exact hb l₂ ht h₂.isInfix
    · cases l₂ with
      | nil => exact ha _ ht (by simpa using h₁.isInfix)
      | cons y l₂ =>
          have hdivides := ht.divides_eq_false hw (List.cons_ne_nil y l₂) (x := x) (by simp)
          exact absurd hdivides (by simp [hx])

end

namespace Matcher

/-! ### What a match has come past -/

/-- `t` is what a match of `name` has come past. -/
inductive Holds (name : Bytes) : Matcher → Bytes → Prop where
  | idle : Holds name .idle []
  | less : Holds name .less [0x3C]
  | slash : Holds name .slash [0x3C, 0x2F]
  | name {side : Side} {n rest : Bytes} :
      n ≠ [] → SameName (n ++ rest) name → Holds name (.name side rest) (side.head ++ n)

variable {name : Bytes} {m : Matcher} {t : Bytes}

theorem holds_restart (name : Bytes) (b : UInt8) :
    ∃ t', t' <:+ [b] ∧ Holds name (restart b) t' := by
  unfold restart
  split
  case isTrue h =>
    exact ⟨[b], List.suffix_refl _, (Mark.of_eq_less b).1 h ▸ .less⟩
  case isFalse => exact ⟨[], List.nil_suffix, .idle⟩

/-- A byte within the name goes on with it, or breaks the match and may start the next one. -/
theorem inName_spec (side : Side) {n rest : Bytes} (h : SameName (n ++ rest) name) (b : UInt8) :
    (∃ rest', inName side rest b = (.name side rest', .growing) ∧
      SameName (n ++ [b] ++ rest') name) ∨
    inName side rest b = (restart b, .broken) := by
  cases rest with
  | nil => exact .inr rfl
  | cons expected rest =>
      simp only [inName]
      split
      case isTrue e =>
        refine .inl ⟨rest, rfl, ?_⟩
        simp only [SameName, List.map_append, List.map_cons, List.map_nil, e] at h ⊢
        rw [← h, List.append_assoc, List.singleton_append]
      case isFalse => exact .inr rfl

/-- A step goes on with the match, ends a boundary, or drops the match; in the last case the byte
may start the next one. -/
theorem step_spec (h : Holds name m t) (b : UInt8) :
    ((m.step name b).2 = .growing ∧ Holds name (m.step name b).1 (t ++ [b])) ∨
    (∃ side, m.step name b = (.idle, .found side) ∧ Boundary name side (t ++ [b])) ∨
    (((m.step name b).2 = .nothing ∨ (m.step name b).2 = .broken) ∧
      (m.step name b).1 = restart b) := by
  -- within the name a byte goes on, or drops the match
  have within (side : Side) (n rest : Bytes) (hn : SameName (n ++ rest) name) :
      ((inName side rest b).2 = .growing ∧
        Holds name (inName side rest b).1 (side.head ++ n ++ [b])) ∨
      (((inName side rest b).2 = .nothing ∨ (inName side rest b).2 = .broken) ∧
        (inName side rest b).1 = restart b) := by
    rcases inName_spec side hn b with ⟨rest', e, h'⟩ | e
    · rw [e, List.append_assoc]
      exact .inl ⟨rfl, .name (List.append_ne_nil_of_right_ne_nil _ (List.cons_ne_nil _ _)) h'⟩
    · rw [e]
      exact .inr ⟨.inr rfl, rfl⟩
  cases h with
  | idle =>
      simp only [step]
      split
      case isTrue e => exact .inl ⟨rfl, (Mark.of_eq_less b).1 e ▸ .less⟩
      case isFalse e => exact .inr (.inr ⟨.inl rfl, (if_neg e).symm⟩)
  | less =>
      simp only [step]
      split
      case isTrue e => exact .inl ⟨rfl, (Mark.of_eq_slash b).1 e ▸ .slash⟩
      case isFalse =>
        rcases within .opening [] name rfl with h | h
        · exact .inl h
        · exact .inr (.inr h)
  | slash =>
      rcases within .closing [] name rfl with h | h
      · exact .inl h
      · exact .inr (.inr h)
  | @name side n rest hne hn =>
      cases rest with
      | nil =>
          simp only [step]
          split
          case isTrue e =>
            rw [List.append_nil] at hn
            exact .inr (.inl ⟨side, rfl, n, b, rfl, hn, e⟩)
          case isFalse => exact .inr (.inr ⟨.inr rfl, rfl⟩)
      | cons expected rest =>
          rcases within side n _ hn with h | h
          · exact .inl h
          · exact .inr (.inr h)

/-! ### Runs -/

theorem run_append (name : Bytes) (m : Matcher) (a b : Bytes) :
    m.run name (a ++ b) =
      (((m.run name a).1.run name b).1, (m.run name a).2 ++ ((m.run name a).1.run name b).2) := by
  induction a generalizing m with
  | nil => rfl
  | cons x a ih => simp only [List.cons_append, run, ih]

theorem run_snoc (name : Bytes) (m : Matcher) (s : Bytes) (b : UInt8) :
    m.run name (s ++ [b]) =
      (((m.run name s).1.step name b).1, (m.run name s).2 ++ [((m.run name s).1.step name b).2]) :=
  run_append name m s [b]

/-- One more byte: what the match has come past is still the last that was read. -/
theorem holds_step {s : Bytes} (h : Holds name m t) (ht : t <:+ s) (b : UInt8) :
    ∃ t', t' <:+ s ++ [b] ∧ Holds name (m.step name b).1 t' := by
  obtain ⟨a, rfl⟩ := ht
  rcases step_spec h b with ⟨-, hg⟩ | ⟨side, e, -⟩ | ⟨-, e⟩
  · exact ⟨t ++ [b], ⟨a, (List.append_assoc ..).symm⟩, hg⟩
  · exact ⟨[], List.nil_suffix, e ▸ .idle⟩
  · obtain ⟨t', ht', h'⟩ := holds_restart name b
    exact ⟨t', ht'.trans (List.suffix_append ..), e ▸ h'⟩

theorem holds_run_from {s : Bytes} (h : Holds name m t) (ht : t <:+ s) (bytes : Bytes) :
    ∃ t', t' <:+ s ++ bytes ∧ Holds name (m.run name bytes).1 t' := by
  induction bytes generalizing m t s with
  | nil => exact ⟨t, by rwa [List.append_nil], h⟩
  | cons b bytes ih =>
      obtain ⟨t', ht', h'⟩ := holds_step h ht b
      rw [List.append_cons]
      exact ih h' ht'

/-- What the match has come past is the last that was read. -/
theorem holds_run (name s : Bytes) :
    ∃ t, t <:+ s ∧ Holds name (run name .idle s).1 t :=
  holds_run_from (s := []) .idle List.nil_suffix s

/-! ### Every find is a boundary -/

/-- A find ends a boundary. -/
theorem boundary_of_find {s : Bytes} {b : UInt8} {side : Side}
    (h : ((run name .idle s).1.step name b).2 = .found side) :
    (run name .idle s).1.step name b = (.idle, .found side) ∧
      ∃ t, t <:+ s ∧ Boundary name side (t ++ [b]) := by
  obtain ⟨t, ht, hm⟩ := holds_run name s
  rcases step_spec hm b with ⟨e, -⟩ | ⟨side', e, hb⟩ | ⟨e, -⟩
  · rw [e] at h
    cases h
  · rw [e] at h
    cases h
    exact ⟨e, t, ht, hb⟩
  · rcases e with e | e
    all_goals
      rw [e] at h
      cases h

/-! ### Every boundary is found -/

/-- No byte of `bytes` is a find, read from state `m` on. -/
def Silent (name : Bytes) (m : Matcher) (bytes : Bytes) : Prop :=
  ∀ side, Signal.found side ∉ (m.run name bytes).2

theorem silent_cons {b : UInt8} {bytes : Bytes} :
    m.Silent name (b :: bytes) ↔
      (∀ side, (m.step name b).2 ≠ .found side) ∧ (m.step name b).1.Silent name bytes := by
  simp only [Silent, run, List.mem_cons, not_or, forall_and, ne_comm]

theorem Silent.part {a s : Bytes} (h : m.Silent name s) (ha : a <+: s) : m.Silent name a := by
  obtain ⟨z, rfl⟩ := ha
  simp only [Silent, run_append, List.mem_append, not_or] at h
  exact fun side => (h side).1

/-- A `<` starts a match in whatever state it is read. -/
theorem step_less (hw : IsWord name) (h : Holds name m t) :
    (m.step name 0x3C).1 = .less ∧ ∀ side, (m.step name 0x3C).2 ≠ .found side := by
  have within {side : Side} {n rest : Bytes} (hn : SameName (n ++ rest) name) :
      inName side rest 0x3C = (.less, .broken) := by
    cases rest with
    | nil => rfl
    | cons expected rest =>
        have hl := (hw.of_sameName hn).letter expected (by simp)
        have hne : lowerByte 0x3C ≠ lowerByte expected := fun e => by
          rw [← Mark.of_lowerByte, ← e] at hl
          exact absurd hl (by decide)
        simp only [inName, if_neg hne]
        rfl
  cases h with
  | idle => exact ⟨rfl, fun _ h => nomatch h⟩
  | less => exact ⟨congrArg Prod.fst (within (n := []) rfl), fun _ h => nomatch
      (congrArg Prod.snd (within (n := []) rfl)).symm.trans h⟩
  | slash => exact ⟨congrArg Prod.fst (within (n := []) rfl), fun _ h => nomatch
      (congrArg Prod.snd (within (n := []) rfl)).symm.trans h⟩
  | @name side n rest hne hn =>
      cases rest with
      | nil => exact ⟨rfl, fun _ h => nomatch h⟩
      | cons expected rest => exact ⟨congrArg Prod.fst (within hn), fun _ h => nomatch
          (congrArg Prod.snd (within hn)).symm.trans h⟩

/-- The match goes on with each byte of `bytes`, read from state `m` on. -/
def Grows (name : Bytes) (m : Matcher) (bytes : Bytes) : Prop :=
  ∀ signal ∈ (m.run name bytes).2, signal = .growing

theorem grows_cons {b : UInt8} {bytes : Bytes} :
    m.Grows name (b :: bytes) ↔
      (m.step name b).2 = .growing ∧ (m.step name b).1.Grows name bytes := by
  simp only [Grows, run, List.forall_mem_cons]

theorem Grows.part {a s : Bytes} (h : m.Grows name s) (ha : a <+: s) : m.Grows name a := by
  obtain ⟨z, rfl⟩ := ha
  simp only [Grows, run_append, List.forall_mem_append] at h
  exact h.1

theorem Grows.silent {bytes : Bytes} (h : m.Grows name bytes) : m.Silent name bytes :=
  fun _ hmem => nomatch h _ hmem

/-- A match goes on while the bytes are those of the name. -/
theorem run_within {side : Side} {n rest : Bytes} (h : SameName n rest) :
    ((Matcher.name side rest).run name n).1 = .name side [] ∧
      (Matcher.name side rest).Grows name n := by
  induction n generalizing rest with
  | nil =>
      rw [List.map_eq_nil_iff.1 h.symm]
      exact ⟨rfl, fun _ h => nomatch h⟩
  | cons b n ih =>
      cases rest with
      | nil => cases h
      | cons expected rest =>
          obtain ⟨hb, hn⟩ := List.cons.inj h
          simp only [grows_cons, run, step, inName, if_pos hb]
          exact ⟨(ih hn).1, trivial, (ih hn).2⟩

/-- Behind its `<` the name of a boundary leads a match to the end of the name. -/
theorem run_less (hw : IsWord name) (side : Side) {n : Bytes} (hn : SameName n name) :
    (less.run name (side.head.tail ++ n)).1 = .name side [] ∧
      less.Grows name (side.head.tail ++ n) := by
  have start (side : Side) (m : Matcher) (hm : ∀ b, Mark.of b = .letter →
      m.step name b = inName side name b) :
      (m.run name n).1 = .name side [] ∧ m.Grows name n := by
    cases n with
    | nil => exact absurd (List.map_eq_nil_iff.1 hn.symm) hw.ne_nil
    | cons b n =>
        have hl := (hw.of_sameName hn).letter b (by simp)
        obtain ⟨expected, rest, hname⟩ := List.exists_cons_of_ne_nil hw.ne_nil
        obtain ⟨hb, hn'⟩ := List.cons.inj (hname ▸ hn : SameName (b :: n) (expected :: rest))
        have hstep : m.step name b = (.name side rest, .growing) := by
          rw [hm b hl, hname]
          simp only [inName, if_pos hb]
        simp only [grows_cons, run, hstep]
        exact ⟨(run_within hn').1, trivial, (run_within hn').2⟩
  cases side with
  | opening => exact start .opening .less fun b hl => by simp [step, hl]
  | closing =>
      have hslash : Matcher.less.step name 0x2F = (.slash, .growing) := rfl
      obtain ⟨hrun, hgrows⟩ := start .closing .slash fun b _ => rfl
      rw [Side.head, List.tail_cons, List.singleton_append, grows_cons, hslash]
      exact ⟨by simp only [run, hslash, hrun], rfl, hgrows⟩

theorem head_append (side : Side) (n : Bytes) :
    side.head ++ n = 0x3C :: (side.head.tail ++ n) := by
  cases side <;> rfl

/-- The name of a boundary leads a match to the end of the name. -/
theorem run_head (hw : IsWord name) (h : Holds name m t) (side : Side) {n : Bytes}
    (hn : SameName n name) :
    (m.run name (side.head ++ n)).1 = .name side [] ∧ m.Silent name (side.head ++ n) := by
  obtain ⟨hless, hsilent⟩ := step_less hw h
  obtain ⟨hrun, hgrows⟩ := run_less hw side hn
  rw [head_append, silent_cons, hless]
  exact ⟨by simp only [run, hless, hrun], hsilent, hgrows.silent⟩

/-- Where there was no match, it goes on with each byte. -/
theorem grows_head (hw : IsWord name) (side : Side) {n : Bytes} (hn : SameName n name) :
    idle.Grows name (side.head ++ n) := by
  rw [head_append, grows_cons]
  exact ⟨rfl, (run_less hw side hn).2⟩

/-- In whatever state a boundary is read, its last byte is a find, and no byte before. -/
theorem find_of_boundary (hw : IsWord name) (h : Holds name m t) {side : Side} {n : Bytes}
    {b : UInt8} (hu : Boundary name side (n ++ [b])) :
    m.Silent name n ∧ (m.run name n).1.step name b = (.idle, .found side) := by
  obtain ⟨n', b', e, hn, hb⟩ := hu
  obtain ⟨rfl, e'⟩ := List.append_inj' e rfl
  obtain rfl := List.singleton_inj.1 e'
  obtain ⟨hrun, hq⟩ := run_head hw h side hn
  refine ⟨hq, ?_⟩
  rw [hrun]
  simp only [step, hb, if_true]

/-- The next byte is a find if and only if it ends a boundary. -/
theorem found_iff (hw : IsWord name) (s : Bytes) (b : UInt8) (side : Side) :
    ((run name .idle s).1.step name b).2 = .found side ↔
      ∃ u, u <:+ s ++ [b] ∧ Boundary name side u := by
  constructor
  · intro h
    obtain ⟨-, t, ⟨a, rfl⟩, hb⟩ := boundary_of_find h
    exact ⟨t ++ [b], ⟨a, (List.append_assoc ..).symm⟩, hb⟩
  · rintro ⟨u, ⟨a, e⟩, hu⟩
    obtain ⟨n, c, rfl⟩ := hu.eq_snoc
    rw [← List.append_assoc] at e
    obtain ⟨rfl, e'⟩ := List.append_inj' e rfl
    obtain rfl := List.singleton_inj.1 e'
    obtain ⟨t, -, ha⟩ := holds_run name a
    rw [run_append, (find_of_boundary hw ha hu).2]

/-- There is no find of the one kind if and only if there is no such boundary. -/
theorem lacks_iff (hw : IsWord name) (side : Side) (s : Bytes) :
    Signal.found side ∉ (run name .idle s).2 ↔ Lacks name side s := by
  constructor
  · rintro h u hu ⟨a, z, rfl⟩
    obtain ⟨n, b, rfl⟩ := hu.eq_snoc
    obtain ⟨t, -, ha⟩ := holds_run name a
    refine h ?_
    rw [run_append, run_append, run_snoc, (find_of_boundary hw ha hu).2]
    simp
  · induction s using List.reverseRecOn with
    | nil => exact fun _ h => nomatch h
    | append_singleton s b ih =>
        intro h hmem
        rw [run_snoc, List.mem_append, List.mem_singleton] at hmem
        rcases hmem with hmem | hmem
        · exact ih (h.part (List.prefix_append ..).isInfix) hmem
        · obtain ⟨u, hs, hu⟩ := (found_iff hw s b side).1 hmem.symm
          exact h u hu hs.isInfix

theorem silent_iff (hw : IsWord name) (s : Bytes) : idle.Silent name s ↔ Quiet name s :=
  forall_congr' fun side => lacks_iff hw side s

/-- A byte that is no find leaves a stretch without boundaries as it is. -/
theorem lacks_snoc (hw : IsWord name) {side : Side} {s : Bytes} {b : UInt8}
    (hs : Lacks name side s) (hb : ((run name .idle s).1.step name b).2 ≠ .found side) :
    Lacks name side (s ++ [b]) := by
  rw [← lacks_iff hw] at hs ⊢
  rw [run_snoc, List.mem_append, List.mem_singleton]
  exact fun h => h.elim hs fun h => hb h.symm

end Matcher

end StyleSieve.Markup
