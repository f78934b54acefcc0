import Mathlib.Data.List.Basic
import StyleSieve.Proofs.Css.Flat
import StyleSieve.Proofs.Stylesheet.Starts

/-!
# Where the nodes of a text start

The lexemes of a text start at increasing places, and a node starts with a lexeme of its own.  So no
two nodes of a text start at one place.

* `Lexeme.starts_ofTextFrom`: lexemes start at increasing places.
* `Node.startsIn_sublist`: nodes start where lexemes do.
* `Node.nodup_startsIn`, `Node.inRange_startsIn`: the nodes of a text.
-/

namespace StyleSieve.Css

/-! ### Places -/

namespace Place

/-- By line, then by column. -/
def Precedes (p q : Place) : Prop := p.line < q.line ∨ p.line = q.line ∧ p.column < q.column

variable {p q r : Place}

theorem Precedes.trans (hpq : p.Precedes q) (hqr : q.Precedes r) : p.Precedes r := by
  unfold Precedes at *
  omega

theorem Precedes.ne (h : p.Precedes q) : p ≠ q := by
  rintro rfl
  unfold Precedes at h
  omega

/-- A place is no further from `p` than some text of a length takes it. -/
structure Within (p : Place) (length : Nat) (q : Place) : Prop where
  line : q.line ≤ p.line + length
  column : q.column ≤ p.column + 2 * length
  positive : 1 ≤ q.column

theorem Within.trans {m n : Nat} (hpq : Within p m q) (hqr : Within q n r) :
    Within p (m + n) r := by
  obtain ⟨hline, hcolumn, -⟩ := hpq
  obtain ⟨hline', hcolumn', hpositive⟩ := hqr
  exact ⟨by omega, by omega, hpositive⟩

theorem one_le_units (c : Char) : 1 ≤ units c := by
  unfold units
  split <;> decide

theorem units_le_two (c : Char) : units c ≤ 2 := by
  unfold units
  split <;> decide

/-- Text takes a place further. -/
theorem precedes_after (p : Place) {t : Text} (ht : t ≠ []) : p.Precedes (p.after t) := by
  -- the next place is further, and what is left takes that further still
  have hnext {p q : Place} {t : Text} (hpq : p.Precedes q)
      (ih : t ≠ [] → q.Precedes (q.after t)) : p.Precedes (q.after t) := by
    by_cases ht : t = []
    · subst ht
      exact hpq
    · exact hpq.trans (ih ht)
  fun_induction after p t with
  | case1 => exact absurd rfl ht
  | case2 p rest ih => exact hnext (.inl (Nat.lt_succ_self _)) ih
  | case3 p c rest _ _ ih => exact hnext (.inl (Nat.lt_succ_self _)) ih
  | case4 p c rest _ _ ih =>
      exact hnext (.inr ⟨rfl, Nat.lt_add_of_pos_right (one_le_units c)⟩) ih

theorem within_after (p : Place) (hp : 1 ≤ p.column) (t : Text) :
    Within p t.length (p.after t) := by
  -- one character takes a place by one line at most, or by two columns
  have hstep {p q r : Place} {t : Text} (c : Char) (hpq : Within p 1 q)
      (hqr : Within q t.length r) : Within p (c :: t).length r := by
    have h := hpq.trans hqr
    rwa [Nat.add_comm] at h
  fun_induction after p t with
  | case1 p => exact ⟨Nat.le_refl _, Nat.le_refl _, hp⟩
  | case2 p rest ih =>
      have hline : Within p 1 ⟨p.line + 1, 1⟩ :=
        ⟨Nat.le_refl _, by dsimp only; omega, Nat.le_refl 1⟩
      have h := hstep '\n' hline (ih (Nat.le_refl 1))
      have hle : rest.length + 1 ≤ ('\r' :: '\n' :: rest).length := Nat.le_succ _
      exact ⟨Nat.le_trans h.line (Nat.add_le_add_left hle _),
        Nat.le_trans h.column (Nat.add_le_add_left (Nat.mul_le_mul_left 2 hle) _), h.positive⟩
  | case3 p c rest _ _ ih =>
      exact hstep c ⟨Nat.le_refl _, by dsimp only; omega, Nat.le_refl 1⟩ (ih (Nat.le_refl 1))
  | case4 p c rest _ _ ih =>
      have hunits := units_le_two c
      have hq : Within p 1 { p with column := p.column + units c } :=
        ⟨Nat.le_add_right _ _, Nat.add_le_add_left hunits _, Nat.le_add_right_of_le hp⟩
      exact hstep c hq (ih hq.positive)

end Place

/-! ### Lexemes -/

/-- The lexemes of a text start at increasing places, not far from where the text does. -/
theorem Lexeme.starts_ofTextFrom (p : Place) (hp : 1 ≤ p.column) (t : Text) :
    (ofTextFrom 0 p t).Pairwise (fun l m => l.start.Precedes m.start) ∧
      ∀ l ∈ ofTextFrom 0 p t,
        (l.start = p ∨ p.Precedes l.start) ∧ Place.Within p t.length l.start := by
  induction t using textInduction generalizing p with
  | nil => exact ⟨.nil, fun _ h => nomatch h⟩
  | cons c t ih =>
      have hafter := Place.within_after p hp (c :: t.take (Token.tokenAt c t).2)
      have hnext := Place.precedes_after p (List.cons_ne_nil c (t.take (Token.tokenAt c t).2))
      have hlength : (c :: t.take (Token.tokenAt c t).2).length +
          (t.drop (Token.tokenAt c t).2).length = (c :: t).length := by
        rw [← List.length_append, List.cons_append, List.take_append_drop]
      obtain ⟨hpairs, hrest⟩ := ih _ hafter.positive
      have hfurther : ∀ l ∈ ofTextFrom 0 (p.after (c :: t.take (Token.tokenAt c t).2))
          (t.drop (Token.tokenAt c t).2), p.Precedes l.start := by
        intro l hl
        rcases (hrest l hl).1 with h | h
        · rwa [h]
        · exact hnext.trans h
      rw [ofTextFrom_cons]
      refine ⟨List.pairwise_cons.2 ⟨hfurther, hpairs⟩, List.forall_mem_cons.2 ⟨?_, fun l hl => ?_⟩⟩
      · exact ⟨.inl rfl, Nat.le_add_right _ _, Nat.le_add_right _ _, hp⟩
      · exact ⟨.inr (hfurther l hl), hlength ▸ hafter.trans (hrest l hl).2⟩

/-! ### Nodes -/

open Component (flatOf)

/-- Where the lexemes of some components start. -/
def Component.startsOf (cs : List Component) : List Place := (flatOf cs).map Lexeme.start

open Component (startsOf)

theorem Component.startsOf_append (cs ds : List Component) :
    startsOf (cs ++ ds) = startsOf cs ++ startsOf ds := by
  simp only [startsOf, flatOf_append, List.map_append]

/-- A component starts with its first lexeme. -/
theorem Component.startsOf_cons (c : Component) (rest : List Component) :
    ∃ ps, startsOf (c :: rest) = c.start :: (ps ++ startsOf rest) := by
  cases c with
  | leaf lexeme => exact ⟨[], rfl⟩
  | block opening content closing stop =>
      refine ⟨(flatOf content ++ closing.toList).map Lexeme.start, ?_⟩
      simp [startsOf, flatOf, flat, start, first]

variable {c : Component} {cs rest more : List Component} {ps qs : List Place}

theorem sublist_of_suffix (h : cs <:+ rest) : (startsOf cs).Sublist (startsOf rest) := by
  obtain ⟨before, rfl⟩ := h
  rw [Component.startsOf_append]
  exact List.sublist_append_right _ _

theorem sublist_cons (h : ps.Sublist (startsOf rest)) : ps.Sublist (startsOf (c :: rest)) :=
  h.trans (sublist_of_suffix (List.suffix_cons c rest))

theorem cons_sublist (h : ps.Sublist (startsOf rest)) :
    (c.start :: ps).Sublist (startsOf (c :: rest)) := by
  obtain ⟨qs, hqs⟩ := Component.startsOf_cons c rest
  rw [hqs]
  exact (h.trans (List.sublist_append_right _ _)).cons_cons _

/-- A block, what starts in it and what starts behind it. -/
theorem sublist_block (opening : Lexeme) (closing : Option Lexeme) (stop : Place)
    (hcontent : ps.Sublist (startsOf cs)) (hmore : qs.Sublist (startsOf more)) :
    (opening.start :: (ps ++ qs)).Sublist (startsOf (.block opening cs closing stop :: more)) := by
  have hblock : startsOf (.block opening cs closing stop :: more) =
      opening.start :: (startsOf cs ++ (closing.toList.map Lexeme.start ++ startsOf more)) := by
    simp [startsOf, flatOf, Component.flat]
  rw [hblock]
  exact (hcontent.append (hmore.trans (List.sublist_append_right _ _))).cons_cons _

theorem suffix_after (ends : Component → Bool) (cs : List Component) : after ends cs <:+ cs :=
  (List.drop_suffix 1 _).trans (List.dropWhile_suffix _)

theorem starts_declarations (stop : Place) (cs : List Component) :
    ((declarations stop cs).map (·.start)).Sublist (startsOf cs) := by
  have hafter {ends : Component → Bool} {rest : List Component} {ps : List Place}
      (ih : ps.Sublist (startsOf (after ends rest))) : ps.Sublist (startsOf rest) :=
    ih.trans (sublist_of_suffix (suffix_after ends rest))
  fun_induction declarations stop cs with
  | case1 => exact List.nil_sublist _
  | case2 c rest name _ ih => exact sublist_cons (hafter ih)
  | case3 c rest name _ ih =>
      cases hread : Declaration.read? name c.start stop rest with
      | none => exact sublist_cons (hafter ih)
      | some d =>
          rw [Option.toList_some, List.singleton_append, List.map_cons,
            (Declaration.read?_spec hread).1]
          exact cons_sublist (hafter ih)
  | case4 c rest _ ih | case5 c rest _ ih | case6 c rest _ ih => exact sublist_cons ih
  | case7 c rest _ _ _ _ _ ih => exact sublist_cons (hafter ih)

theorem startsIn_keep (level : Level) (name : Text) (n : Node) :
    (Node.startsIn (level.keep name n)).Sublist n.starts := by
  unfold Level.keep
  split
  · exact List.nil_sublist _
  · rw [Node.startsIn, Node.startsIn, List.append_nil]

theorem startsIn_nodes (level : Level) (stop : Place) (cs : List Component) :
    (Node.startsIn (nodes level stop cs)).Sublist (startsOf cs) := by
  have hsuffix {p : Component → Bool} {rest ended : List Component}
      (h : rest.dropWhile p = ended) : ended <:+ rest := h ▸ List.dropWhile_suffix p
  fun_induction nodes level stop cs with
  | case1 => exact List.nil_sublist _
  | case2 level stop c rest _ ih => exact sublist_cons ih
  | case3 level stop c rest _ name _ params keep h =>
      refine (startsIn_keep level name _).trans ?_
      rw [Node.starts, Node.startsIn]
      exact cons_sublist (List.nil_sublist _)
  | case4 level stop c rest _ name _ params keep lexeme more h ih =>
      rw [Node.startsIn_append]
      have hmore := sublist_cons (c := .leaf lexeme) ih
      have hrest := cons_sublist (c := c) (hmore.trans (sublist_of_suffix (hsuffix h)))
      refine ((startsIn_keep level name _).append (List.Sublist.refl _)).trans ?_
      rwa [Node.starts, Node.startsIn, List.singleton_append]
  | case5 level stop c rest _ name _ params keep opening content closing blockStop more h ih ih' =>
      rw [Node.startsIn_append]
      have hblock := (sublist_block opening closing blockStop ih ih').trans
        (sublist_of_suffix (hsuffix h))
      have hrest := cons_sublist (c := c) (List.sublist_of_cons_sublist hblock)
      refine ((startsIn_keep level name _).append (List.Sublist.refl _)).trans ?_
      rwa [Node.starts, List.cons_append]
  | case6 level stop c rest _ d hd _ ih =>
      rw [Node.startsIn, Node.starts, (Level.declaration?_spec hd).1, List.singleton_append]
      exact cons_sublist (ih.trans (sublist_of_suffix (suffix_after _ rest)))
  | case7 level stop c rest _ _ _ _ ih =>
      exact sublist_cons (ih.trans (sublist_of_suffix (suffix_after _ rest)))
  | case8 => exact List.nil_sublist _
  | case9 level stop c rest _ _ _ lexeme more h _ ih =>
      exact (sublist_cons ih).trans (sublist_of_suffix (hsuffix h))
  | case10 level stop c rest _ _ _ opening content closing blockStop more h _ ih =>
      have hblock := sublist_block opening closing blockStop
        (starts_declarations blockStop content) ih
      rw [Node.startsIn, Node.starts, List.cons_append]
      by_cases hends : level.endsSelector c = true
      · -- the block is the first component
        rw [List.dropWhile_cons_of_neg (by simpa using hends)] at h
        obtain ⟨rfl, rfl⟩ := List.cons.inj h
        exact hblock
      · rw [List.dropWhile_cons_of_pos (by simpa using hends)] at h
        have hrest := hblock.trans (sublist_of_suffix (hsuffix h))
        exact cons_sublist (List.sublist_of_cons_sublist hrest)

/-- The nodes of a text start where lexemes of the text do. -/
theorem Node.startsIn_sublist (t : Text) :
    (startsIn (ofText t)).Sublist ((Lexeme.ofText t).map Lexeme.start) := by
  have h := startsIn_nodes (.sheet true) (({} : Place).after t) (Component.ofText t)
  rwa [startsOf, Component.ofText, Component.flatOf_ofLexemes] at h

/-- No two nodes of a text start at one place. -/
theorem Node.nodup_startsIn (t : Text) : (startsIn (ofText t)).Nodup := by
  refine List.Nodup.sublist (startsIn_sublist t) (List.pairwise_map.2 ?_)
  exact (Lexeme.starts_ofTextFrom {} (Nat.le_refl 1) t).1.imp fun h => h.ne

/-- The nodes of a text that is not too long start where a location can be. -/
theorem Node.inRange_startsIn {t : Text} (h : 2 * t.length < Location.limit) :
    ∀ p ∈ startsIn (ofText t), p.InRange := by
  intro p hp
  obtain ⟨l, hl, rfl⟩ := List.mem_map.1 ((startsIn_sublist t).subset hp)
  have hwithin := ((Lexeme.starts_ofTextFrom {} (Nat.le_refl 1) t).2 l hl).2
  have hline := hwithin.line
  have hcolumn := hwithin.column
  dsimp only at hline hcolumn
  exact ⟨by omega, by omega⟩

end StyleSieve.Css
