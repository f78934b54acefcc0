import StyleSieve.Proofs.Selector.Beside
import StyleSieve.Proofs.Selector.Branches
import StyleSieve.Usage

/-!
# Comments between branches

Comments are part of a selector list, and its branches are cut and read with them.  A comment that
leaves a quote or a bracket open takes the commas behind it.  Of other comments, those behind a
branch only add keys to it, which matters if it has none.  In a comment in front of a branch the
compound can end, and what has been read of the comment then stands for the branch.

* `Spaced.Harmless`: when comments take nothing away from a branch.
* `exists_admits`: a page that uses a branch between such comments gets it.
-/

namespace StyleSieve.Selector

open Name (isPlain)

/-! ### Lists with comments -/

/-- What stands beside the branches of a list. -/
inductive Gap where
  | space (c : Char) (isSpace : Text.isSpace c = true)
  | comment (body : Text) (closes : ¬ ['*', '/'] <:+: body)

namespace Gap

/-- What stands in the list. -/
def text : Gap → Text
  | space c _ => [c]
  | comment body _ => '/' :: '*' :: (body ++ ['*', '/'])

def isSpace : Gap → Bool
  | space .. => true
  | comment .. => false

end Gap

/-- Gaps in a row. -/
def fill (gaps : List Gap) : Text := gaps.flatMap Gap.text

/-- A branch closes all that it opens, and no comma in it cuts. -/
structure Whole (b : Text) : Prop where
  trimmed : b.IsTrimmed
  ne_nil : b ≠ []
  uncut : ListCursor.Uncut {} b
  closed : ListCursor.run {} b = {}

/-- A branch of a list, with what stands beside it. -/
structure Spaced where
  before : List Gap
  branch : Text
  behind : List Gap
  whole : Whole branch

/-- Texts with commas between them. -/
def commaList (ts : List Text) : Text := [','].intercalate ts

/-- The text in front of its first character that can follow a compound. -/
def opening (t : Text) : Text := t.takeWhile fun c => (BreakKind.of? c).isNone

/-- No character of a text opens a bracket or an escape. -/
def OpensNothing (t : Text) : Prop := ∀ c ∈ t, c ≠ '\\' ∧ c ≠ '[' ∧ c ≠ '('

namespace Spaced

/-- What stands in the list. -/
def text (x : Spaced) : Text := fill x.before ++ (x.branch ++ fill x.behind)

/-- What stands in the list without comments. -/
def bare (x : Spaced) : Text :=
  fill (x.before.filter Gap.isSpace) ++ (x.branch ++ fill (x.behind.filter Gap.isSpace))

/-- What stands in front of the branch where the list is cut. -/
def lead (x : Spaced) : Text :=
  Text.trimStart ((ListCursor.cut {} (fill x.before)).getLast?.getD [])

/-- The keys of the branch. -/
def keys (x : Spaced) : List Text := Piece.keys (parts x.branch).pieces

/-- What stands beside the branch leaves no quote and no bracket open. -/
structure Closed (x : Spaced) : Prop where
  before : ListCursor.run {} (fill x.before) = {}
  behind : ListCursor.run {} (fill x.behind) = {}

/-- Comments that take nothing away from the branch. -/
structure Harmless (x : Spaced) : Prop where
  head : ∀ c ∈ x.lead.head?, BreakKind.of? c = none
  flat : OpensNothing (opening x.lead)
  /-- In front of the branch the compound ends before a name is read, or it goes on into a branch
  that has keys of its own. -/
  names : (∀ c ∈ opening x.lead, isPlain c = false) ∨
    x.keys ≠ [] ∧ opening x.lead = x.lead ∧ ∀ c ∈ x.branch.head?, BreakKind.of? c = none
  /-- Behind a branch without keys no name is read. -/
  keyless : x.keys = [] → ({} : Cursor).after x.branch = {} ∧
    ∀ c ∈ (fill x.behind).takeWhile fun c => !Text.isSpace c, isMute c = true ∧ c ≠ '('

end Spaced

/-! ### Up to the break -/

/-- The text in front of the first character with a kind that `p` holds of. -/
def idle (p : Option BreakKind → Bool) (s : Cursor) (t : Text) : Text :=
  t.take ((Cursor.kinds s t).findIdx p)

variable {p : Option BreakKind → Bool} {gaps : List Gap} {s : Cursor} {c : Char} {b t u : Text}

theorem idle_cons (p : Option BreakKind → Bool) (s : Cursor) (c : Char) (t : Text) :
    idle p s (c :: t) = if p (s.step c).2 then [] else c :: idle p (s.step c).1 t := by
  rw [idle, Cursor.kinds, List.findIdx_cons]
  cases p (s.step c).2
  all_goals rfl

theorem parts_cons (c : Char) (t : Text) :
    (parts (c :: t)).pieces = pieces (idle (ends (({} : Cursor).step c).2) {} (c :: t)) := by
  have hfirst : ends (({} : Cursor).step c).2 (({} : Cursor).step c).2 = false := by simp [ends]
  rw [idle, Cursor.kinds, List.findIdx_cons, hfirst]
  rfl

/-- With more text behind it the compound of a text ends in it, or it goes on behind it. -/
theorem idle_append (p : Option BreakKind → Bool) (s : Cursor) (t u : Text) :
    idle p s (t ++ u) = idle p s t ∨
      idle p s t = t ∧ idle p s (t ++ u) = t ++ idle p (s.after t) u := by
  have hlength := Cursor.length_kinds s t
  unfold idle
  rw [Cursor.kinds_append, List.findIdx_append]
  split
  case isTrue hlt =>
    exact .inl (List.take_append_of_le_length (by omega))
  case isFalse hge =>
    refine .inr ⟨List.take_of_length_le (by omega), ?_⟩
    rw [hlength, Nat.add_comm, List.take_length_add_append]

/-- Where nothing opens, the compound ends at the first character that can follow it. -/
theorem idle_opening (ht : OpensNothing (opening t)) (u : Text) :
    opening t = t ∧ idle (ends none) {} (t ++ u) = t ++ idle (ends none) {} u ∨
      opening t ≠ t ∧ idle (ends none) {} (t ++ u) = opening t := by
  induction t with
  | nil => exact .inl ⟨rfl, rfl⟩
  | cons c t ih =>
      cases hc : BreakKind.of? c with
      | some k =>
          have hopening : opening (c :: t) = [] := List.takeWhile_cons_of_neg (by simp [hc])
          rw [List.cons_append, idle_cons, Cursor.step_active (by simp [hc]), hc, hopening]
          exact .inr ⟨(List.cons_ne_nil c t).symm, rfl⟩
      | none =>
          have hopening : opening (c :: t) = c :: opening t :=
            List.takeWhile_cons_of_pos (by simp [hc])
          rw [hopening] at ht ⊢
          obtain ⟨⟨h₁, h₂, h₃⟩, ht⟩ := List.forall_mem_cons.1 ht
          rw [List.cons_append, idle_cons, Cursor.step_flat h₁ h₂ h₃, hc]
          rcases ih ht with ⟨hall, h⟩ | ⟨hall, h⟩
          · exact .inl ⟨congrArg (c :: ·) hall, congrArg (c :: ·) h⟩
          · exact .inr ⟨fun e => hall (List.cons.inj e).2, congrArg (c :: ·) h⟩

theorem parts_of_head (h : ∀ c ∈ t.head?, BreakKind.of? c = none) :
    (parts t).pieces = pieces (idle (ends none) {} t) := by
  cases t with
  | nil => rfl
  | cons c t =>
      have hc : (({} : Cursor).step c).2 = none := by
        have hc := h c rfl
        grind [Cursor.step, Cursor.plain]
      rw [parts_cons, hc]

/-- Nothing is read of a text that starts with a character that can follow a compound. -/
theorem keys_idle (t : Text) :
    Piece.keys (pieces (idle (ends none) {} t)) = Piece.keys (parts t).pieces ∨
      Piece.keys (pieces (idle (ends none) {} t)) = [] := by
  cases t with
  | nil => exact .inr rfl
  | cons c t =>
      cases hc : BreakKind.of? c with
      | none =>
          refine .inl (congrArg Piece.keys (parts_of_head ?_).symm)
          rintro d ⟨⟩
          exact hc
      | some k =>
          refine .inr ?_
          rw [idle_cons, Cursor.step_active (by simp [hc]), hc]
          rfl

/-! ### Behind a branch -/

theorem isMute_of_isSpace (h : Text.isSpace c = true) : isMute c = true := by
  simp [isMute, isPlain_of_isSpace h, ne_of_kind h (d := '\\') (by decide),
    ne_of_kind h (d := '[') (by decide)]

/-- Every name ends where gaps start. -/
theorem halts_fill (gaps : List Gap) : Halts (fill gaps) := by
  induction gaps with
  | nil => exact trivial
  | cons g gaps ih =>
      cases g with
      | space c hc => exact ⟨isMute_of_isSpace hc, fun _ => ih⟩
      | comment body closes => exact ⟨by decide, fun h => nomatch h⟩

/-- The compound ends at the first space. -/
theorem mute_of_idle (hspace : p (some .space) = true)
    (ht : ∀ c ∈ t.takeWhile fun c => !Text.isSpace c, isMute c = true ∧ c ≠ '(') :
    ∀ c ∈ idle p {} t, isMute c = true := by
  induction t with
  | nil => exact fun _ h => nomatch h
  | cons c t ih =>
      cases hc : Text.isSpace c with
      | true =>
          have hkind : BreakKind.of? c = some .space := if_pos hc
          rw [idle_cons, Cursor.step_active (by simp [hkind]), hkind, if_pos hspace]
          exact fun _ h => nomatch h
      | false =>
          rw [List.takeWhile_cons_of_pos (by simp [hc])] at ht
          obtain ⟨⟨hmute, hround⟩, ht⟩ := List.forall_mem_cons.1 ht
          obtain ⟨-, hslash, hattr⟩ := isMute_spec hmute
          rw [idle_cons, Cursor.step_flat hslash hattr hround]
          split
          · exact fun _ h => nomatch h
          · exact List.forall_mem_cons.2 ⟨hmute, ih ht⟩

theorem escapes_of_run (h : ListCursor.run {} b = {}) : escapes b = false := by
  have hescaped (s : ListCursor) :
      (s.run b).escaped = b.foldl (fun waits c => !waits && c == '\\') s.escaped := by
    clear h
    induction b generalizing s with
    | nil => rfl
    | cons c b ih =>
        have hstep : (s.step c).escaped = (!s.escaped && c == '\\') := by
          grind [ListCursor.step]
        rw [List.foldl_cons, ← hstep, ← ih]
        rfl
  rw [escapes, ← hescaped {}, h]

/-- What is read of gaps behind a branch is read behind its pieces, up to a space at most. -/
theorem pieces_behind (hb : Whole b) (ht : t <+: fill gaps) :
    (parts (b ++ t)).pieces = (parts b).pieces ∨
      ∃ p skip, p (some .space) = true ∧ (parts (b ++ t)).pieces =
        (parts b).pieces ++ piecesFrom skip (idle p (({} : Cursor).after b) t) := by
  have hescapes := escapes_of_run hb.closed
  obtain ⟨c, b, rfl⟩ := List.exists_cons_of_ne_nil hb.ne_nil
  have hfirst : (({} : Cursor).step c).2 ≠ some .space := fun h => by
    have hblank : Text.isBlank c = false := hb.trimmed.1
    have hspace : Text.isSpace c = true := by grind [Cursor.step, Cursor.plain, BreakKind.of?]
    rw [isBlank_of_isSpace hspace] at hblank
    cases hblank
  rw [List.cons_append, parts_cons, parts_cons, ← List.cons_append]
  rcases idle_append (ends (({} : Cursor).step c).2) {} (c :: b) t with h | ⟨hall, h⟩
  · exact .inl (by rw [h])
  · obtain ⟨skip, hpieces⟩ := pieces_append hescapes
      ((halts_fill gaps).part ((List.take_prefix ..).trans ht))
    rw [h, hall]
    exact .inr ⟨_, skip, by simp [ends, hfirst.symm], hpieces⟩

/-- Gaps behind a branch take none of its keys away. -/
theorem keys_behind (hb : Whole b) (ht : t <+: fill gaps) :
    Piece.keys (parts b).pieces ⊆ Piece.keys (parts (b ++ t)).pieces := by
  rcases pieces_behind hb ht with h | ⟨p, skip, -, h⟩
  · rw [h]
    exact List.Subset.refl _
  · rw [h, keys_append]
    exact List.subset_append_left ..

/-- Nor do they add keys, if no name is read of them. -/
theorem keys_behind_eq (hb : Whole b) (hafter : ({} : Cursor).after b = {}) (ht : t <+: fill gaps)
    (hmute : ∀ c ∈ (fill gaps).takeWhile fun c => !Text.isSpace c, isMute c = true ∧ c ≠ '(') :
    Piece.keys (parts (b ++ t)).pieces = Piece.keys (parts b).pieces := by
  rcases pieces_behind hb ht with h | ⟨p, skip, hspace, h⟩
  · rw [h]
  · have hstart : t.takeWhile (fun c => !Text.isSpace c) <+:
        (fill gaps).takeWhile fun c => !Text.isSpace c := by
      obtain ⟨rest, hrest⟩ := ht
      rw [← hrest, List.takeWhile_append]
      split
      case isTrue => exact (List.takeWhile_prefix _).trans (List.prefix_append ..)
      case isFalse => exact List.prefix_refl _
    have hidle := mute_of_idle hspace fun c hc => hmute c (hstart.subset hc)
    rw [h, hafter, keys_append, keys_mute hidle, List.append_nil]

/-! ### In front of a branch -/

/-- What stands at the end of gaps ends with a slash, if no space is in it. -/
theorem exists_eq_append_slash (hu : u <:+ fill gaps) (hne : u ≠ [])
    (hactive : ∀ c ∈ u, BreakKind.of? c = none) : ∃ t, u = t ++ ['/'] := by
  rcases List.eq_nil_or_concat gaps with rfl | ⟨gaps, g, rfl⟩
  · exact absurd (List.suffix_nil.1 hu) hne
  obtain ⟨t, d, rfl⟩ := (List.eq_nil_or_concat u).resolve_left hne
  rw [List.concat_eq_append] at hu hactive ⊢
  rw [List.concat_eq_append, fill, List.flatMap_append, List.flatMap_singleton] at hu
  obtain ⟨front, hu⟩ := hu
  rw [← List.append_assoc] at hu
  refine ⟨t, congrArg (fun d => t ++ [d]) ?_⟩
  cases g with
  | space c hc =>
      obtain rfl : d = c := List.singleton_inj.1 (List.append_inj' hu rfl).2
      have hkind : BreakKind.of? d = some .space := if_pos hc
      rw [hactive d (by simp)] at hkind
      cases hkind
  | comment body closes =>
      have htext : gaps.flatMap Gap.text ++ (Gap.comment body closes).text =
          gaps.flatMap Gap.text ++ ('/' :: '*' :: (body ++ ['*'])) ++ ['/'] := by simp [Gap.text]
      rw [htext] at hu
      exact List.singleton_inj.1 (List.append_inj' hu rfl).2

/-- In front of a branch the compound ends in what stands there, or it goes on behind it. -/
theorem keys_front (hu : u <:+ fill gaps) (hne : u ≠ [])
    (hhead : ∀ c ∈ u.head?, BreakKind.of? c = none)
    (hflat : OpensNothing (opening u)) (t : Text) :
    opening u = u ∧ Piece.keys (parts (u ++ t)).pieces =
        Piece.keys (pieces u) ++ Piece.keys (pieces (idle (ends none) {} t)) ∨
      opening u ≠ u ∧ Piece.keys (parts (u ++ t)).pieces = Piece.keys (pieces (opening u)) := by
  have hparts : (parts (u ++ t)).pieces = pieces (idle (ends none) {} (u ++ t)) := by
    obtain ⟨c, v, rfl⟩ := List.exists_cons_of_ne_nil hne
    exact parts_of_head hhead
  rw [hparts]
  rcases idle_opening hflat t with ⟨hall, h⟩ | ⟨hall, h⟩
  · have hactive : ∀ c ∈ u, BreakKind.of? c = none := fun c hc => by
      rw [← hall] at hc
      simpa using List.mem_takeWhile_imp hc
    rw [hall] at hflat
    obtain ⟨v, rfl⟩ := exists_eq_append_slash hu hne hactive
    have hv : Flat v := by
      intro c hc
      obtain ⟨hslash, hattr, -⟩ := hflat c (List.mem_append_left _ hc)
      refine ⟨hslash, hattr, ?_⟩
      rintro rfl
      cases hactive ':' (List.mem_append_left _ hc)
    have hpieces : pieces (v ++ ['/']) = pieces v := (pieces_front hv []).trans (List.append_nil _)
    rw [h, List.append_assoc, List.singleton_append, pieces_front hv, keys_append, hpieces]
    exact .inl ⟨hall, rfl⟩
  · rw [h]
    exact .inr ⟨hall, rfl⟩

theorem keys_opening (hflat : OpensNothing (opening u))
    (hbare : ∀ c ∈ opening u, isPlain c = false) : Piece.keys (pieces (opening u)) = [] := by
  refine keys_mute (fun c hc => ?_) 0
  obtain ⟨hslash, hattr, -⟩ := hflat c hc
  simp [isMute, hbare c hc, hslash, hattr]

namespace Spaced

variable {x : Spaced}

theorem exists_lead (x : Spaced) :
    ∃ ps l, ListCursor.cut {} (fill x.before) = ps ++ [l] ∧ x.lead = Text.trimStart l := by
  obtain ⟨ps, l, hcut⟩ := (List.eq_nil_or_concat _).resolve_left
    (ListCursor.cut_ne_nil {} (fill x.before))
  rw [List.concat_eq_append] at hcut
  exact ⟨ps, l, hcut, by rw [lead, hcut, List.getLast?_concat, Option.getD_some]⟩

theorem lead_suffix (x : Spaced) : x.lead <:+ fill x.before := by
  obtain ⟨ps, l, hcut, hlead⟩ := x.exists_lead
  rw [hlead]
  exact (List.dropWhile_suffix _).trans (ListCursor.suffix_of_cut hcut)

/-- **A branch between harmless comments.**  It keeps its keys, or it has none and may always
match. -/
theorem Harmless.keys (h : x.Harmless) (ht : t <+: fill x.behind) :
    Piece.keys (parts (x.lead ++ (x.branch ++ t))).pieces = [] ∨
      x.keys ≠ [] ∧ x.keys ⊆ Piece.keys (parts (x.lead ++ (x.branch ++ t))).pieces := by
  have hbehind : x.keys ⊆ Piece.keys (parts (x.branch ++ t)).pieces := keys_behind x.whole ht
  have hkeyless (hnil : x.keys = []) : Piece.keys (parts (x.branch ++ t)).pieces = [] := by
    obtain ⟨hafter, hmute⟩ := h.keyless hnil
    rw [keys_behind_eq x.whole hafter ht hmute]
    exact hnil
  have hbranch : Piece.keys (parts (x.branch ++ t)).pieces = [] ∨
      x.keys ≠ [] ∧ x.keys ⊆ Piece.keys (parts (x.branch ++ t)).pieces := by
    by_cases hnil : x.keys = []
    · exact .inl (hkeyless hnil)
    · exact .inr ⟨hnil, hbehind⟩
  by_cases hlead : x.lead = []
  · rwa [hlead]
  rcases h.names with hbare | ⟨hne, hall, hhead⟩
  · -- no name is read in front of the branch
    have hopening := keys_opening h.flat hbare
    rcases keys_front x.lead_suffix hlead h.head h.flat (x.branch ++ t) with
      ⟨hall, hkeys⟩ | ⟨-, hkeys⟩
    · rw [hall] at hopening
      rw [hkeys, hopening, List.nil_append]
      rcases keys_idle (x.branch ++ t) with hidle | hidle
      · rwa [hidle]
      · exact .inl hidle
    · exact .inl (hkeys.trans hopening)
  · -- the compound goes on behind what stands there
    rcases keys_front x.lead_suffix hlead h.head h.flat (x.branch ++ t) with
      ⟨-, hkeys⟩ | ⟨hstop, -⟩
    · obtain ⟨c, b, hb⟩ := List.exists_cons_of_ne_nil x.whole.ne_nil
      have hidle : (parts (x.branch ++ t)).pieces = pieces (idle (ends none) {} (x.branch ++ t)) :=
        parts_of_head (by rwa [hb] at hhead ⊢)
      rw [hkeys, ← hidle]
      exact .inr ⟨hne, List.Subset.trans hbehind (List.subset_append_right ..)⟩
    · exact absurd hall hstop

/-- The part of the list in which the branch stands. -/
theorem Closed.exists_part (h : x.Closed) :
    ∃ part ∈ ListCursor.cut {} x.text, ∃ t, t <+: fill x.behind ∧
      part.trim = x.lead ++ (x.branch ++ t) := by
  obtain ⟨ps, l, hbefore, hlead⟩ := x.exists_lead
  obtain ⟨first, hs, hbehind⟩ := List.exists_cons_of_ne_nil
    (ListCursor.cut_ne_nil {} (fill x.behind))
  -- the last part in front reads on into the branch, and the branch into the first part behind
  have hbranch : ListCursor.cut {} (x.branch ++ fill x.behind) = (x.branch ++ first) :: hs := by
    have hcut : ListCursor.cut {} x.branch = [] ++ [x.branch] :=
      ListCursor.cut_of_uncut x.whole.uncut
    exact ListCursor.cut_append hcut (by rwa [x.whole.closed])
  have hcut : ListCursor.cut {} x.text = ps ++ (l ++ (x.branch ++ first)) :: hs :=
    ListCursor.cut_append hbefore (by rwa [h.before])
  refine ⟨l ++ (x.branch ++ first), by simp [hcut], Text.trimEnd first,
    (Text.trimEnd_prefix first).trans (ListCursor.prefix_of_cut hbehind), ?_⟩
  rw [hlead]
  exact Text.trim_append x.whole.trimmed x.whole.ne_nil l first

/-- Where what stands beside a branch leaves nothing open, nothing is open behind it. -/
theorem run_between {front behind : Text} (hfront : ListCursor.run {} front = {})
    (hbehind : ListCursor.run {} behind = {}) (x : Spaced) :
    ListCursor.run {} (front ++ (x.branch ++ behind)) = {} := by
  have hrun : ListCursor.run {} (front ++ (x.branch ++ behind)) =
      ListCursor.run (ListCursor.run (ListCursor.run {} front) x.branch) behind := by
    simp only [ListCursor.run, List.foldl_append]
  rw [hrun, hfront, x.whole.closed, hbehind]

/-! ### Without comments -/

theorem isBlank_of_mem_fill {gaps : List Gap} (h : ∀ g ∈ gaps, g.isSpace = true) :
    ∀ c ∈ fill gaps, Text.isBlank c = true := by
  intro c hc
  obtain ⟨g, hg, hc⟩ := List.mem_flatMap.1 hc
  cases g with
  | space d hd =>
      obtain rfl := List.mem_singleton.1 hc
      exact isBlank_of_isSpace hd
  | comment body closes => cases h _ hg

theorem uncut_of_blank {t : Text} (h : ∀ c ∈ t, Text.isBlank c = true) :
    ListCursor.Uncut {} t := by
  induction t with
  | nil => exact trivial
  | cons c t ih =>
      obtain ⟨hc, ht⟩ := List.forall_mem_cons.1 h
      refine ⟨fun hcut => ne_of_kind hc (by decide) hcut.2, ?_⟩
      rw [ListCursor.step_blank ListCursor.sane_start hc]
      exact ih ht

/-- Without comments the list is cut at the ends of the branch, and all of the branch is kept. -/
theorem bare_spec (x : Spaced) :
    ListCursor.cut {} x.bare = [x.bare] ∧ ListCursor.run {} x.bare = {} ∧
      x.bare.trim = x.branch := by
  have hblank (gaps : List Gap) : ∀ c ∈ fill (gaps.filter Gap.isSpace), Text.isBlank c = true :=
    isBlank_of_mem_fill fun g hg => (List.mem_filter.1 hg).2
  have hrun (gaps : List Gap) : ListCursor.run {} (fill (gaps.filter Gap.isSpace)) = {} :=
    ListCursor.run_blank ListCursor.sane_start rfl (hblank gaps)
  refine ⟨ListCursor.cut_of_uncut ?_, ?_, ?_⟩
  · rw [bare, ListCursor.uncut_append, ListCursor.uncut_append, hrun, x.whole.closed]
    exact ⟨uncut_of_blank (hblank _), x.whole.uncut, uncut_of_blank (hblank _)⟩
  · exact x.run_between (hrun _) (hrun _)
  · rw [bare, Text.trim_append x.whole.trimmed x.whole.ne_nil, Text.trimStart_of_blank (hblank _),
      Text.trimEnd_of_blank (hblank _), List.nil_append, List.append_nil]

end Spaced

/-- A list of texts that leave nothing open is cut into their parts. -/
theorem mem_cut_commaList {ts : List Text} (hne : ts ≠ [])
    (h : ∀ t ∈ ts, ListCursor.run {} t = {}) {part : Text} :
    part ∈ ListCursor.cut {} (commaList ts) ↔ ∃ t ∈ ts, part ∈ ListCursor.cut {} t := by
  induction ts with
  | nil => exact absurd rfl hne
  | cons t ts ih =>
      obtain ⟨ht, hts⟩ := List.forall_mem_cons.1 h
      cases ts with
      | nil => simp [commaList]
      | cons u ts =>
          have hcut : ListCursor.cut {} (commaList (t :: u :: ts)) =
              ListCursor.cut {} t ++ ListCursor.cut {} (commaList (u :: ts)) := by
            rw [commaList, List.intercalate_cons_cons, List.append_assoc]
            exact ListCursor.cut_append_comma ht _
          rw [hcut, List.mem_append, ih (List.cons_ne_nil u ts) hts]
          simp only [List.mem_cons, exists_eq_or_imp]

theorem mem_branches_commaList {ts : List Text} (h : ∀ t ∈ ts, ListCursor.run {} t = {}) :
    b ∈ branches (commaList ts) ↔
      (∃ t ∈ ts, ∃ part ∈ ListCursor.cut {} t, part.trim = b) ∧ b ≠ [] := by
  cases ts with
  | nil => exact ⟨fun hb => (nomatch hb), fun ⟨⟨_, ht, _⟩, _⟩ => (nomatch ht)⟩
  | cons t ts =>
      rw [branches, List.mem_filter, List.mem_map]
      simp only [mem_cut_commaList (List.cons_ne_nil t ts) h, Bool.not_eq_true',
        List.isEmpty_eq_false_iff]
      grind

variable {xs : List Spaced}

/-- Without comments a list is cut into its branches. -/
theorem mem_branches_bare :
    b ∈ branches (commaList (xs.map Spaced.bare)) ↔ ∃ x ∈ xs, x.branch = b := by
  have hrun : ∀ t ∈ xs.map Spaced.bare, ListCursor.run {} t = {} := fun t ht => by
    obtain ⟨x, -, rfl⟩ := List.mem_map.1 ht
    exact x.bare_spec.2.1
  rw [mem_branches_commaList hrun]
  constructor
  · rintro ⟨⟨t, ht, part, hpart, rfl⟩, -⟩
    obtain ⟨x, hx, rfl⟩ := List.mem_map.1 ht
    obtain ⟨hcut, -, htrim⟩ := x.bare_spec
    rw [hcut] at hpart
    obtain rfl := List.mem_singleton.1 hpart
    exact ⟨x, hx, htrim.symm⟩
  · rintro ⟨x, hx, rfl⟩
    obtain ⟨hcut, -, htrim⟩ := x.bare_spec
    exact ⟨⟨x.bare, List.mem_map_of_mem hx, x.bare, by simp [hcut], htrim⟩, x.whole.ne_nil⟩

/-- With comments each branch is in a branch of the list. -/
theorem exists_mem_branches (hclosed : ∀ x ∈ xs, x.Closed) {x : Spaced} (hx : x ∈ xs) :
    ∃ t, t <+: fill x.behind ∧
      x.lead ++ (x.branch ++ t) ∈ branches (commaList (xs.map Spaced.text)) := by
  have hrun : ∀ t ∈ xs.map Spaced.text, ListCursor.run {} t = {} := fun t ht => by
    obtain ⟨y, hy, rfl⟩ := List.mem_map.1 ht
    exact y.run_between (hclosed y hy).before (hclosed y hy).behind
  obtain ⟨part, hpart, t, ht, htrim⟩ := (hclosed x hx).exists_part
  exact ⟨t, ht, (mem_branches_commaList hrun).2
    ⟨⟨x.text, List.mem_map_of_mem hx, part, hpart, htrim⟩, by simp [x.whole.ne_nil]⟩⟩

/-- **Harmless comments take no branch away from a page.**  A page that uses a branch of the list
without comments uses a branch of the list with them. -/
theorem exists_admits (hclosed : ∀ x ∈ xs, x.Closed)
    (hb : b ∈ branches (commaList (xs.map Spaced.bare)))
    (h : ∀ x ∈ xs, x.branch = b → x.Harmless) {usage : Usage}
    (hadmits : usage.admits (parts b).pieces = true) :
    ∃ b ∈ branches (commaList (xs.map Spaced.text)), usage.admits (parts b).pieces = true := by
  obtain ⟨x, hx, rfl⟩ := mem_branches_bare.1 hb
  obtain ⟨t, ht, hmem⟩ := exists_mem_branches hclosed hx
  refine ⟨_, hmem, ?_⟩
  simp only [Usage.admits, Bool.or_eq_true, List.isEmpty_iff, List.any_eq_true] at hadmits ⊢
  refine ((h x hx rfl).keys ht).imp_right fun ⟨hne, hsubset⟩ => ?_
  obtain ⟨k, hk, hcontains⟩ := hadmits.resolve_left hne
  exact ⟨k, hsubset hk, hcontains⟩

end StyleSieve.Selector
