import StyleSieve.Proofs.Css.Written
import StyleSieve.Proofs.Selector.Branches
import StyleSieve.Proofs.Stylesheet.Placed

/-!
# Lines that are read back

A node is sealed if all texts that are written of it are: its names are bare, and each text closes
what it opens where it is written (`isSealedNode`).  The line of a statement of such a node is read
as one node that says the same (`Copies`), so with the same entry (`Says`).

* `exists_reads_settings`: the declarations of a style rule.
* `copies_rule`, `copies_statement`, `copies_block`: a statement without the conditions around it.
* `copies_wrap`: a statement within its conditions.
* `isSealed_of_mem`, `copies_placed`: the statements of sealed nodes.
* `says_ofText`: the statements of a text.
* `entriesIn_lines`: the lines of some statements.
-/

namespace StyleSieve.Stylesheet

open Css (Component Declaration Level Node NoSpaceNext Place Reads Stands fits isKept nodes)
open Css.Component (ended isSealed mark)
open Run (closing opening settingText)

/-! ### Sealed nodes -/

/-- A setting that is read back where it is written. -/
def Setting.isSealed (s : Setting) : Bool :=
  Css.Name.isBare s.property && fits Component.isSemicolon (' ' :: s.value)

/-- What stands between the name of an at-rule and its end: nothing, or a blank and the rest of its
prelude. -/
def prelude (params : Text) : Text := if params.isEmpty then [] else ' ' :: params

/-- An at-rule that is read back up to its end, `tail` being what stands in front of the end. -/
def isSealedAt (name params tail : Text) : Bool :=
  Css.Name.isBare name && isKept name && fits Component.endsPrelude (prelude params ++ tail)

/-- The branches of a selector list are read back as they are written in front of a block. -/
def isSealedSelector (level : Level) (selector : Text) : Bool :=
  let slot := Selector.join (Selector.branches selector) ++ [' ']
  fits level.endsSelector slot && level.startsRule (ended slot) &&
    Selector.keepsCommas (Selector.branches selector)

/-- The source of a block is read back, with the declarations in it.  That it is sealed does not say
that the declarations are the same: the source is trimmed of blanks that may belong to a name. -/
def isSealedSource (source : Text) (children : List Node) : Bool :=
  let slot := ' ' :: (source ++ [' '])
  isSealed slot &&
    settingsOf (declarationsIn (nodes .group {} (ended slot))) ==
      settingsOf (declarationsIn children)

/-- A block starts with a no-break space, which the name behind it starts with.  The source without
it is sealed, and has another declaration. -/
example :
    (Node.ofText "@page \x7b \u00a0x: 0 \x7d".toList).map (fun
      | .atRule _ _ (some source) children _ _ =>
        (isSealed (' ' :: (source ++ [' '])), isSealedSource source children)
      | _ => (false, false)) = [(true, false)] := by
  decide +kernel

mutual

/-- All that is written of a node is sealed. -/
def isSealedNode (level : Level) : Node → Bool
  | .declaration _ => true
  | .rule selector declarations _ _ =>
    (Selector.branches selector).isEmpty ||
      isSealedSelector level selector && (settingsOf declarations).all Setting.isSealed
  | .atRule name params block children _ _ =>
    match block with
    | none => isSealedAt name params [] && !name.getLast?.any Text.isBlank
    | some source =>
      isSealedAt name params [' '] &&
        if Css.AtRule.isGroup name then areSealed .group children
        else !name.getLast?.any Text.isBlank && isSealedSource source children

/-- All that is written of some nodes is sealed. -/
def areSealed (level : Level) : List Node → Bool
  | [] => true
  | n :: nodes => isSealedNode level n && areSealed level nodes

end

/-! ### Style rules -/

/-- The components of a setting as it is written. -/
def componentsOf (s : Setting) : List Component :=
  mark .space ' ' :: .leaf ⟨.ident s.property, s.property, {}⟩ :: mark .colon ':' ::
    (ended (' ' :: s.value) ++ [mark .semicolon ';'])

theorem reads_setting {s : Setting} (h : s.isSealed = true) :
    Reads (fun _ => True) (settingText s) (componentsOf s) := by
  obtain ⟨hname, hvalue⟩ := Bool.and_eq_true_iff.1 h
  have hend := (Reads.of_isSealed (Css.isSealed_of_fits hvalue)).append .semicolon
    fun rest _ => ⟨';', rest, rfl, rfl⟩
  have hcolon := Reads.colon.append hend fun _ _ => trivial
  have hproperty := (Reads.ident hname).append hcolon fun _ _ => ⟨':', _, rfl, .inr (.inl rfl)⟩
  refine (Reads.space (c := ' ') rfl).append hproperty fun rest _ => ?_
  obtain ⟨c, t, ht, hc⟩ := Css.Name.exists_of_isBare hname
  simpa [NoSpaceNext, ht] using Css.Name.not_isSpace_of_isPlain hc

theorem declarations_setting {s : Setting} (h : s.isSealed = true) (hv : s.value.IsTrimmed)
    (more : List Component) :
    Css.declarations {} (componentsOf s ++ more) =
      ⟨s.property, s.value, {}, {}⟩ :: Css.declarations {} more := by
  have hvalue := (Bool.and_eq_true_iff.1 h).2
  have hnot := Css.not_ends_of_fits hvalue
  have hends : (mark .semicolon ';').isSemicolon = true := rfl
  have htext : Css.sourceText (ended (' ' :: s.value)) = s.value := by
    rw [Css.sourceText_ended (Css.isSealed_of_fits hvalue), Text.trim_cons rfl,
      Text.trim_of_isTrimmed hv]
  have hafter : Css.after Component.isSemicolon
      (mark .colon ':' :: (ended (' ' :: s.value) ++ mark .semicolon ';' :: more)) = more := by
    rw [← List.cons_append]
    exact Css.after_append _ (List.forall_mem_cons.2 ⟨rfl, hnot⟩) hends
  have hread : Declaration.read? s.property {} {}
      (mark .colon ':' :: (ended (' ' :: s.value) ++ mark .semicolon ';' :: more)) =
        some ⟨s.property, s.value, {}, {}⟩ := by
    rw [Declaration.read?_colon rfl, Css.before_append _ hnot hends,
      Css.dropWhile_append _ hnot hends, htext]
    rfl
  simp only [componentsOf, List.cons_append, List.append_assoc, List.nil_append]
  rw [Css.declarations_cons_space rfl, Css.declarations_cons_ident rfl, hafter]
  exact congrArg (·.toList ++ _) hread

/-- The block of a style rule is read as its settings. -/
theorem exists_reads_settings {settings : List Setting} (h : ∀ s ∈ settings, s.isSealed = true)
    (hv : ∀ s ∈ settings, s.value.IsTrimmed) :
    ∃ cs, Reads NoSpaceNext (settings.flatMap settingText ++ [' ']) cs ∧
      settingsOf (Css.declarations {} cs) = settings := by
  induction settings with
  | nil =>
      refine ⟨[mark .space ' '], .space (c := ' ') rfl, ?_⟩
      simp [Css.declarations, settingsOf, mark, Css.Component.token?]
  | cons s settings ih =>
      obtain ⟨hs, hrest⟩ := List.forall_mem_cons.1 h
      obtain ⟨hsv, hrestv⟩ := List.forall_mem_cons.1 hv
      obtain ⟨cs, hread, hcs⟩ := ih hrest hrestv
      refine ⟨componentsOf s ++ cs, ?_, ?_⟩
      · rw [List.flatMap_cons, List.append_assoc]
        exact (reads_setting hs).append hread fun _ _ => trivial
      · rw [declarations_setting hs hsv, settingsOf, List.map_cons, ← settingsOf, hcs]

/-- A text is read, where a statement may stand, as a copy of a statement under some conditions. -/
def Copies (level : Level) (conditions : List Condition) (t : Text) (n : Node) : Prop :=
  ∃ m n', Stands level t m ∧ Wraps conditions n' m ∧ Alike n' n

/-- A style rule is read back at the levels where its selector is. -/
theorem copies_rule {level : Level} {selector : Text} {declarations : List Declaration}
    (hused : Selector.branches selector ≠ []) (hselector : isSealedSelector level selector = true)
    (hsettings : (settingsOf declarations).all Setting.isSealed = true)
    (hvalues : ∀ d ∈ declarations, d.value.IsTrimmed) (start stop : Place) :
    Copies level [] (coreOf (.rule selector declarations start stop))
      (.rule selector declarations start stop) := by
  obtain ⟨hslot, hcommas⟩ := Bool.and_eq_true_iff.1 hselector
  obtain ⟨hfits, hstart⟩ := Bool.and_eq_true_iff.1 hslot
  have hvalues' : ∀ s ∈ settingsOf declarations, s.value.IsTrimmed := by
    intro s hs
    obtain ⟨d, hd, rfl⟩ := List.mem_map.1 hs
    exact hvalues d hd
  obtain ⟨cs, hread, hcs⟩ := exists_reads_settings (List.all_eq_true.1 hsettings) hvalues'
  obtain ⟨htrimmed, hne⟩ := Selector.join_branches hused
  have hstands := Stands.rule hfits hstart ((htrimmed.startsBare hne).append _) hread fun _ => rfl
  rw [Text.trim_concat rfl, Text.trim_of_isTrimmed htrimmed] at hstands
  have hcore : coreOf (.rule selector declarations start stop) =
      Selector.join (Selector.branches selector) ++ [' '] ++
        '{' :: ((settingsOf declarations).flatMap settingText ++ [' '] ++ ['}']) := by
    simp [coreOf, opening, closing]
  exact ⟨_, _, hcore ▸ hstands, .here _, .rule (Selector.branches_join hcommas) hcs⟩

/-! ### Global at-rules -/

theorem trim_prelude {params : Text} (h : params.IsTrimmed) : (prelude params).trim = params := by
  unfold prelude
  cases params with
  | nil => rfl
  | cons c params => exact (Text.trim_cons rfl _).trans (Text.trim_of_isTrimmed h)

theorem head?_prelude (params tail : Text) (h : tail.head?.all (· == ' ') = true) :
    (prelude params ++ tail).head?.all (· == ' ') = true := by
  unfold prelude
  cases params with
  | nil => exact h
  | cons c params => rfl

/-- Up to its end, a global at-rule is written as a conditional group is. -/
theorem globalText_eq {name params : Text} (hname : name.getLast?.any Text.isBlank = false)
    (hparams : params.IsTrimmed) : globalText name params = '@' :: (name ++ prelude params) := by
  unfold globalText prelude
  cases params with
  | nil =>
      have hlast : ('@' :: name).getLast?.any Text.isBlank = false := by
        cases name with
        | nil => rfl
        | cons c name => rwa [List.getLast?_cons_cons]
      rw [← List.cons_append, Text.trimEnd_concat rfl, Text.trimEnd_of_getLast? hlast]
      exact (List.append_nil _).symm
  | cons c params =>
      refine Text.trimEnd_of_getLast? ?_
      have hsplit : '@' :: (name ++ ' ' :: c :: params) =
          ('@' :: (name ++ [' '])) ++ c :: params := by simp
      rw [hsplit, List.getLast?_append_of_ne_nil _ (List.cons_ne_nil c params)]
      exact hparams.2

theorem copies_statement {level : Level} {name params : Text}
    (h : isSealedAt name params [] = true) (hname : name.getLast?.any Text.isBlank = false)
    (hparams : params.IsTrimmed) (start stop : Place) :
    Copies level [] (coreOf (.atRule name params none [] start stop))
      (.atRule name params none [] start stop) := by
  obtain ⟨hat, hslot⟩ := Bool.and_eq_true_iff.1 h
  obtain ⟨hbare, hkept⟩ := Bool.and_eq_true_iff.1 hat
  have hstands := Stands.statement hbare hslot (head?_prelude params [] rfl) hkept level
  rw [List.append_nil, trim_prelude hparams] at hstands
  have hcore : coreOf (.atRule name params none [] start stop) =
      '@' :: (name ++ prelude params) ++ [';'] := by
    rw [← globalText_eq hname hparams]
    rfl
  exact ⟨_, _, hcore ▸ hstands, .here _, .atRule rfl⟩

theorem copies_block {level : Level} {name params source : Text} {children : List Node}
    (h : isSealedAt name params [' '] = true) (hname : name.getLast?.any Text.isBlank = false)
    (hsource : isSealedSource source children = true) (hparams : params.IsTrimmed)
    (htrimmed : source.IsTrimmed) (start stop : Place) :
    Copies level [] (coreOf (.atRule name params (some source) children start stop))
      (.atRule name params (some source) children start stop) := by
  obtain ⟨hat, hslot⟩ := Bool.and_eq_true_iff.1 h
  obtain ⟨hbare, hkept⟩ := Bool.and_eq_true_iff.1 hat
  obtain ⟨hsealed, hchildren⟩ := Bool.and_eq_true_iff.1 hsource
  have hstands := Stands.block hbare hslot (head?_prelude params [' '] rfl) hkept level
    (Reads.of_isSealed hsealed) fun rest => ⟨'}', rest, rfl, rfl⟩
  rw [Text.trim_concat rfl, trim_prelude hparams, Text.trim_cons rfl, Text.trim_concat rfl,
    Text.trim_of_isTrimmed htrimmed] at hstands
  have hcore : coreOf (.atRule name params (some source) children start stop) =
      '@' :: (name ++ (prelude params ++ [' '])) ++ '{' :: (' ' :: (source ++ [' ']) ++ ['}']) := by
    rw [coreOf, globalText_eq hname hparams]
    simp [opening, closing]
  exact ⟨_, _, hcore ▸ hstands, .here _, .atRule (beq_iff_eq.1 hchildren)⟩

/-! ### Conditions -/

/-- A condition that is read back where it is written. -/
structure IsSealedCondition (c : Condition) : Prop where
  sealed : isSealedAt c.name c.params [' '] = true
  group : Css.AtRule.isGroup c.name = true
  trimmed : c.params.IsTrimmed

/-- A text within some conditions, outermost first. -/
def wrap : List Condition → Text → Text
  | [], t => t
  | c :: conditions, t => c.text ++ (opening ++ ' ' :: (wrap conditions t ++ closing))

/-- Where a statement within some conditions stands. -/
def levelIn (top : Level) : List Condition → Level
  | [] => top
  | _ :: _ => .group

/-- A line is its text within its conditions, and a line end. -/
theorem lineOf_eq (conditions : List Condition) (core : Text) :
    lineOf conditions core = wrap conditions core ++ ['\n'] := by
  have hclosing (conditions : List Condition) : closing ++ conditions.flatMap (fun _ => closing) =
      conditions.flatMap (fun _ => closing) ++ closing := by
    induction conditions with
    | nil => rfl
    | cons c conditions ih => rw [List.flatMap_cons, List.append_assoc, ← ih]
  unfold lineOf
  generalize ['\n'] = rest
  induction conditions generalizing rest with
  | nil => rfl
  | cons c conditions ih =>
      have hrest := ih (closing ++ rest)
      rw [List.flatMap_cons, List.flatMap_cons, hclosing, wrap]
      simp only [List.append_assoc, List.cons_append, List.nil_append] at hrest ⊢
      rw [hrest]

/-- A statement that is read back is so within conditions that are. -/
theorem copies_wrap {top : Level} {conditions : List Condition} {t : Text} {n : Node}
    (hconditions : ∀ c ∈ conditions, IsSealedCondition c)
    (h : Copies (levelIn top conditions) [] t n) : Copies top conditions (wrap conditions t) n := by
  induction conditions generalizing top with
  | nil => exact h
  | cons c conditions ih =>
      obtain ⟨hc, hconditions⟩ := List.forall_mem_cons.1 hconditions
      obtain ⟨hsealed, hgroup, htrimmed⟩ := hc
      obtain ⟨hat, hslot⟩ := Bool.and_eq_true_iff.1 hsealed
      obtain ⟨hbare, hkept⟩ := Bool.and_eq_true_iff.1 hat
      have hlevel : levelIn .group conditions = .group := by cases conditions <;> rfl
      have hinner : Copies (levelIn .group conditions) [] t n := by
        rw [hlevel]
        exact h
      obtain ⟨m, n', hm, hwraps, halike⟩ := ih hconditions hinner
      have hstands := hm.group hbare hslot (head?_prelude c.params [' '] rfl) hkept top
      rw [Text.trim_concat rfl, trim_prelude htrimmed] at hstands
      have hwrap : wrap (c :: conditions) t = '@' :: (c.name ++ (prelude c.params ++ [' '])) ++
          '{' :: (' ' :: (wrap conditions t ++ [' ']) ++ ['}']) := by
        have htext : c.text = '@' :: (c.name ++ prelude c.params) := rfl
        rw [wrap, htext]
        simp [opening, closing]
      exact ⟨_, n', hwrap ▸ hstands, .within hgroup hwraps, halike⟩

/-! ### Lines -/

variable {p : Placed} {ns : List Node} {k : Nat}

/-- All that is written of a statement is sealed. -/
def Placed.isSealed (p : Placed) : Bool :=
  p.conditions.all (fun c => isSealedAt c.name c.params [' ']) &&
    isSealedNode (levelIn (.sheet true) p.conditions) p.node

/-- The texts of a statement are trimmed, and of the conditions around it. -/
structure Placed.IsTidy (p : Placed) : Prop where
  node : p.node.IsTidy
  conditions : ∀ c ∈ p.conditions, c.params.IsTrimmed

/-- What is placed in tidy nodes is tidy. -/
theorem isTidy_of_mem (h : ∀ n ∈ ns, n.IsTidy) (hp : p ∈ placedIn [] [] k ns) : p.IsTidy := by
  have henters : EntersGroups fun groups n =>
      n.IsTidy ∧ ∀ c ∈ groups.map (·.condition), c.params.IsTrimmed := by
    rintro groups position name params source children start stop - ⟨hn, hgroups⟩ n hmem
    obtain ⟨hparams, -, -, hchildren⟩ := hn
    rw [List.map_append]
    exact ⟨Node.areTidy_iff.1 hchildren n hmem,
      List.forall_mem_append.2 ⟨hgroups, List.forall_mem_singleton.2 hparams⟩⟩
  obtain ⟨-, hnode, hconditions⟩ := forall_placedIn henters [] [] k ns
    (fun n hn => ⟨h n hn, List.forall_mem_nil _⟩) p hp
  exact ⟨hnode, hconditions⟩

theorem areSealed_iff {level : Level} :
    areSealed level ns = true ↔ ∀ n ∈ ns, isSealedNode level n = true := by
  induction ns with
  | nil => simp [areSealed]
  | cons n ns ih => rw [areSealed, Bool.and_eq_true_iff, ih, List.forall_mem_cons]

/-- What is placed in sealed nodes is sealed. -/
theorem isSealed_of_mem (h : areSealed (.sheet true) ns = true) (hp : p ∈ placedIn [] [] k ns) :
    p.isSealed = true := by
  have henters : EntersGroups fun groups n =>
      (∀ c ∈ groups.map (·.condition), isSealedAt c.name c.params [' '] = true) ∧
        isSealedNode (levelIn (.sheet true) (groups.map (·.condition))) n = true := by
    rintro groups position name params source children start stop hname ⟨hgroups, hn⟩ n hmem
    have hlevel :
        levelIn (.sheet true) (groups.map (·.condition) ++ [⟨name, params⟩]) = .group := by
      cases groups <;> rfl
    rw [isSealedNode, hname, if_pos rfl] at hn
    obtain ⟨hat, hchildren⟩ := Bool.and_eq_true_iff.1 hn
    rw [List.map_append, List.map_singleton, hlevel]
    exact ⟨List.forall_mem_append.2 ⟨hgroups, List.forall_mem_singleton.2 hat⟩,
      areSealed_iff.1 hchildren n hmem⟩
  obtain ⟨-, hconditions, hnode⟩ := forall_placedIn henters [] [] k ns
    (fun n hn => ⟨List.forall_mem_nil _, areSealed_iff.1 h n hn⟩) p hp
  exact Bool.and_eq_true_iff.2 ⟨List.all_eq_true.2 hconditions, hnode⟩

/-- A sealed statement that has branches is read back, without the conditions around it. -/
theorem copies_core {level : Level} (hp : p.IsProper) (htidy : p.IsTidy) (hused : p.isUsed = true)
    (h : isSealedNode level p.node = true) : Copies level [] (coreOf p.node) p.node := by
  obtain ⟨groups, n⟩ := p
  obtain ⟨hstatement, -⟩ := hp
  obtain ⟨htidy, -⟩ := htidy
  cases n with
  | declaration d => cases hstatement
  | rule selector declarations start stop =>
      have hlabels : (Selector.branches selector).isEmpty = false := by
        simpa [Placed.isUsed] using hused
      rw [isSealedNode, hlabels, Bool.false_or] at h
      obtain ⟨hselector, hsettings⟩ := Bool.and_eq_true_iff.1 h
      exact copies_rule (List.isEmpty_eq_false_iff.1 hlabels) hselector hsettings htidy.2 start stop
  | atRule name params block children start stop =>
      obtain ⟨hparams, hsource, hnone, -⟩ := htidy
      cases block with
      | none =>
          obtain rfl := hnone rfl
          rw [isSealedNode] at h
          obtain ⟨hat, hname⟩ := Bool.and_eq_true_iff.1 h
          exact copies_statement hat (by simpa using hname) hparams start stop
      | some source =>
          have hgroup : Css.AtRule.isGroup name = false := by simpa [isStatement] using hstatement
          rw [isSealedNode, hgroup, if_neg Bool.false_ne_true] at h
          obtain ⟨hat, hblock⟩ := Bool.and_eq_true_iff.1 h
          obtain ⟨hname, hsealed⟩ := Bool.and_eq_true_iff.1 hblock
          exact copies_block hat (by simpa using hname) hsealed hparams (hsource source rfl) start
            stop

theorem isSealedNode_sheet (first second : Bool) (conditions : List Condition) (n : Node) :
    isSealedNode (levelIn (.sheet first) conditions) n =
      isSealedNode (levelIn (.sheet second) conditions) n := by
  cases conditions with
  | cons c conditions => rfl
  | nil => cases n <;> rfl

/-- A sealed statement that has branches is read back, within its conditions. -/
theorem copies_placed (hp : p.IsProper) (htidy : p.IsTidy) (hused : p.isUsed = true)
    (h : p.isSealed = true) (first : Bool) :
    Copies (.sheet first) p.conditions (wrap p.conditions (coreOf p.node)) p.node := by
  obtain ⟨hconditions, hnode⟩ := Bool.and_eq_true_iff.1 h
  rw [isSealedNode_sheet true first] at hnode
  exact copies_wrap
    (fun c hc => ⟨List.all_eq_true.1 hconditions c hc, hp.groups c hc, htidy.conditions c hc⟩)
    (copies_core hp htidy hused hnode)

/-- A text is read, where a statement may stand, as a statement with an entry. -/
def Says (level : Level) (t : Text) (e : Entry) : Prop :=
  ∃ m, Stands level t m ∧ ∀ file, (statementsOf file [] m).map Statement.entry = [e]

/-- A node that says one thing has one entry. -/
theorem entriesIn_cons {n : Node} {ms : List Node} {u : Statement} (hused : u.isUsed = true)
    (h : (statementsOf 0 [] n).map Statement.entry = [u.entry]) :
    entriesIn (n :: ms) = u.entry :: entriesIn ms := by
  obtain ⟨v, hv, hentry⟩ := List.map_eq_singleton_iff.1 h
  have hlabels : v.labels = u.labels := congrArg Entry.labels hentry
  have hvused : v.isUsed = true := by rwa [Statement.isUsed, hlabels]
  rw [entriesIn, statementsIn, hv, List.singleton_append, List.filter_cons_of_pos hvused,
    List.map_cons, hentry]
  rfl

/-- Lines of sealed statements are read back, one entry each. -/
theorem entriesIn_lines {us : List Statement} (hused : ∀ u ∈ us, u.isUsed = true)
    (h : ∀ u ∈ us, ∀ first, Says (.sheet first) (wrap u.conditions u.core) u.entry) :
    entriesIn (Node.ofText (us.flatMap Statement.line)) = us.map Statement.entry := by
  have hlines : us.flatMap Statement.line =
      us.flatMap fun u => wrap u.conditions u.core ++ ['\n'] :=
    List.flatMap_congr fun u _ => lineOf_eq u.conditions u.core
  have hnodes := Stands.bareOf_ofText h
  rw [← entriesIn_bareOf, hlines]
  generalize Node.bareOf _ = ms at hnodes
  clear h hlines
  induction hnodes with
  | nil => rfl
  | cons hu _ ih =>
      obtain ⟨hused, hrest⟩ := List.forall_mem_cons.1 hused
      rw [entriesIn_cons hused (hu 0), ih hrest, List.map_cons]

/-- The statements with branches of a text all of whose nodes are sealed are read back. -/
theorem says_ofText {css : Text} (h : areSealed (.sheet true) (Node.ofText css) = true)
    (file : Nat) :
    ∀ u ∈ Statement.ofText file css, ∀ first,
      Says (.sheet first) (wrap u.conditions u.core) u.entry := by
  intro u hu first
  obtain ⟨hmem, hused⟩ := List.mem_filter.1 hu
  rw [← List.map_nil, statementsIn_placed file [] [] 0] at hmem
  obtain ⟨p, hp, hmem⟩ := List.mem_flatMap.1 hmem
  have hproper := isProper_of_mem hp
  have hstatement := hproper.statement
  have htidy := isTidy_of_mem (Node.areTidy_iff.1 (Node.areTidy_ofText css)) hp
  obtain ⟨v, hv, hvused, hconditions, hcore⟩ := exists_statement hstatement file
  obtain rfl : u = v := List.mem_singleton.1 (hv ▸ hmem)
  obtain ⟨m, n, hm, hwraps, halike⟩ :=
    copies_placed hproper htidy (hvused ▸ hused) (isSealed_of_mem h hp) first
  refine ⟨m, by rwa [hconditions, hcore], fun file' => ?_⟩
  rw [statementsOf_wraps hwraps, List.nil_append,
    halike.entries (halike.isStatement_eq.trans hstatement) file' file]
  exact congrArg (List.map Statement.entry) hv

end StyleSieve.Stylesheet
