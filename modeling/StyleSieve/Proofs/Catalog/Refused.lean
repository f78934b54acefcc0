import StyleSieve.Catalog.OfSources
import StyleSieve.Proofs.Catalog.Needs
import StyleSieve.Proofs.Stylesheet.InFile

/-!
# Sources that are refused

A reader takes a text or refuses it, whichever file the text is; the number of the file only stands
in the places of what it reads (`asFile`).  A source that is refused either fails the catalog or, if
it is skipped, stands at its position without styles.  There it changes nothing for the others: what
a page gets is written file by file, from what each file needs for that page, and the numbers of the
files do not matter (`critical_ofFiles`).  Sources that are more than there are numbers for files
fail the catalog, whatever stands in them.

* `readFiles_append`: reading goes on behind sources that are kept.
* `ofSourcesWith_kept`, `ofSourcesWith_refused`, `ofSourcesWith_tooMany`: how the reading ends.
* `critical_accepted`: skipped sources are written as if they were not there.
* `refused_sources`: both ways to treat them.
-/

namespace StyleSieve

namespace Catalog

open Stylesheet (Branch)

/-! ### Reading source after source -/

variable {ε : Type} {parse : Text → Text → Except ε Stylesheet} {tooMany : ε} {skip : Bool}
  {sources before after : List (Text × Text)} {source : Text × Text}

/-- A reader that reads a text alike as any file. -/
def asFile (parse : Text → Text → Except ε Stylesheet) (file : Nat) (name css : Text) :
    Except ε Stylesheet :=
  (parse name css).map (Stylesheet.inFile file)

/-- Stylesheets are read alike as any file. -/
theorem read_eq_asFile (strict : Bool) :
    Stylesheet.read strict = asFile (Stylesheet.read strict 0) := by
  funext file name css
  exact Stylesheet.read_inFile strict file name css

/-- Whether a source is not refused. -/
def isAccepted (parse : Text → Text → Except ε Stylesheet) (source : Text × Text) : Bool :=
  (parse source.1 source.2).isOk

/-- A source as a file.  One that is refused has no styles. -/
def fileOf (parse : Text → Text → Except ε Stylesheet) (number : Nat) (source : Text × Text) :
    StyleFile where
  name := source.1
  sheet :=
    match parse source.1 source.2 with
    | .ok sheet => sheet.inFile number
    | .error _ => {}

/-- The sources as files, numbered from `number`. -/
def filesOf (parse : Text → Text → Except ε Stylesheet) (number : Nat)
    (sources : List (Text × Text)) : List StyleFile :=
  (sources.zipIdx number).map fun x => fileOf parse x.2 x.1

theorem filesOf_cons (number : Nat) (source : Text × Text) (sources : List (Text × Text)) :
    filesOf parse number (source :: sources) =
      fileOf parse number source :: filesOf parse (number + 1) sources := by
  rw [filesOf, List.zipIdx_cons, List.map_cons]
  rfl

/-- The sources fail at one of them: those before it are accepted. -/
def FailsWith (parse : Text → Text → Except ε Stylesheet) (sources : List (Text × Text)) (e : ε) :
    Prop :=
  ∃ before source after, sources = before ++ source :: after ∧
    (∀ x ∈ before, isAccepted parse x = true) ∧ parse source.1 source.2 = .error e

theorem isAccepted_of_ok {sheet : Stylesheet}
    (h : parse source.1 source.2 = .ok sheet) : isAccepted parse source = true := by
  rw [isAccepted, h]
  rfl

theorem isAccepted_of_error {e : ε}
    (h : parse source.1 source.2 = .error e) : isAccepted parse source = false := by
  rw [isAccepted, h]
  rfl

variable (parse skip) in
/-- Sources that are kept: they are accepted, or else skipped. -/
def AreKept (sources : List (Text × Text)) : Prop :=
  ∀ x ∈ sources, skip = true ∨ isAccepted parse x = true

/-- Reading a source that is kept, and then the others. -/
theorem readFiles_cons {number : Nat} (hnumber : number < fileLimit)
    (hsource : skip = true ∨ isAccepted parse source = true) (sources : List (Text × Text)) :
    readFiles (asFile parse) tooMany skip number (source :: sources) =
      (readFiles (asFile parse) tooMany skip (number + 1) sources).map
        (fileOf parse number source :: ·) := by
  obtain ⟨name, css⟩ := source
  rw [readFiles, if_neg (Nat.not_le.2 hnumber), asFile, fileOf]
  cases hparse : parse name css with
  | ok sheet => rfl
  | error e =>
      rcases hsource with rfl | haccepted
      · rfl
      · rw [isAccepted_of_error hparse] at haccepted
        cases haccepted

variable (tooMany) in
/-- Reading goes on behind sources that are kept, as long as there are numbers. -/
theorem readFiles_append {number : Nat} (hbefore : AreKept parse skip before)
    (hnumber : number + before.length ≤ fileLimit) (after : List (Text × Text)) :
    readFiles (asFile parse) tooMany skip number (before ++ after) =
      (readFiles (asFile parse) tooMany skip (number + before.length) after).map
        (filesOf parse number before ++ ·) := by
  induction before generalizing number with
  | nil =>
      rw [List.nil_append, List.length_nil, Nat.add_zero]
      cases readFiles (asFile parse) tooMany skip number after <;> rfl
  | cons source before ih =>
      obtain ⟨hsource, hbefore⟩ := List.forall_mem_cons.1 hbefore
      rw [List.length_cons] at hnumber
      have hnext : number + 1 + before.length = number + (source :: before).length := by
        rw [List.length_cons]
        omega
      rw [List.cons_append, readFiles_cons (by omega) hsource, ih hbefore (by omega), hnext,
        filesOf_cons]
      cases readFiles (asFile parse) tooMany skip (number + (source :: before).length) after <;> rfl

/-- Some sources are all accepted, or fail at one of them. -/
theorem accepted_or_fails (parse : Text → Text → Except ε Stylesheet)
    (sources : List (Text × Text)) :
    (∀ x ∈ sources, isAccepted parse x = true) ∨ ∃ e, FailsWith parse sources e := by
  induction sources with
  | nil => exact .inl fun _ h => nomatch h
  | cons source sources ih =>
      cases hparse : parse source.1 source.2 with
      | error e =>
          have hnone : ∀ x ∈ ([] : List (Text × Text)), isAccepted parse x = true :=
            fun _ h => nomatch h
          exact .inr ⟨e, [], source, sources, rfl, hnone, hparse⟩
      | ok sheet =>
          have hsource := isAccepted_of_ok hparse
          rcases ih with hall | ⟨e, before, refused, after, rfl, hbefore, herror⟩
          · exact .inl (List.forall_mem_cons.2 ⟨hsource, hall⟩)
          · exact .inr ⟨e, source :: before, refused, after, rfl,
              List.forall_mem_cons.2 ⟨hsource, hbefore⟩, herror⟩

/-! ### Skipped sources -/

variable (tooMany) in
/-- Sources that are all kept are the files of the catalog, if there are numbers for them. -/
theorem ofSourcesWith_kept (hsources : AreKept parse skip sources)
    (hlength : sources.length ≤ fileLimit) :
    ofSourcesWith (asFile parse) tooMany skip sources =
      .ok (ofFiles (filesOf parse 0 sources)) := by
  have hread := readFiles_append tooMany hsources
    (Nat.le_trans (Nat.le_of_eq (Nat.zero_add _)) hlength) []
  rw [List.append_nil] at hread
  rw [ofSourcesWith, hread]
  simp only [readFiles, Except.map, List.append_nil]

/-- The first source that is refused fails the catalog, unless it is skipped or there is no number
for it. -/
theorem ofSourcesWith_refused {e : ε} (h : FailsWith parse (sources.take fileLimit) e) :
    ofSourcesWith (asFile parse) tooMany false sources = .error e := by
  obtain ⟨before, source, after, htake, hbefore, herror⟩ := h
  have hlength : before.length < fileLimit := by
    have hle := List.length_take_le fileLimit sources
    rw [htake, List.length_append, List.length_cons] at hle
    omega
  have hsources : sources = before ++ source :: (after ++ sources.drop fileLimit) := by
    conv_lhs => rw [← List.take_append_drop fileLimit sources, htake]
    rw [List.append_assoc, List.cons_append]
  have hkept : AreKept parse false before := fun x hx => .inr (hbefore x hx)
  rw [ofSourcesWith, hsources, readFiles_append _ hkept (by omega), readFiles,
    if_neg (by omega), asFile, herror]
  rfl

/-- Sources that are more than there are numbers fail the catalog, if none does so before. -/
theorem ofSourcesWith_tooMany (hsources : AreKept parse skip (sources.take fileLimit))
    (hlength : fileLimit < sources.length) :
    ofSourcesWith (asFile parse) tooMany skip sources = .error tooMany := by
  have htake : (sources.take fileLimit).length = fileLimit :=
    List.length_take_of_le (Nat.le_of_lt hlength)
  obtain ⟨source, after, hdrop⟩ := List.exists_cons_of_ne_nil
    (List.ne_nil_of_length_pos (l := sources.drop fileLimit) (by rw [List.length_drop]; omega))
  have hread := readFiles_append tooMany hsources
    (by rw [htake, Nat.zero_add]) (sources.drop fileLimit)
  rw [List.take_append_drop, htake, Nat.zero_add, hdrop, readFiles,
    if_pos (Nat.le_refl fileLimit)] at hread
  rw [ofSourcesWith, hread]
  rfl

theorem areKept_true (parse : Text → Text → Except ε Stylesheet) (sources : List (Text × Text)) :
    AreKept parse true sources :=
  fun _ _ => .inl rfl

theorem areKept_of_accepted (h : ∀ x ∈ sources, isAccepted parse x = true) (skip : Bool) :
    AreKept parse skip sources :=
  fun x hx => .inr (h x hx)

section

variable (hlength : sources.length ≤ fileLimit)

include hlength

/-- Without skipping, the error is that of the first source that is refused. -/
theorem ofSourcesWith_error_iff {e : ε} :
    ofSourcesWith (asFile parse) tooMany false sources = .error e ↔ FailsWith parse sources e := by
  have hrefused {e : ε} (hfails : FailsWith parse sources e) :
      ofSourcesWith (asFile parse) tooMany false sources = .error e :=
    ofSourcesWith_refused (by rwa [List.take_of_length_le hlength])
  refine ⟨fun h => ?_, hrefused⟩
  rcases accepted_or_fails parse sources with hall | ⟨e', hfails⟩
  · rw [ofSourcesWith_kept _ (areKept_of_accepted hall false) hlength] at h
    cases h
  · rw [hrefused hfails] at h
    exact Except.error.inj h ▸ hfails

/-- Without skipping there is a catalog only if no source is refused. -/
theorem isAccepted_of_ofSourcesWith {c : Catalog}
    (h : ofSourcesWith (asFile parse) tooMany false sources = .ok c) :
    ∀ x ∈ sources, isAccepted parse x = true := by
  rcases accepted_or_fails parse sources with hall | ⟨e, hfails⟩
  · exact hall
  · rw [(ofSourcesWith_error_iff hlength).2 hfails] at h
    cases h

end

/-- What a page gets of a file does not depend on the number of the file. -/
theorem needed_fileOf (usage : Usage) (source : Text × Text) (number : Nat) :
    (fileOf parse number source).sheet.render ((fileOf parse number source).sheet.needs usage) =
      (fileOf parse 0 source).sheet.render ((fileOf parse 0 source).sheet.needs usage) := by
  unfold fileOf
  cases parse source.1 source.2 with
  | error e => rfl
  | ok sheet =>
      have hneeds (file : Nat) : (sheet.inFile file).needs usage = sheet.needs usage := rfl
      simp only [hneeds, Stylesheet.render_inFile]

theorem critical_filesOf (usage : Usage) :
    (ofFiles (filesOf parse 0 sources)).critical usage =
      sources.flatMap fun source =>
        (fileOf parse 0 source).sheet.render ((fileOf parse 0 source).sheet.needs usage) := by
  have hfst : sources.zipIdx.map Prod.fst = sources := List.zipIdx_map_fst 0 sources
  conv_rhs => rw [← hfst, List.flatMap_map]
  rw [critical_ofFiles, filesOf, List.flatMap_map]
  exact List.flatMap_congr fun x _ => needed_fileOf usage x.1 x.2

/-- Skipped sources are written as if they were not there. -/
theorem critical_accepted (parse : Text → Text → Except ε Stylesheet)
    (sources : List (Text × Text)) (usage : Usage) :
    (ofFiles (filesOf parse 0 sources)).critical usage =
      (ofFiles (filesOf parse 0 (sources.filter (isAccepted parse)))).critical usage := by
  rw [critical_filesOf, critical_filesOf]
  induction sources with
  | nil => rfl
  | cons source sources ih =>
      rw [List.flatMap_cons, ih, List.filter_cons]
      cases hparse : parse source.1 source.2 with
      | ok sheet => rw [if_pos (isAccepted_of_ok hparse), List.flatMap_cons]
      | error e =>
          rw [isAccepted_of_error hparse, if_neg Bool.false_ne_true, fileOf, hparse]
          rfl

/-- The reference is to the body of a branch of the source at its position, which is accepted and
has the branch, not a global one, as `p` says. -/
def IsBodyIn (parse : Text → Text → Except ε Stylesheet) (sources : List (Text × Text))
    (p : Branch → Prop) (r : BodyRef) : Prop :=
  ∃ source sheet, sources[r.file]? = some source ∧ parse source.1 source.2 = .ok sheet ∧
    ∃ b ∈ sheet.branches, b.isGlobal = false ∧ b.body = r.body ∧ p b

theorem isBodyOf_filesOf {p : Branch → Prop} {r : BodyRef} :
    IsBodyOf (filesOf parse 0 sources) p r ↔ IsBodyIn parse sources p r := by
  have hfile : (filesOf parse 0 sources)[r.file]? =
      sources[r.file]?.map (fileOf parse r.file) := by
    rw [filesOf, List.getElem?_map, List.getElem?_zipIdx, Option.map_map, Nat.zero_add]
    rfl
  simp only [IsBodyOf, IsBodyIn, hfile, Option.map_eq_some_iff]
  constructor
  · rintro ⟨_, ⟨source, hsource, rfl⟩, b, hb, h⟩
    cases hparse : parse source.1 source.2 with
    | ok sheet =>
        rw [fileOf, hparse] at hb
        exact ⟨source, sheet, hsource, hparse, b, hb, h⟩
    | error e =>
        rw [fileOf, hparse] at hb
        cases hb
  · rintro ⟨source, sheet, hsource, hparse, b, hb, h⟩
    refine ⟨_, ⟨source, hsource, rfl⟩, b, ?_, h⟩
    rw [fileOf, hparse]
    exact hb

/-- **Sources that are refused.**  For any reader, and sources that there are numbers for, skipping
them always gives a catalog: it has a file for each source at its position, without styles if the
source is refused; the bodies chosen for a page, or for a key, are those of branches of the source
at their position; and every page gets what it would get from the accepted sources alone.  Without
skipping there is a catalog if and only if no source is refused, and it is the same one; else the
error is that of the first source that is refused.  For more sources there is no catalog: the error
is that of the first one refused among those that have numbers, unless it is skipped, or else
`tooMany`.  Strict and lenient readers of stylesheets are such readers. -/
theorem refused_sources (parse : Text → Text → Except ε Stylesheet) (tooMany : ε)
    (sources : List (Text × Text)) :
    (sources.length ≤ fileLimit →
      (∃ c, ofSourcesWith (asFile parse) tooMany true sources = .ok c ∧
        c.files = sources.zipIdx.map (fun x => fileOf parse x.2 x.1) ∧
        (∀ usage r, r ∈ c.select usage ↔
          IsBodyIn parse sources (fun b => usage.admits b.parts.pieces = true) r) ∧
        (∀ key r, r ∈ c.query key ↔
          IsBodyIn parse sources (fun b => ∃ p ∈ b.parts.pieces, p.key = some key) r) ∧
        ∀ skip, ∃ d,
          ofSourcesWith (asFile parse) tooMany skip (sources.filter (isAccepted parse)) = .ok d ∧
            ∀ usage, c.critical usage = d.critical usage) ∧
      ((∃ c, ofSourcesWith (asFile parse) tooMany false sources = .ok c) ↔
        ∀ x ∈ sources, isAccepted parse x = true) ∧
      (∀ c, ofSourcesWith (asFile parse) tooMany false sources = .ok c →
        ofSourcesWith (asFile parse) tooMany true sources = .ok c) ∧
      ∀ e, ofSourcesWith (asFile parse) tooMany false sources = .error e ↔
        FailsWith parse sources e) ∧
    (fileLimit < sources.length →
      ofSourcesWith (asFile parse) tooMany true sources = .error tooMany ∧
      ((∀ x ∈ sources.take fileLimit, isAccepted parse x = true) →
        ofSourcesWith (asFile parse) tooMany false sources = .error tooMany) ∧
      ∀ e, FailsWith parse (sources.take fileLimit) e →
        ofSourcesWith (asFile parse) tooMany false sources = .error e) ∧
    ∀ strict, Stylesheet.read strict = asFile (Stylesheet.read strict 0) := by
  refine ⟨fun hlength => ?_, fun hlength => ?_, read_eq_asFile⟩
  · have hskip := ofSourcesWith_kept tooMany (areKept_true parse sources) hlength
    refine ⟨⟨_, hskip, rfl, fun usage r => ?_, fun key r => ?_, fun skip => ?_⟩, ?_, ?_,
      fun e => ofSourcesWith_error_iff hlength⟩
    · simp only [admits_iff]
      exact (mem_select.trans
        (isBodyOf_iff (p := fun ks => ks = [] ∨ ∃ k ∈ ks, k ∈ usage.keys))).trans isBodyOf_filesOf
    · have hkey (pieces : List Piece) :
          (∃ p ∈ pieces, p.key = some key) ↔ key ∈ Piece.keys pieces := List.mem_filterMap.symm
      simp only [hkey]
      exact mem_query.trans ((isBodyOf_iff (p := (key ∈ ·))).trans isBodyOf_filesOf)
    · have hall : ∀ x ∈ sources.filter (isAccepted parse), isAccepted parse x = true :=
        fun x hx => (List.mem_filter.1 hx).2
      have hfewer := (List.length_filter_le (isAccepted parse) sources).trans hlength
      exact ⟨_, ofSourcesWith_kept _ (areKept_of_accepted hall skip) hfewer,
        critical_accepted parse sources⟩
    · exact ⟨fun ⟨c, hc⟩ => isAccepted_of_ofSourcesWith hlength hc, fun hall =>
        ⟨_, ofSourcesWith_kept _ (areKept_of_accepted hall false) hlength⟩⟩
    · intro c hc
      have hall := isAccepted_of_ofSourcesWith hlength hc
      rw [ofSourcesWith_kept _ (areKept_of_accepted hall _) hlength] at hc ⊢
      exact hc
  · exact ⟨ofSourcesWith_tooMany (areKept_true _ _) hlength,
      fun hall => ofSourcesWith_tooMany (areKept_of_accepted hall false) hlength,
      fun e => ofSourcesWith_refused⟩

/-- A source without a block is refused.  Skipped, it stands between the two others, and no page
gets anything else. -/
theorem refused_sources_between :
    let sources := [("a.css".toList, ".a \x7b top: 0 \x7d".toList), ("b.css".toList, ".b".toList),
      ("c.css".toList, ".c \x7b top: 0 \x7d".toList)]
    let accepted := sources.filter (isAccepted (Stylesheet.read true 0))
    sources.length ≤ fileLimit ∧ accepted.map (·.1) = ["a.css".toList, "c.css".toList] ∧
      (¬ ∃ c, ofSources {} sources = .ok c) ∧
      ∃ c d, ofSources { skipInvalid := true } sources = .ok c ∧ ofSources {} accepted = .ok d ∧
        c.query ".c".toList = [⟨2, 1⟩] ∧ ∀ usage, c.critical usage = d.critical usage := by
  simp -zeta only [String.reduceToList]
  intro sources accepted
  have hlength : sources.length ≤ fileLimit := by decide
  have hsecond : isAccepted (Stylesheet.read true 0) ("b.css".toList, ".b".toList) = false := by
    decide +kernel
  obtain ⟨hwithin, -, hreaders⟩ :=
    refused_sources (Stylesheet.read true 0) StyleError.tooManyFiles sources
  obtain ⟨⟨c, hc, -, -, -, hcritical⟩, hall, -, -⟩ := hwithin hlength
  obtain ⟨d, hd, hcritical⟩ := hcritical false
  rw [← hreaders true] at hc hall hd
  refine ⟨hlength, by decide +kernel, fun hstrict => ?_, c, d, hc, hd, ?_, hcritical⟩
  · have haccepted := hall.1 hstrict _ (List.mem_cons_of_mem _ List.mem_cons_self)
    exact Bool.false_ne_true (hsecond.symm.trans haccepted)
  · have hquery : ((ofSources { skipInvalid := true } sources).toOption.map
        fun c => c.query ".c".toList) = some [⟨2, 1⟩] := by decide +kernel
    have hread : ofSources { skipInvalid := true } sources = .ok c := hc
    rw [hread] at hquery
    exact Option.some.inj hquery

/-- One source more than there are numbers for. -/
theorem refused_sources_differs :
    ofSources { skipInvalid := true } (List.replicate (fileLimit + 1) ([], [])) =
      .error .tooManyFiles := by
  have hlength : fileLimit < (List.replicate (fileLimit + 1) (([], []) : Text × Text)).length := by
    rw [List.length_replicate]
    exact Nat.lt_succ_self fileLimit
  rw [ofSources, Bool.not_false, read_eq_asFile]
  exact ofSourcesWith_tooMany (areKept_true _ _) hlength

end Catalog

end StyleSieve
