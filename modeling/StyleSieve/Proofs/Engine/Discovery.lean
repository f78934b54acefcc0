import StyleSieve.Proofs.Folder.Edits
import StyleSieve.Proofs.Text.Decode
import StyleSieve.Proofs.Text.Order

/-!
# What discovery finds

A folder is listed in the order of its entries, but what is read of it does not depend on that
order: every file with the extension is found once, however many folders wait, and goes to its place
by a name that no other file has.

* `Folder.IsTree.collectWithin_perm`: the files in the folders that wait.
* `Folder.IsTree.pairwise_styleFile?`: names tell files apart.
* `Folder.IsTree.readFiles_eq_ok_iff`: what is read.
* `Folder.IsTree.readFiles_perm`: it is the same in every order of the entries.
-/

namespace StyleSieve

open Utf8 (encode IsText)

/-! ### The files of a catalog -/

namespace Catalog

variable {sources : List (Text × Text)}

theorem map_name_of_readFiles {ε : Type} {read : Nat → Text → Text → Except ε Stylesheet}
    {tooMany : ε} {skipInvalid : Bool} {number : Nat} {files : List StyleFile}
    (h : readFiles read tooMany skipInvalid number sources = .ok files) :
    files.map (·.name) = sources.map (·.1) := by
  induction sources generalizing number files with
  | nil => cases h; rfl
  | cons source sources ih =>
      have hnext (sheet : Stylesheet)
          (h : (readFiles read tooMany skipInvalid (number + 1) sources).map
            (⟨source.1, sheet⟩ :: ·) = .ok files) :
          files.map (·.name) = source.1 :: sources.map (·.1) := by
        cases hrest : readFiles read tooMany skipInvalid (number + 1) sources with
        | error e => rw [hrest] at h; cases h
        | ok rest => rw [hrest] at h; cases h; rw [List.map_cons, ih hrest]
      rw [readFiles] at h
      split at h
      · cases h
      · split at h
        case h_1 sheet _ => exact hnext sheet h
        case h_2 =>
          split at h
          · exact hnext {} h
          · cases h

/-- The files of a catalog are called what the sources are, in their order. -/
theorem map_name_of_ofSources {leniency : Leniency} {c : Catalog}
    (h : ofSources leniency sources = .ok c) : c.files.map (·.name) = sources.map (·.1) := by
  rw [ofSources, ofSourcesWith] at h
  cases hfiles : readFiles (Stylesheet.read (!leniency.skipValidation)) .tooManyFiles
      leniency.skipInvalid 0 sources with
  | error e => rw [hfiles] at h; cases h
  | ok files => rw [hfiles] at h; cases h; exact map_name_of_readFiles hfiles

end Catalog

namespace Folder

variable {f g : Folder} {path top : Path} {extension : Text} {waiting : List Path}

/-! ### Folders that wait -/

/-- What stands in the folders that wait. -/
def ahead (f : Folder) (waiting : List Path) : List (Path × Entry) := waiting.flatMap f.within

theorem filterMap_fileWith?_filter (es : List (Path × Entry)) :
    (es.filter fun e => (folder? e).isNone).filterMap (fileWith? extension) =
      es.filterMap (fileWith? extension) := by
  rw [List.filterMap_filter]
  refine List.filterMap_congr fun e _ => ?_
  obtain ⟨path, _ | _ | _⟩ := e <;> rfl

/-- The number of folders among some entries. -/
def folderCount (es : List (Path × Entry)) : Nat := es.countP fun e => (folder? e).isSome

theorem folderCount_filter (es : List (Path × Entry)) :
    folderCount (es.filter fun e => (folder? e).isNone) = 0 := by
  rw [folderCount, List.countP_eq_zero]
  intro e he
  rw [Option.isNone_iff_eq_none.1 (List.mem_filter.1 he).2]
  exact Bool.false_ne_true

namespace IsTree

/-- Listing a folder takes it and what is no folder from what is ahead. -/
theorem ahead_cons_perm (hf : f.IsTree) (h : (path, .folder) ∈ f.entries) (waiting : List Path) :
    (f.ahead (path :: waiting)).Perm
      ((path, .folder) :: ((f.listed path).filter fun e => (folder? e).isNone) ++
        f.ahead (((f.listed path).filterMap folder?).reverse ++ waiting)) := by
  have hlisted := hf.flatMap_within_perm fun e (he : e ∈ f.listed path) => (mem_listed.1 he).1
  have hreverse := ((f.listed path).filterMap folder?).reverse_perm.flatMap_right f.within
  rw [ahead, ahead, List.flatMap_cons, List.flatMap_append, ← List.append_assoc]
  refine .append_right _ ((hf.within_perm h).trans (.cons _ (hlisted.trans ?_)))
  exact hreverse.symm.append_left _

theorem folderCount_ahead_cons (hf : f.IsTree) (h : (path, .folder) ∈ f.entries)
    (waiting : List Path) :
    folderCount (f.ahead (path :: waiting)) =
      folderCount (f.ahead (((f.listed path).filterMap folder?).reverse ++ waiting)) + 1 := by
  have hfilter := folderCount_filter (f.listed path)
  rw [folderCount] at hfilter
  rw [folderCount, (hf.ahead_cons_perm h waiting).countP_eq, List.cons_append,
    List.countP_cons_of_pos rfl, List.countP_append, hfilter, Nat.zero_add, folderCount]

/-- The files that stand in the folders that wait are found, each once, if no more folders stand
there than may be listed. -/
theorem collectWithin_perm (hf : f.IsTree) {limit : Nat}
    (hwaiting : ∀ path ∈ waiting, (path, .folder) ∈ f.entries)
    (hlimit : folderCount (f.ahead waiting) ≤ limit) :
    (f.collectWithin extension limit waiting).Perm
      ((f.ahead waiting).filterMap (fileWith? extension)) := by
  induction limit generalizing waiting with
  | zero =>
      cases waiting with
      | nil => exact .nil
      | cons path waiting =>
          rw [hf.folderCount_ahead_cons (hwaiting path List.mem_cons_self)] at hlimit
          exact absurd hlimit (Nat.not_succ_le_zero _)
  | succ limit ih =>
      cases waiting with
      | nil => exact .nil
      | cons path waiting =>
          have hpath := hwaiting path List.mem_cons_self
          rw [hf.folderCount_ahead_cons hpath] at hlimit
          have hfolders : ∀ p ∈ ((f.listed path).filterMap folder?).reverse ++ waiting,
              (p, .folder) ∈ f.entries := by
            intro p hp
            rcases List.mem_append.1 hp with hp | hp
            · obtain ⟨e, he, hfolder⟩ := List.mem_filterMap.1 (List.mem_reverse.1 hp)
              rw [← folder?_eq_some_iff.1 hfolder]
              exact (mem_listed.1 he).1
            · exact hwaiting p (List.mem_cons_of_mem path hp)
          have hrest := ih hfolders (Nat.le_of_succ_le_succ hlimit)
          refine .trans ?_ ((hf.ahead_cons_perm hpath waiting).filterMap _).symm
          rw [List.filterMap_append, List.filterMap_cons_none rfl, filterMap_fileWith?_filter]
          exact hrest.append_left _

theorem collect_perm (hf : f.IsTree) (h : (top, .folder) ∈ f.entries) (extension : Text) :
    (f.collect top extension).Perm ((f.within top).filterMap (fileWith? extension)) := by
  have hahead : f.ahead [top] = f.within top := List.flatMap_singleton f.within top
  rw [← hahead]
  refine hf.collectWithin_perm (by simpa using h) ?_
  rw [hahead]
  exact List.countP_le_length.trans (List.length_filter_le _ _)

end IsTree

/-! ### Names -/

/-- What a file with the extension is called from the folder `top` that it stands below, and what it
holds. -/
def styleFile? (top : Path) (extension : Text) : Path × Entry → Option (Text × Bytes)
  | (path, .file contents) =>
    (Path.below? top path).bind fun below =>
      if below.getLast?.bind Path.extension? = some extension then
        some (Path.toText below, contents)
      else none
  | _ => none

/-- Such a file stands below `top`, and its name has something in front of the extension. -/
theorem styleFile?_eq_some_iff {e : Path × Entry} {name : Text} {contents : Bytes} :
    styleFile? top extension e = some (name, contents) ↔
      ∃ (folders : Path) (stem : Text), stem ≠ [] ∧ '.' ∉ extension ∧
        e = (top ++ (folders ++ [stem ++ '.' :: extension]), .file contents) ∧
        name = Path.toText (folders ++ [stem ++ '.' :: extension]) := by
  obtain ⟨path, contents' | _ | target⟩ := e
  case folder | link => simp [styleFile?]
  case file =>
    rw [styleFile?, Option.bind_eq_some_iff]
    constructor
    · rintro ⟨below, hbelow, h⟩
      split at h
      case isFalse => cases h
      case isTrue hlast =>
        obtain ⟨last, hlast, hextension⟩ := Option.bind_eq_some_iff.1 hlast
        obtain ⟨folders, rfl⟩ := List.getLast?_eq_some_iff.1 hlast
        obtain ⟨stem, hstem, hdot, rfl⟩ := Path.extension?_eq_some_iff.1 hextension
        cases h
        exact ⟨folders, stem, hstem, hdot, by rw [Path.below?_eq_some_iff.1 hbelow], rfl⟩
    · rintro ⟨folders, stem, hstem, hdot, he, rfl⟩
      cases he
      refine ⟨_, Path.below?_append top _, if_pos ?_⟩
      rw [List.getLast?_concat, Option.bind_some]
      exact Path.extension?_eq_some_iff.2 ⟨stem, hstem, hdot, rfl⟩

theorem styleFile?_of_not_below {e : Path × Entry} (h : ¬ top <+: e.1) :
    styleFile? top extension e = none := by
  refine Option.eq_none_iff_forall_ne_some.2 fun s hs => h ?_
  obtain ⟨folders, stem, -, -, rfl, -⟩ := styleFile?_eq_some_iff.1 hs
  exact List.prefix_append top _

namespace IsTree

theorem styleFile?_of_below (hf : f.IsTree) (h : (top, .folder) ∈ f.entries)
    {e : Path × Entry} (he : e ∈ f.entries) (hunder : top <+: e.1) :
    styleFile? top extension e = (fileWith? extension e).map fun (path, contents) =>
      (Path.nameFrom top path, contents) := by
  obtain ⟨path, contents | _ | target⟩ := e
  case folder | link => rfl
  case file =>
    obtain ⟨below, rfl⟩ := hunder
    have hbelow : below ≠ [] := by
      rintro rfl
      have hsame := hf.eq_of_path_eq he h (List.append_nil top)
      exact absurd (congrArg Prod.snd hsame) (by simp)
    simp only [styleFile?, fileWith?, Path.below?_append, Option.bind_some,
      List.getLast?_append_of_ne_nil top hbelow]
    split
    · rw [Option.map_some, Path.nameFrom_append]
    · rfl

theorem named_perm (hf : f.IsTree) (h : (top, .folder) ∈ f.entries) (extension : Text) :
    (f.named top extension).Perm (f.entries.filterMap (styleFile? top extension)) := by
  have hfound := (hf.collect_perm h extension).map fun (path, contents) =>
    (Path.nameFrom top path, contents)
  refine hfound.trans (.of_eq ?_)
  rw [List.map_filterMap, within, List.filterMap_filter]
  refine List.filterMap_congr fun e he => ?_
  by_cases hunder : top <+: e.1
  · rw [if_pos (decide_eq_true hunder), hf.styleFile?_of_below h he hunder]
  · rw [if_neg (by simpa using hunder), styleFile?_of_not_below hunder]

/-- No two files have one name. -/
theorem pairwise_styleFile? (hf : f.IsTree) (top : Path) (extension : Text) :
    (f.entries.filterMap (styleFile? top extension)).Pairwise (fun a b => a.1 ≠ b.1) := by
  have hentries : f.entries.Pairwise (fun a b => a.1 ≠ b.1) := List.pairwise_map.1 hf.nodup
  refine List.pairwise_filterMap.2 (hentries.imp_of_mem fun {a b} ha hb hne => ?_)
  rintro ⟨name, contents⟩ hname ⟨name', contents'⟩ hname' rfl
  obtain ⟨folders, stem, -, -, rfl, rfl⟩ := styleFile?_eq_some_iff.1 hname
  obtain ⟨folders', stem', -, -, rfl, htext⟩ := styleFile?_eq_some_iff.1 hname'
  refine hne (congrArg (top ++ ·) ((Path.toText_inj ?_ ?_).1 htext))
  · exact fun name h => hf.name _ ha name (List.mem_append_right top h)
  · exact fun name h => hf.name _ hb name (List.mem_append_right top h)

end IsTree

/-! ### Texts -/

/-- The named file that a named text is read from. -/
def source (file : Text × Text) : Text × Bytes := (file.1, encode file.2)

theorem exists_eq_map_source {files : List (Text × Bytes)} (h : ∀ file ∈ files, IsText file.2) :
    ∃ texts : List (Text × Text), files = texts.map source := by
  refine ⟨files.map fun file => (file.1, Utf8.decodeLossy file.2), ?_⟩
  rw [List.map_map]
  conv_lhs => rw [← List.map_id files]
  exact List.map_congr_left fun file hfile =>
    Prod.ext rfl (h file hfile).encode_decodeLossy.symm

theorem readText_eq_ok_iff {file : Text × Bytes} {text : Text × Text} :
    readText file = .ok text ↔ file = source text := by
  obtain ⟨name, contents⟩ := file
  rw [readText]
  cases hdecode : Utf8.decode? contents with
  | none =>
      refine iff_of_false (by simp) fun h => ?_
      rw [Utf8.decode?_eq_some_iff.2 (congrArg Prod.snd h)] at hdecode
      cases hdecode
  | some t =>
      obtain rfl := Utf8.decode?_eq_some_iff.1 hdecode
      simp [source, Prod.ext_iff, Utf8.encode_inj]

theorem mapM_readText_eq_ok_iff {files : List (Text × Bytes)} {texts : List (Text × Text)} :
    files.mapM readText = .ok texts ↔ files = texts.map source := by
  induction files generalizing texts with
  | nil => cases texts <;> simp [pure, Except.pure]
  | cons file files ih =>
      rw [List.mapM_cons]
      cases texts with
      | nil =>
          cases readText file <;> cases files.mapM readText <;>
            simp [bind, Except.bind, pure, Except.pure]
      | cons text texts =>
          rw [List.map_cons, List.cons.injEq, ← readText_eq_ok_iff, ← ih]
          cases readText file <;> cases files.mapM readText <;>
            simp [bind, Except.bind, pure, Except.pure]

theorem readFiles_of_find {route : Route} (h : f.find route = .ok (top, .folder)) :
    f.readFiles route extension =
      ((f.named top extension).mergeSort fun a b => Text.atMost a.1 b.1).mapM readText := by
  simp only [readFiles, h, bind, Except.bind]

namespace IsTree

/-- The files with the extension, in the order of the bytes of their names. -/
theorem mergeSort_named_eq_iff (hf : f.IsTree) (h : (top, .folder) ∈ f.entries)
    {files : List (Text × Bytes)} :
    (f.named top extension).mergeSort (fun a b => Text.atMost a.1 b.1) = files ↔
      files.Perm (f.entries.filterMap (styleFile? top extension)) ∧
        files.Pairwise fun a b => encode a.1 < encode b.1 := by
  have hperm := hf.named_perm h extension
  have hne := (hperm.pairwise_iff Ne.symm).2 (hf.pairwise_styleFile? top extension)
  rw [Text.mergeSort_eq_iff hne]
  exact and_congr_left fun _ => ⟨fun h => h.trans hperm, fun h => h.trans hperm.symm⟩

theorem readFiles_eq_ok_iff (hf : f.IsTree) {route : Route}
    (htop : f.find route = .ok (top, .folder)) {files : List (Text × Text)} :
    f.readFiles route extension = .ok files ↔
      (files.map source).Perm (f.entries.filterMap (styleFile? top extension)) ∧
        files.Pairwise fun a b => encode a.1 < encode b.1 := by
  rw [readFiles_of_find htop, mapM_readText_eq_ok_iff,
    hf.mergeSort_named_eq_iff (hf.mem_of_find htop), List.pairwise_map]
  rfl

/-- What is read does not depend on the order in which folders are listed. -/
theorem readFiles_perm (hf : f.IsTree) (h : g.entries.Perm f.entries) (route : Route)
    (extension : Text) : g.readFiles route extension = f.readFiles route extension := by
  have hfind := hf.find_perm h route
  cases htop : f.find route with
  | error failure => simp only [readFiles, hfind, htop, bind, Except.bind]
  | ok found =>
      obtain ⟨top, contents | _ | target⟩ := found
      case folder =>
        have htop' := hfind.trans htop
        rw [readFiles_of_find htop, readFiles_of_find htop']
        congr 1
        rw [(hf.perm h).mergeSort_named_eq_iff ((hf.perm h).mem_of_find htop')]
        obtain ⟨hperm, hsorted⟩ := (hf.mergeSort_named_eq_iff (hf.mem_of_find htop)).1 rfl
        exact ⟨hperm.trans (h.filterMap _).symm, hsorted⟩
      all_goals simp only [readFiles, hfind, htop, bind, Except.bind]

/-- Files that are all texts are read. -/
theorem exists_readFiles_eq_ok (hf : f.IsTree) {route : Route}
    (htop : f.find route = .ok (top, .folder))
    (htext : ∀ e ∈ f.entries, ∀ file ∈ styleFile? top extension e, IsText file.2) :
    ∃ files, f.readFiles route extension = .ok files := by
  rw [readFiles_of_find htop]
  simp only [mapM_readText_eq_ok_iff]
  refine exists_eq_map_source fun file hfile => ?_
  obtain ⟨hperm, -⟩ := (hf.mergeSort_named_eq_iff (hf.mem_of_find htop)).1 rfl
  obtain ⟨e, he, hstyle⟩ := List.mem_filterMap.1 (hperm.mem_iff.1 hfile)
  exact htext e he file hstyle

end IsTree

/-! ### What discovery finds -/

/-- **What discovery finds.**  A folder is a tree, or one that a session comes to.  In the folder in
it that a route leads to, each file with the extension is read once, whatever stands around it:
under its path from there, all of them in the order of the bytes of these paths.  The order in which
folders are listed makes no difference to that, so none to the numbers of the files or to anything
else in the catalog that is made of them. -/
theorem discover_exact (hf : f.IsTree ∨ f.IsReached) {route : Route}
    (htop : f.find route = .ok (top, .folder))
    (htext : ∀ e ∈ f.entries, ∀ file ∈ styleFile? top extension e, IsText file.2) :
    ∃ files : List (Text × Text),
      (files.map source).Perm (f.entries.filterMap (styleFile? top extension)) ∧
      (files.Pairwise fun a b => encode a.1 < encode b.1) ∧
      ∀ g : Folder, g.entries.Perm f.entries →
        g.readFiles route extension = .ok files ∧
        ∀ settings : Settings, settings.extension = extension →
          Catalog.discover g route settings =
            (Catalog.ofSources settings.leniency files).mapError .style ∧
          ∀ c, Catalog.discover g route settings = .ok c →
            c.files.map (·.name) = files.map (·.1) := by
  have hf : f.IsTree := hf.elim id IsReached.isTree
  obtain ⟨files, hread⟩ := hf.exists_readFiles_eq_ok htop htext
  obtain ⟨hperm, hsorted⟩ := (hf.readFiles_eq_ok_iff htop).1 hread
  refine ⟨files, hperm, hsorted, fun g h => ?_⟩
  have hread' : g.readFiles route extension = .ok files :=
    (hf.readFiles_perm h route extension).trans hread
  refine ⟨hread', ?_⟩
  rintro settings rfl
  have hload : Catalog.discover g route settings =
      (Catalog.ofSources settings.leniency files).mapError .style := by
    rw [Catalog.discover, hread', Catalog.load]
  refine ⟨hload, fun c hc => ?_⟩
  rw [hload] at hc
  cases hsources : Catalog.ofSources settings.leniency files with
  | error e => rw [hsources] at hc; cases hc
  | ok c' =>
      rw [hsources] at hc
      cases hc
      exact Catalog.map_name_of_ofSources hsources

/-- A folder with one in it, files in both, and links to these. -/
def nested : Folder where
  entries :=
    [([], .folder),
      (["z.css".toList], .file (encode ".z {}".toList)),
      (["pages".toList], .folder),
      (["pages".toList, "home.css".toList], .file (encode ".home {}".toList)),
      (["again".toList], .link ⟨[.down "pages".toList], false⟩),
      (["a.css".toList], .link ⟨[.down "z.css".toList], false⟩),
      (["notes.txt".toList], .file [0xFF])]

theorem discover_exact_nested :
    nested.IsTree ∧ nested.find .top = .ok ([], .folder) ∧
      (∀ e ∈ nested.entries, ∀ file ∈ styleFile? [] "css".toList e, IsText file.2) ∧
      ∀ g : Folder, g.entries.Perm nested.entries →
        g.readFiles .top "css".toList =
          .ok [("pages/home.css".toList, ".home {}".toList), ("z.css".toList, ".z {}".toList)] ∧
        ∀ c, Catalog.discover g .top {} = .ok c →
          c.files.map (·.name) = ["pages/home.css".toList, "z.css".toList] := by
  have htree : nested.IsTree := by decide
  have htop : nested.find .top = .ok ([], .folder) := by decide
  have htext : ∀ e ∈ nested.entries, ∀ file ∈ styleFile? [] "css".toList e, IsText file.2 := by
    simp only [Utf8.isText_iff_units]
    decide
  obtain ⟨files, -, -, hread⟩ := discover_exact (.inl htree) htop htext
  have hself : nested.readFiles .top "css".toList =
      .ok [("pages/home.css".toList, ".home {}".toList), ("z.css".toList, ".z {}".toList)] :=
    (htree.readFiles_eq_ok_iff htop).2 (by decide)
  obtain rfl := Except.ok.inj ((hread nested (.refl _)).1.symm.trans hself)
  refine ⟨htree, htop, htext, fun g hg => ?_⟩
  obtain ⟨hfiles, hcatalog⟩ := hread g hg
  exact ⟨hfiles, (hcatalog {} rfl).2⟩

end Folder

end StyleSieve
