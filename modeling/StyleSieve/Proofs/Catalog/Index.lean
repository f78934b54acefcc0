import StyleSieve.Catalog.Basic

/-!
# The index of a catalog

The index holds, under each key, the bodies of the branches with that key, and nothing else.  So a
page gets the bodies of the branches with a key that it uses, or without keys.

* `BodyRef.increasing_collect`: references are listed in order, each once.
* `mem_refs`: what stands under a key.
* `mem_query`, `mem_select`: the bodies under a key, and those chosen for a page.
* `index_exact`: the index answers what a search of all branches would.
-/

namespace StyleSieve

namespace BodyRef

variable {r a : BodyRef} {refs : List BodyRef}

theorem mem_insert : r ∈ insert a refs ↔ r = a ∨ r ∈ refs := by
  induction refs with
  | nil => simp [insert]
  | cons first rest ih =>
      rw [insert]
      split
      · exact List.mem_cons
      · split
        case isTrue e =>
          subst e
          simp
        case isFalse => rw [List.mem_cons, ih, List.mem_cons, or_left_comm]

theorem mem_collect : r ∈ collect refs ↔ r ∈ refs := by
  induction refs with
  | nil => rfl
  | cons a refs ih => rw [collect, List.foldr_cons, mem_insert, List.mem_cons, ← ih, collect]

/-! ### Order -/

/-- The references come by file, then by body, each once. -/
def Increasing (refs : List BodyRef) : Prop := refs.Pairwise fun a b => a.precedes b = true

theorem precedes_iff {a b : BodyRef} :
    a.precedes b = true ↔ a.file < b.file ∨ a.file = b.file ∧ a.body < b.body := by
  simp only [precedes, Bool.or_eq_true, Bool.and_eq_true, decide_eq_true_eq, beq_iff_eq]

theorem precedes_trans {a b c : BodyRef} (hab : a.precedes b = true) (hbc : b.precedes c = true) :
    a.precedes c = true := by
  rw [precedes_iff] at hab hbc ⊢
  rcases hab with hab | ⟨hab, hab'⟩
  · rcases hbc with hbc | ⟨hbc, -⟩
    · exact .inl (Nat.lt_trans hab hbc)
    · exact .inl (hbc ▸ hab)
  · rcases hbc with hbc | ⟨hbc, hbc'⟩
    · exact .inl (hab ▸ hbc)
    · exact .inr ⟨hab.trans hbc, Nat.lt_trans hab' hbc'⟩

/-- Of two references one comes first, unless they are the same. -/
theorem precedes_of_not {a b : BodyRef} (h : ¬ a.precedes b = true) (hne : a ≠ b) :
    b.precedes a = true := by
  rw [precedes_iff, not_or, not_and] at h
  obtain ⟨hfile, hbody⟩ := h
  refine precedes_iff.2 ?_
  rcases Nat.lt_or_eq_of_le (Nat.not_lt.1 hfile) with hlt | heq
  · exact .inl hlt
  · refine .inr ⟨heq, Nat.lt_of_le_of_ne (Nat.not_lt.1 (hbody heq.symm)) fun e => hne ?_⟩
    cases a
    cases b
    cases heq
    cases e
    rfl

theorem increasing_insert (h : Increasing refs) : Increasing (insert r refs) := by
  induction refs with
  | nil => exact List.pairwise_singleton _ _
  | cons first rest ih =>
      obtain ⟨hfirst, hrest⟩ := List.pairwise_cons.1 h
      rw [insert]
      split
      case isTrue hr =>
        -- what comes before the first comes before the others too
        refine List.pairwise_cons.2 ⟨fun a ha => ?_, h⟩
        rcases List.mem_cons.1 ha with rfl | ha
        · exact hr
        · exact precedes_trans hr (hfirst a ha)
      case isFalse hr =>
        split
        case isTrue => exact h
        case isFalse hne =>
          refine List.pairwise_cons.2 ⟨fun a ha => ?_, ih hrest⟩
          rcases mem_insert.1 ha with rfl | ha
          · exact precedes_of_not hr hne
          · exact hfirst a ha

theorem increasing_collect (refs : List BodyRef) : Increasing (collect refs) := by
  induction refs with
  | nil => exact .nil
  | cons a refs ih => exact increasing_insert ih

end BodyRef

namespace Catalog

namespace Index

variable {k : Text} {r : BodyRef}

theorem refs_cons (k k' : Text) (refs : List BodyRef) (rest : Index) :
    Index.refs k ((k', refs) :: rest) = if k = k' then refs else Index.refs k rest := by
  by_cases h : k = k'
  · rw [if_pos h, h]
    simp [Index.refs]
  · rw [if_neg h]
    simp [Index.refs, List.lookup_cons, beq_false_of_ne h]

/-- A body is added in front of those under its key, and under no other. -/
theorem refs_add (key : Text) (ref : BodyRef) (index : Index) (k : Text) :
    (index.add key ref).refs k = if k = key then ref :: index.refs k else index.refs k := by
  induction index with
  | nil =>
      rw [add, refs_cons]
      rfl
  | cons entry rest ih =>
      obtain ⟨k', refs⟩ := entry
      rw [add]
      split
      case isTrue e =>
        subst e
        rw [refs_cons, refs_cons]
        split <;> rfl
      case isFalse e =>
        rw [refs_cons, refs_cons, ih]
        grind

/-- Adds the body of an entry under each of its keys. -/
def addEntry (index : Index) (e : Entry) : Index :=
  e.keys.foldl (fun index k => index.add k e.ref) index

theorem mem_refs_addEntry {index : Index} {e : Entry} :
    r ∈ (index.addEntry e).refs k ↔ r ∈ index.refs k ∨ k ∈ e.keys ∧ r = e.ref := by
  obtain ⟨ref, keys⟩ := e
  unfold addEntry
  induction keys generalizing index with
  | nil => simp
  | cons key keys ih =>
      have hadd : r ∈ (index.add key ref).refs k ↔ r ∈ index.refs k ∨ k = key ∧ r = ref := by
        rw [refs_add]
        split
        case isTrue e => simp [e, or_comm]
        case isFalse e => simp [e]
      rw [List.foldl_cons, ih, hadd, List.mem_cons, or_and_right, or_assoc]

/-- Under a key stand the bodies of the entries with that key. -/
theorem mem_refs_foldl {all : List Entry} {index : Index} :
    r ∈ (all.foldl addEntry index).refs k ↔
      r ∈ index.refs k ∨ ∃ e ∈ all, k ∈ e.keys ∧ r = e.ref := by
  induction all generalizing index with
  | nil => simp
  | cons e all ih =>
      rw [List.foldl_cons, ih, mem_refs_addEntry, or_assoc]
      simp only [List.mem_cons, exists_eq_or_imp]

end Index

variable {files : List StyleFile} {r : BodyRef}

theorem mem_refs {k : Text} :
    r ∈ (ofFiles files).index.refs k ↔ ∃ e ∈ entries files, k ∈ e.keys ∧ r = e.ref := by
  have hindex : (ofFiles files).index = (entries files).foldl Index.addEntry [] := rfl
  rw [hindex, Index.mem_refs_foldl]
  simp [Index.refs]

theorem mem_unkeyed :
    r ∈ (ofFiles files).unkeyed ↔ ∃ e ∈ entries files, e.keys = [] ∧ r = e.ref := by
  have hunkeyed : (ofFiles files).unkeyed =
      ((entries files).filter (·.keys.isEmpty)).map (·.ref) := rfl
  simp only [hunkeyed, List.mem_map, List.mem_filter, List.isEmpty_iff, and_assoc, @eq_comm _ r]

/-- The bodies chosen for a page are those of the entries without keys, or with one that it uses. -/
theorem mem_select {usage : Usage} :
    r ∈ (ofFiles files).select usage ↔
      ∃ e ∈ entries files, (e.keys = [] ∨ ∃ k ∈ e.keys, k ∈ usage.keys) ∧ r = e.ref := by
  rw [select, BodyRef.mem_collect, List.mem_append, List.mem_flatMap, mem_unkeyed]
  simp only [mem_refs]
  constructor
  · rintro (⟨k, hk, e, he, hmem, hr⟩ | ⟨e, he, hnil, hr⟩)
    · exact ⟨e, he, .inr ⟨k, hmem, hk⟩, hr⟩
    · exact ⟨e, he, .inl hnil, hr⟩
  · rintro ⟨e, he, hnil | ⟨k, hmem, hk⟩, hr⟩
    · exact .inr ⟨e, he, hnil, hr⟩
    · exact .inl ⟨k, hk, e, he, hmem, hr⟩

/-- The more a page uses, the more bodies are chosen for it. -/
theorem select_mono {usage more : Usage} (h : ∀ k ∈ usage.keys, k ∈ more.keys)
    (hr : r ∈ (ofFiles files).select usage) : r ∈ (ofFiles files).select more := by
  obtain ⟨e, he, hkeys, hr⟩ := mem_select.1 hr
  refine mem_select.2 ⟨e, he, hkeys.imp_right fun ⟨k, hmem, hk⟩ => ⟨k, hmem, h k hk⟩, hr⟩

/-- The bodies under a key are those of the entries with that key. -/
theorem mem_query {k : Text} :
    r ∈ (ofFiles files).query k ↔ ∃ e ∈ entries files, k ∈ e.keys ∧ r = e.ref := by
  rw [query, BodyRef.mem_collect, mem_refs]

/-- The entries are the branches that are not global, each with its file. -/
theorem mem_entries {e : Entry} :
    e ∈ entries files ↔
      ∃ number file, files[number]? = some file ∧ ∃ b ∈ file.sheet.branches,
        b.isGlobal = false ∧ e = ⟨⟨number, b.body⟩, Piece.keys b.parts.pieces⟩ := by
  simp only [entries, entriesOf, List.mem_flatMap, List.mem_map, List.mem_filter,
    Bool.not_eq_true', Prod.exists, List.mem_zipIdx_iff_getElem?, and_assoc,
    @eq_comm _ e]
  exact exists_comm

/-! ### A search without an index -/

/-- The reference is to the body of a branch of its file that is not global and is as `p` says. -/
def IsBodyOf (files : List StyleFile) (p : Stylesheet.Branch → Prop) (r : BodyRef) : Prop :=
  ∃ file, files[r.file]? = some file ∧
    ∃ b ∈ file.sheet.branches, b.isGlobal = false ∧ b.body = r.body ∧ p b

/-- What is said of the keys of entries is said of the pieces of branches. -/
theorem isBodyOf_iff {p : List Text → Prop} :
    (∃ e ∈ entries files, p e.keys ∧ r = e.ref) ↔
      IsBodyOf files (fun b => p (Piece.keys b.parts.pieces)) r := by
  constructor
  · rintro ⟨e, he, hp, rfl⟩
    obtain ⟨number, file, hfile, b, hb, hglobal, rfl⟩ := mem_entries.1 he
    exact ⟨file, hfile, b, hb, hglobal, rfl, hp⟩
  · rintro ⟨file, hfile, b, hb, hglobal, hbody, hp⟩
    refine ⟨_, mem_entries.2 ⟨r.file, file, hfile, b, hb, hglobal, rfl⟩, hp, ?_⟩
    rw [hbody]

theorem admits_iff {usage : Usage} {pieces : List Piece} :
    usage.admits pieces = true ↔
      Piece.keys pieces = [] ∨ ∃ k ∈ Piece.keys pieces, k ∈ usage.keys := by
  simp only [Usage.admits, Bool.or_eq_true, List.isEmpty_iff, List.any_eq_true,
    Usage.contains_eq_true]

/-- The bodies of a file that are chosen for a page are those of its branches that may match. -/
theorem mem_select_file {number : Nat} {file : StyleFile} (hfile : files[number]? = some file)
    {usage : Usage} {id : BodyId} :
    ⟨number, id⟩ ∈ (ofFiles files).select usage ↔
      ∃ b ∈ file.sheet.branches, b.isGlobal = false ∧ b.body = id ∧
        usage.admits b.parts.pieces = true := by
  simp only [admits_iff]
  refine (mem_select.trans
    (isBodyOf_iff (p := fun ks => ks = [] ∨ ∃ k ∈ ks, k ∈ usage.keys))).trans
      ⟨?_, fun h => ⟨file, hfile, h⟩⟩
  rintro ⟨file', hfile', h⟩
  obtain rfl := Option.some.inj (hfile.symm.trans hfile')
  exact h

/-- The bodies chosen for a page are those under the keys that it uses, and those that a page
without keys gets. -/
theorem mem_select_iff_query {usage : Usage} :
    r ∈ (ofFiles files).select usage ↔
      (∃ k ∈ usage.keys, r ∈ (ofFiles files).query k) ∨ r ∈ (ofFiles files).select .empty := by
  have hempty (k : Text) : k ∉ Usage.empty.keys := List.not_mem_nil
  simp only [mem_select, mem_query]
  constructor
  · rintro ⟨e, he, hnil | ⟨k, hmem, hk⟩, hr⟩
    · exact .inr ⟨e, he, .inl hnil, hr⟩
    · exact .inl ⟨k, hk, e, he, hmem, hr⟩
  · rintro (⟨k, hk, e, he, hmem, hr⟩ | ⟨e, he, hnil | ⟨k, -, hk⟩, hr⟩)
    · exact ⟨e, he, .inr ⟨k, hmem, hk⟩, hr⟩
    · exact ⟨e, he, .inl hnil, hr⟩
    · exact absurd hk (hempty k)

/-- **The index is exact.**  For any files, the bodies chosen for a page are listed in order, each
once, and are those of the branches that its usage admits; the bodies under a key are those of the
branches with a piece of that key.  So a page gets what stands under its keys, and what every page
gets.  The number of a file is its place among the files, and less than there are. -/
theorem index_exact (files : List StyleFile) :
    (∀ usage : Usage, BodyRef.Increasing ((ofFiles files).select usage) ∧
      ∀ r, r ∈ (ofFiles files).select usage ↔
        IsBodyOf files (fun b => usage.admits b.parts.pieces = true) r) ∧
    (∀ key : Text, BodyRef.Increasing ((ofFiles files).query key) ∧
      ∀ r, r ∈ (ofFiles files).query key ↔
        IsBodyOf files (fun b => ∃ p ∈ b.parts.pieces, p.key = some key) r) ∧
    (∀ (usage : Usage) (r : BodyRef), r ∈ (ofFiles files).select usage ↔
      (∃ key ∈ usage.keys, r ∈ (ofFiles files).query key) ∨
        r ∈ (ofFiles files).select .empty) ∧
    ∀ e ∈ entries files, e.ref.file < files.length := by
  refine ⟨fun usage => ⟨BodyRef.increasing_collect _, fun r => ?_⟩,
    fun key => ⟨BodyRef.increasing_collect _, fun r => ?_⟩, fun usage r => mem_select_iff_query,
    fun e he => ?_⟩
  · simp only [admits_iff]
    exact mem_select.trans (isBodyOf_iff (p := fun ks => ks = [] ∨ ∃ k ∈ ks, k ∈ usage.keys))
  · have hkey (pieces : List Piece) :
        (∃ p ∈ pieces, p.key = some key) ↔ key ∈ Piece.keys pieces := List.mem_filterMap.symm
    simp only [hkey]
    exact mem_query.trans (isBodyOf_iff (p := (key ∈ ·)))
  · obtain ⟨number, file, hfile, b, -, -, rfl⟩ := mem_entries.1 he
    exact (List.getElem?_eq_some_iff.1 hfile).1

end Catalog

end StyleSieve
