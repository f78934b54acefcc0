import Mathlib.Data.List.Induction
import Mathlib.Data.List.Nodup
import StyleSieve.Engine.Discovery
import StyleSieve.Proofs.Folder.Paths

/-!
# Folders are trees

The entries of a folder are a list, but what they mean is a tree: each stands alone at its path, in
a folder, under a name (`Folder.IsTree`).

* `Folder.IsTree.find_perm`: where a route leads does not depend on the order of the entries.
* `Folder.IsTree.within_perm`, `Folder.IsTree.flatMap_within_perm`: what stands in a folder is the
  folder, what is listed in it, and what stands in the folders that are listed.
-/

namespace StyleSieve.Folder

open Transfer (Failure)

variable {f g : Folder} {path : Path} {entry : Entry}

/-- The entries of a folder form a tree. -/
structure IsTree (f : Folder) : Prop where
  /-- No two stand at one path. -/
  nodup : (f.entries.map (·.1)).Nodup
  /-- Whatever stands below the top stands in a folder. -/
  parent : ∀ e ∈ f.entries, e.1 ≠ [] → (e.1.dropLast, .folder) ∈ f.entries
  name : ∀ e ∈ f.entries, ∀ name ∈ e.1, Path.IsName name

instance (f : Folder) : Decidable f.IsTree :=
  decidable_of_iff
    ((f.entries.map (·.1)).Nodup ∧
      (∀ e ∈ f.entries, e.1 ≠ [] → (e.1.dropLast, .folder) ∈ f.entries) ∧
      ∀ e ∈ f.entries, ∀ name ∈ e.1, Path.IsName name)
    ⟨fun ⟨h₁, h₂, h₃⟩ => ⟨h₁, h₂, h₃⟩, fun h => ⟨h.nodup, h.parent, h.name⟩⟩

namespace IsTree

theorem perm (hf : f.IsTree) (h : g.entries.Perm f.entries) : g.IsTree where
  nodup := (h.map _).nodup_iff.2 hf.nodup
  parent e he hne := h.mem_iff.2 (hf.parent e (h.mem_iff.1 he) hne)
  name e he := hf.name e (h.mem_iff.1 he)

/-- What stands above something is a folder. -/
theorem folder_above (hf : f.IsTree) {below : Path} (h : (path ++ below, entry) ∈ f.entries)
    (hbelow : below ≠ []) : (path, .folder) ∈ f.entries := by
  induction below using List.reverseRecOn generalizing entry with
  | nil => exact absurd rfl hbelow
  | append_singleton below name ih =>
      have hparent := hf.parent _ h (by simp)
      rw [← List.append_assoc, List.dropLast_concat] at hparent
      by_cases hnil : below = []
      · rwa [hnil, List.append_nil] at hparent
      · exact ih hparent hnil

/-- Two entries at one path are the same. -/
theorem eq_of_path_eq (hf : f.IsTree) {a b : Path × Entry} (ha : a ∈ f.entries)
    (hb : b ∈ f.entries) (h : a.1 = b.1) : a = b :=
  List.inj_on_of_nodup_map hf.nodup ha hb h

/-! ### Routes -/

theorem entry?_eq_some_iff (hf : f.IsTree) :
    f.entry? path = some entry ↔ (path, entry) ∈ f.entries := by
  unfold entry?
  rw [List.lookup_eq_some_iff]
  constructor
  · rintro ⟨before, after, h, -⟩
    simp [h]
  · intro h
    obtain ⟨before, after, hsplit⟩ := List.append_of_mem h
    refine ⟨before, after, hsplit, fun e he => ?_⟩
    have hnodup := hf.nodup
    rw [hsplit, List.map_append, List.map_cons, List.nodup_append] at hnodup
    exact bne_iff_ne.2 (hnodup.2.2 _ (List.mem_map_of_mem he) _ List.mem_cons_self).symm

theorem entry?_perm (hf : f.IsTree) (h : g.entries.Perm f.entries) : g.entry? = f.entry? := by
  funext path
  ext entry
  rw [(hf.perm h).entry?_eq_some_iff, hf.entry?_eq_some_iff, h.mem_iff]

end IsTree

theorem walk_congr (h : g.entry? = f.entry?) (onLink : Route → Except Failure Spot)
    (policy : EndPolicy) (spot : Spot) (steps : List Step) :
    g.walk onLink policy spot steps = f.walk onLink policy spot steps := by
  induction steps generalizing spot with
  | nil => rfl
  | cons step rest ih => simp only [walk, h, ih]

theorem seekWithin_congr (h : g.entry? = f.entry?) (policy : EndPolicy) (limit : Nat) :
    g.seekWithin policy limit = f.seekWithin policy limit := by
  induction limit with
  | zero => rfl
  | succ limit ih =>
      funext route
      rw [seekWithin, seekWithin, ih, walk_congr h]

/-- Where a route leads does not depend on the order of the entries. -/
theorem IsTree.find_perm (hf : f.IsTree) (h : g.entries.Perm f.entries) (route : Route) :
    g.find route = f.find route := by
  have hentry := hf.entry?_perm h
  simp only [find, findWith, seek, seekWithin_congr hentry, hentry]

theorem entry?_of_findWith {policy : EndPolicy} {route : Route}
    (h : f.findWith policy route = .ok (path, entry)) : f.entry? path = some entry := by
  cases hseek : f.seek policy route with
  | error failure => simp [findWith, hseek, bind, Except.bind] at h
  | ok spot =>
      simp only [findWith, hseek, bind, Except.bind] at h
      split at h
      case h_1 hentry => cases h; exact hentry
      case h_2 hentry =>
        split at h
        · cases h
        · cases h; exact hentry
      case h_3 => cases h

theorem IsTree.mem_of_find (hf : f.IsTree) {route : Route}
    (h : f.find route = .ok (path, entry)) : (path, entry) ∈ f.entries :=
  hf.entry?_eq_some_iff.1 (entry?_of_findWith h)

/-! ### What stands in a folder -/

/-- What stands at a path or below it. -/
def within (f : Folder) (path : Path) : List (Path × Entry) :=
  f.entries.filter fun e => path <+: e.1

theorem mem_within {e : Path × Entry} : e ∈ f.within path ↔ e ∈ f.entries ∧ path <+: e.1 := by
  rw [within, List.mem_filter, decide_eq_true_eq]

theorem mem_listed {e : Path × Entry} :
    e ∈ f.listed path ↔ e ∈ f.entries ∧ ∃ name, e.1 = path ++ [name] := by
  rw [listed, List.mem_filter]
  simp only [ne_eq, decide_not, Bool.and_eq_true, Bool.not_eq_true', decide_eq_false_iff_not,
    decide_eq_true_eq]
  refine and_congr_right fun _ => ⟨?_, ?_⟩
  · rintro ⟨hne, rfl⟩
    exact ⟨e.1.getLast hne, (List.dropLast_concat_getLast hne).symm⟩
  · rintro ⟨name, h⟩
    simp [h]

theorem folder?_eq_some_iff {e : Path × Entry} : folder? e = some path ↔ e = (path, .folder) := by
  obtain ⟨p, _ | _ | _⟩ := e <;> simp [folder?]

namespace IsTree

theorem nodup_entries (hf : f.IsTree) : f.entries.Nodup := hf.nodup.of_map

theorem nodup_within (hf : f.IsTree) (path : Path) : (f.within path).Nodup :=
  hf.nodup_entries.filter _

/-- Nothing stands below what is no folder. -/
theorem within_of_folder?_eq_none (hf : f.IsTree) {e : Path × Entry} (he : e ∈ f.entries)
    (h : folder? e = none) : f.within e.1 = [e] := by
  have hmem (a : Path × Entry) : a ∈ f.within e.1 ↔ a = e := by
    rw [mem_within]
    constructor
    · rintro ⟨ha, below, hbelow⟩
      by_cases hnil : below = []
      · exact hf.eq_of_path_eq ha he (by rw [← hbelow, hnil, List.append_nil])
      · have habove : (e.1 ++ below, a.2) ∈ f.entries := by rwa [hbelow]
        have hfolder := hf.folder_above habove hnil
        rw [← hf.eq_of_path_eq hfolder he rfl] at h
        cases h
    · rintro rfl
      exact ⟨he, List.prefix_rfl⟩
  have hperm : (f.within e.1).Perm [e] :=
    (List.perm_ext_iff_of_nodup (hf.nodup_within e.1) (List.nodup_singleton e)).2 fun a => by
      rw [hmem, List.mem_singleton]
  exact List.perm_singleton.1 hperm

theorem nodup_flatMap_within (hf : f.IsTree) (path : Path) :
    ((f.listed path).flatMap fun e => f.within e.1).Nodup := by
  rw [List.nodup_flatMap]
  refine ⟨fun e _ => hf.nodup_within e.1, ?_⟩
  have hlisted : (f.listed path).Pairwise (· ≠ ·) := hf.nodup_entries.filter _
  refine hlisted.imp_of_mem fun {a b} ha hb hne => ?_
  -- two that are listed have names of their own, and what stands below either begins with its
  intro e hea heb
  obtain ⟨ha, name, haname⟩ := mem_listed.1 ha
  obtain ⟨hb, name', hbname⟩ := mem_listed.1 hb
  refine hne (hf.eq_of_path_eq ha hb ?_)
  exact (List.prefix_of_prefix_length_le (mem_within.1 hea).2 (mem_within.1 heb).2
    (by simp [haname, hbname])).eq_of_length (by simp [haname, hbname])

/-- On the way down to what stands below a folder is one of the entries that are listed. -/
theorem exists_listed (hf : f.IsTree) {name : Text} {below : Path}
    (h : (path ++ name :: below, entry) ∈ f.entries) :
    ∃ entry, (path ++ [name], entry) ∈ f.listed path := by
  have hentry : ∃ entry, (path ++ [name], entry) ∈ f.entries := by
    cases below with
    | nil => exact ⟨entry, h⟩
    | cons next below =>
        rw [List.append_cons] at h
        exact ⟨.folder, hf.folder_above h (List.cons_ne_nil next below)⟩
  exact hentry.imp fun entry hentry => mem_listed.2 ⟨hentry, name, rfl⟩

/-- What stands at a folder or below it is the folder, and what stands at something that is listed
or below that. -/
theorem within_perm (hf : f.IsTree) (h : (path, .folder) ∈ f.entries) :
    (f.within path).Perm
      ((path, .folder) :: (f.listed path).flatMap fun e => f.within e.1) := by
  have hnotMem : (path, Entry.folder) ∉ (f.listed path).flatMap fun e => f.within e.1 := by
    intro hmem
    obtain ⟨e, he, hwithin⟩ := List.mem_flatMap.1 hmem
    obtain ⟨-, name, hname⟩ := mem_listed.1 he
    have hlength := (mem_within.1 hwithin).2.length_le
    rw [hname, List.length_append] at hlength
    exact Nat.not_succ_le_self _ hlength
  rw [List.perm_ext_iff_of_nodup (hf.nodup_within path)
    (List.nodup_cons.2 ⟨hnotMem, hf.nodup_flatMap_within path⟩)]
  intro e
  rw [mem_within, List.mem_cons, List.mem_flatMap]
  constructor
  · rintro ⟨he, below, hbelow⟩
    cases below with
    | nil =>
        rw [List.append_nil] at hbelow
        exact .inl (hf.eq_of_path_eq he h hbelow.symm)
    | cons name below =>
        have hentry : (path ++ name :: below, e.2) ∈ f.entries := by rwa [hbelow]
        obtain ⟨entry, hlisted⟩ := hf.exists_listed hentry
        refine .inr ⟨_, hlisted, mem_within.2 ⟨he, below, ?_⟩⟩
        rw [List.append_assoc, List.singleton_append, hbelow]
  · rintro (rfl | ⟨a, ha, he⟩)
    · exact ⟨h, List.prefix_rfl⟩
    · obtain ⟨-, name, hname⟩ := mem_listed.1 ha
      obtain ⟨he, hunder⟩ := mem_within.1 he
      exact ⟨he, (List.prefix_append path [name]).trans (hname ▸ hunder)⟩

/-- What stands at some entries or below them is those that are no folder, and what stands at the
folders or below them. -/
theorem flatMap_within_perm (hf : f.IsTree) {es : List (Path × Entry)}
    (h : ∀ e ∈ es, e ∈ f.entries) :
    (es.flatMap fun e => f.within e.1).Perm
      ((es.filter fun e => (folder? e).isNone) ++ (es.filterMap folder?).flatMap f.within) := by
  induction es with
  | nil => exact .nil
  | cons e es ih =>
      obtain ⟨he, hes⟩ := List.forall_mem_cons.1 h
      have ih := ih hes
      rw [List.flatMap_cons]
      cases hfolder : folder? e with
      | none =>
          rw [hf.within_of_folder?_eq_none he hfolder, List.filterMap_cons_none hfolder,
            List.filter_cons_of_pos (by simp [hfolder])]
          exact ih.cons e
      | some p =>
          rw [List.filterMap_cons_some hfolder, List.filter_cons_of_neg (by simp [hfolder]),
            List.flatMap_cons, folder?_eq_some_iff.1 hfolder]
          exact (ih.append_left _).trans (List.perm_append_comm_assoc _ _ _)

end IsTree

end StyleSieve.Folder
