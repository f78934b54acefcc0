import Mathlib.Data.List.TakeWhile
import StyleSieve.Folder.Path

/-!
# What a path is written as

* `Path.below?_eq_some_iff`: a path below another one.
* `Path.toText_inj`: paths whose names can stand between slashes are told apart by how they are
  written.
* `Path.extension?_eq_some_iff`: the extension of a name.
-/

namespace StyleSieve.Path

/-! ### Below a path -/

theorem below?_eq_some_iff {top path below : Path} :
    below? top path = some below ↔ path = top ++ below := by
  induction top generalizing path with
  | nil => simp [below?]
  | cons t top ih =>
      cases path with
      | nil => simp [below?]
      | cons name path =>
          rw [below?]
          split
          case isTrue h => simp [h, ih]
          case isFalse h => simp [Ne.symm h]

@[simp] theorem below?_append (top below : Path) : below? top (top ++ below) = some below :=
  below?_eq_some_iff.2 rfl

theorem below?_of_dropLast {top path below : Path} (hne : path ≠ [])
    (h : below? top path.dropLast = some below) :
    below? top path = some (below ++ [path.getLast hne]) := by
  rw [below?_eq_some_iff] at h ⊢
  rw [← List.append_assoc, ← h, List.dropLast_concat_getLast]

@[simp] theorem nameFrom_append (top below : Path) :
    nameFrom top (top ++ below) = toText below := by
  rw [nameFrom, below?_append, Option.getD_some]

/-! ### Between slashes -/

/-- A text that can stand between two slashes. -/
def IsName (name : Text) : Prop := name ≠ [] ∧ '/' ∉ name

instance (name : Text) : Decidable (IsName name) := inferInstanceAs (Decidable (_ ∧ _))

theorem toText_eq_intercalate (p : Path) : toText p = ['/'].intercalate p := by
  induction p with
  | nil => rfl
  | cons name names ih =>
      cases names with
      | nil => simp [toText]
      | cons next names =>
          rw [toText, ih, List.intercalate_cons_cons, List.append_assoc, List.singleton_append]
          exact List.cons_ne_nil next names

theorem toText_eq_nil {p : Path} (hp : ∀ name ∈ p, IsName name) : toText p = [] ↔ p = [] := by
  refine ⟨fun h => ?_, congrArg toText⟩
  match p with
  | [] => rfl
  | [name] => exact absurd h (hp name (List.mem_singleton_self name)).1
  | name :: next :: names => simp [toText] at h

theorem toText_inj {p q : Path} (hp : ∀ name ∈ p, IsName name) (hq : ∀ name ∈ q, IsName name) :
    toText p = toText q ↔ p = q := by
  refine ⟨fun h => ?_, congrArg toText⟩
  by_cases hnil : p = []
  · rw [hnil] at h ⊢
    exact ((toText_eq_nil hq).1 h.symm).symm
  · have hnil' : q ≠ [] := by rwa [ne_eq, ← toText_eq_nil hq, ← h, toText_eq_nil hp]
    have hsplit := congrArg (List.splitOn '/') h
    rwa [toText_eq_intercalate, toText_eq_intercalate,
      List.splitOn_intercalate '/' (fun name h => (hp name h).2) hnil,
      List.splitOn_intercalate '/' (fun name h => (hq name h).2) hnil'] at hsplit

/-! ### Extensions -/

theorem extension?_of_notMem {name : Text} (h : '.' ∉ name) : extension? name = none := by
  have hdrop : name.reverse.dropWhile (· ≠ '.') = [] := by
    rw [List.dropWhile_eq_nil_iff]
    intro c hc
    exact decide_eq_true (ne_of_mem_of_not_mem (List.mem_reverse.1 hc) h)
  simp only [extension?, hdrop, List.drop_nil, List.isEmpty_nil, if_true]

theorem extension?_append {extension : Text} (h : '.' ∉ extension) (stem : Text) :
    extension? (stem ++ '.' :: extension) = if stem = [] then none else some extension := by
  have hstop : ∀ c ∈ extension.reverse, decide (c ≠ '.') = true := fun c hc =>
    decide_eq_true (ne_of_mem_of_not_mem (List.mem_reverse.1 hc) h)
  simp only [extension?, List.reverse_append, List.reverse_cons, List.append_assoc,
    List.takeWhile_append_of_pos hstop, List.dropWhile_append_of_pos hstop]
  simp

/-- The extension of a name is what stands behind its last dot, if something stands in front. -/
theorem extension?_eq_some_iff {name extension : Text} :
    extension? name = some extension ↔
      ∃ stem, stem ≠ [] ∧ '.' ∉ extension ∧ name = stem ++ '.' :: extension := by
  constructor
  · intro h
    by_cases hdot : '.' ∈ name
    · obtain ⟨front, back, hname, hfront⟩ := List.eq_append_cons_of_mem (List.mem_reverse.2 hdot)
      obtain rfl : name = back.reverse ++ '.' :: front.reverse := by
        rw [← List.reverse_reverse name, hname]
        simp
      have hfront' : '.' ∉ front.reverse := fun hc => hfront (List.mem_reverse.1 hc)
      rw [extension?_append hfront'] at h
      split at h
      case isTrue => cases h
      case isFalse hstem => exact ⟨_, hstem, Option.some.inj h ▸ hfront', by rw [Option.some.inj h]⟩
    · rw [extension?_of_notMem hdot] at h
      cases h
  · rintro ⟨stem, hstem, hextension, rfl⟩
    rw [extension?_append hextension, if_neg hstem]

end StyleSieve.Path
