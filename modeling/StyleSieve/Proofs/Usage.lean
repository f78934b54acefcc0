import StyleSieve.Usage

/-!
# Keys of a usage

* `Usage.mem_keys_insertAll`: the keys are those there were and those put in.
* `Usage.insertAll_of_subset`: keys that have been seen change nothing.
-/

namespace StyleSieve.Usage

theorem mem_keys_insertAll {u : Usage} {keys : List Text} {k : Text} :
    k ∈ (u.insertAll keys).keys ↔ k ∈ u.keys ∨ k ∈ keys := by
  induction keys generalizing u with
  | nil => simp [insertAll]
  | cons key keys ih =>
      have h := ih (u := u.insert key)
      rw [mem_keys_insert, or_assoc] at h
      rw [List.mem_cons]
      exact h

theorem insertAll_append (u : Usage) (keys more : List Text) :
    u.insertAll (keys ++ more) = (u.insertAll keys).insertAll more :=
  List.foldl_append

theorem insert_of_mem {u : Usage} {key : Text} (h : key ∈ u.keys) : u.insert key = u := by
  rw [insert, dif_pos h]

theorem insertAll_of_subset {u : Usage} {keys : List Text} (h : ∀ k ∈ keys, k ∈ u.keys) :
    u.insertAll keys = u := by
  induction keys with
  | nil => rfl
  | cons key keys ih =>
      obtain ⟨hkey, hkeys⟩ := List.forall_mem_cons.1 h
      rw [insertAll, List.foldl_cons, insert_of_mem hkey]
      exact ih hkeys

/-- Keys put in twice are there once. -/
theorem insertAll_insertAll (u : Usage) (keys : List Text) :
    (u.insertAll keys).insertAll keys = u.insertAll keys :=
  insertAll_of_subset fun _ h => mem_keys_insertAll.2 (.inr h)

end StyleSieve.Usage
