import StyleSieve.Selector.Piece

/-!
# What a page uses

A usage is the set of keys that markup has named so far.  It only grows, and it keeps the order in
which keys were first seen.  `admits` says whether a selector with given pieces may match: one
piece is enough, and a selector without keys may always match.
-/

namespace StyleSieve

/-- The keys seen so far, each once. -/
structure Usage where
  keys : List Text := []
  nodup : keys.Nodup := by simp
  deriving DecidableEq, Repr

namespace Usage

/-- Nothing seen. -/
def empty : Usage := {}

instance : Inhabited Usage := ⟨empty⟩

/-- Whether a key has been seen. -/
def contains (u : Usage) (key : Text) : Bool := u.keys.contains key

theorem contains_eq_true {u : Usage} {key : Text} : u.contains key = true ↔ key ∈ u.keys := by
  simp [contains]

/-- The usage with one more key. -/
def insert (u : Usage) (key : Text) : Usage :=
  if h : key ∈ u.keys then u
  else
    { keys := u.keys ++ [key]
      nodup := by
        refine List.nodup_append.2 ⟨u.nodup, by simp, ?_⟩
        intro a ha b hb
        simp only [List.mem_singleton] at hb
        exact fun e => h (hb ▸ e ▸ ha) }

/-- The usage with some more keys. -/
def insertAll (u : Usage) (keys : List Text) : Usage := keys.foldl insert u

/-- The usage of some keys. -/
def ofKeys (keys : List Text) : Usage := empty.insertAll keys

/-- The number of keys. -/
def size (u : Usage) : Nat := u.keys.length

/-- Whether a selector with these pieces may match. -/
def admits (u : Usage) (pieces : List Piece) : Bool :=
  (Piece.keys pieces).isEmpty || (Piece.keys pieces).any u.contains

theorem mem_keys_insert {u : Usage} {key k : Text} :
    k ∈ (u.insert key).keys ↔ k ∈ u.keys ∨ k = key := by
  by_cases h : key ∈ u.keys
  · simp only [insert, h, dite_true]
    exact ⟨.inl, fun hk => hk.elim id fun e => e ▸ h⟩
  · simp [insert, h]

end Usage

end StyleSieve
