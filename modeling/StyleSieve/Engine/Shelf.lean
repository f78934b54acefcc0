import StyleSieve.Catalog.Basic

/-!
# Shelves

A shelf keeps one catalog at each of its slots.  Whoever holds a slot sees the catalog that stands
there now, and whoever replaces it gets the one that stood there before.
-/

namespace StyleSieve

/-- A place on a shelf. -/
abbrev Slot := Nat

/-- One catalog for each slot, from slot zero on. -/
structure Shelf where
  catalogs : List Catalog := []
  deriving DecidableEq, Repr, Inhabited

namespace Shelf

/-- The catalog at a slot; an empty one where there is no such slot. -/
def catalog (s : Shelf) (slot : Slot) : Catalog := (s.catalogs[slot]?).getD {}

/-- Whether the shelf has a slot. -/
def Holds (s : Shelf) (slot : Slot) : Prop := slot < s.catalogs.length

/-- The shelf with one slot more. -/
def add (s : Shelf) (c : Catalog) : Shelf × Slot := (⟨s.catalogs ++ [c]⟩, s.catalogs.length)

/-- The shelf with another catalog at a slot, and the one it replaces. -/
def replace (s : Shelf) (slot : Slot) (c : Catalog) : Shelf × Catalog :=
  (⟨s.catalogs.set slot c⟩, s.catalog slot)

theorem catalog_add_new (s : Shelf) (c : Catalog) : (s.add c).1.catalog (s.add c).2 = c := by
  simp [add, catalog]

theorem catalog_add_old {s : Shelf} {slot : Slot} (h : s.Holds slot) (c : Catalog) :
    (s.add c).1.catalog slot = s.catalog slot := by
  simp [add, catalog, List.getElem?_append_left h]

theorem catalog_replace {s : Shelf} {slot : Slot} (h : s.Holds slot) (c : Catalog) :
    (s.replace slot c).1.catalog slot = c := by
  simp [replace, catalog, List.getElem?_set_self h]

theorem catalog_replace_of_ne {s : Shelf} {slot other : Slot} (h : slot ≠ other) (c : Catalog) :
    (s.replace slot c).1.catalog other = s.catalog other := by
  simp [replace, catalog, List.getElem?_set_ne h]

end Shelf

end StyleSieve
