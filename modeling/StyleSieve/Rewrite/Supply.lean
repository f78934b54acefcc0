import StyleSieve.Catalog.Render

/-!
# Where the CSS of a page comes from

A supply chooses bodies for what a page uses and writes them.  A catalog is one.
-/

namespace StyleSieve

/-- A source of CSS. -/
structure Supply where
  /-- The bodies that a page may need. -/
  select : Usage → List BodyRef
  /-- Some bodies as CSS, with the global at-rules or without. -/
  render : List BodyRef → (globals : Bool) → Text

/-- A catalog as a supply. -/
def Catalog.supply (c : Catalog) : Supply := ⟨c.select, c.render⟩

end StyleSieve
