import StyleSieve.Catalog.Basic
import StyleSieve.Stylesheet.Read

/-!
# A catalog from source texts

Sources are read in order, each as the file of its position.  A source that is refused fails the
whole, or, if invalid files are skipped, stands there as an empty stylesheet; so positions never
shift.  A source at a position that is no number of a file fails the whole as well.
-/

namespace StyleSieve.Catalog

/-- How sources are read. -/
structure Leniency where
  /-- A source that is refused counts as empty. -/
  skipInvalid : Bool := false
  /-- No source is refused. -/
  skipValidation : Bool := false
  deriving DecidableEq, Repr, Inhabited

/-- How many files can be numbered: a number has 32 bits. -/
def fileLimit : Nat := 4294967296

/-- Reads named sources as files from number `file` on.  Where the numbers end, so does the reading,
with the error `tooMany`. -/
def readFiles {ε : Type} (read : Nat → Text → Text → Except ε Stylesheet) (tooMany : ε)
    (skipInvalid : Bool) : (file : Nat) → List (Text × Text) → Except ε (List StyleFile)
  | _, [] => .ok []
  | file, (name, css) :: rest =>
    if fileLimit ≤ file then .error tooMany
    else
      match read file name css with
      | .ok sheet =>
        (readFiles read tooMany skipInvalid (file + 1) rest).map (⟨name, sheet⟩ :: ·)
      | .error e =>
        if skipInvalid then
          (readFiles read tooMany skipInvalid (file + 1) rest).map (⟨name, {}⟩ :: ·)
        else .error e

/-- The catalog of named sources, for any reader of a source. -/
def ofSourcesWith {ε : Type} (read : Nat → Text → Text → Except ε Stylesheet) (tooMany : ε)
    (skipInvalid : Bool) (sources : List (Text × Text)) : Except ε Catalog :=
  (readFiles read tooMany skipInvalid 0 sources).map ofFiles

/-- The catalog of named sources. -/
def ofSources (leniency : Leniency) (sources : List (Text × Text)) :
    Except StyleError Catalog :=
  ofSourcesWith (Stylesheet.read (!leniency.skipValidation)) .tooManyFiles leniency.skipInvalid
    sources

end StyleSieve.Catalog
