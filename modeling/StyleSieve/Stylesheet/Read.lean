import StyleSieve.Css.Strict.Sheet
import StyleSieve.Stylesheet.OfNodes

/-!
# Reading a stylesheet

A stylesheet is read as one file of a project.  A strict reader refuses it at its first offence; a
lenient one passes over what it cannot read.
-/

namespace StyleSieve

/-- Why styles are not read. -/
inductive StyleError where
  /-- A stylesheet is refused: the name of its file, and its first offence. -/
  | refused (file : Text) (offence : Css.Offence)
  /-- There are more files than numbers for them. -/
  | tooManyFiles
  deriving DecidableEq, Repr

namespace StyleError

/-- What is wrong in the text of a file. -/
def offence? : StyleError → Option Css.Offence
  | refused _ offence => some offence
  | tooManyFiles => none

/-- The name of the file that is refused; no name where none is. -/
def file : StyleError → Text
  | refused file _ => file
  | tooManyFiles => []

/-- The line of the offence, or zero where there is none. -/
def line (e : StyleError) : Nat := e.offence?.elim 0 (·.place.line)

/-- The column of the offence, or zero where there is none. -/
def column (e : StyleError) : Nat := e.offence?.elim 0 (·.place.column)

/-- What is wrong, in words. -/
def detail : StyleError → String
  | refused _ offence => offence.fault.message
  | tooManyFiles => "Too many style files for one lookup"

/-- The wording of the error. -/
def message : StyleError → String
  | refused file offence =>
    "Parse error in " ++ String.ofList file ++ " at line " ++ toString offence.place.line ++
      ", column " ++ toString offence.place.column ++ ": " ++ offence.fault.message
  | tooManyFiles => tooManyFiles.detail

end StyleError

namespace Stylesheet

/-- The stylesheet that a text makes as file number `file`, whatever stands in it. -/
def readLeniently (file : Nat) (css : Text) : Stylesheet := ofNodes file (Css.Node.ofText css)

/-- The stylesheet that a text makes as file number `file`, unless a strict reader refuses it. -/
def readStrictly (file : Nat) (name css : Text) : Except StyleError Stylesheet :=
  match Css.Strict.verdict css with
  | .ok () => .ok (readLeniently file css)
  | .error offence => .error (.refused name offence)

/-- Reads a text as file number `file`, strictly or leniently. -/
def read (strict : Bool) (file : Nat) (name css : Text) : Except StyleError Stylesheet :=
  if strict then readStrictly file name css else .ok (readLeniently file css)

end Stylesheet

end StyleSieve
