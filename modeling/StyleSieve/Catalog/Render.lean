import StyleSieve.Catalog.Basic
import StyleSieve.Selector.Branches

/-!
# Writing bodies as CSS

Bodies are written file by file and in source order, each once, with all the branches that stand
together in front of it and wrapped in their conditions.  A global at-rule is written with the
source text of its block.
-/

namespace StyleSieve

namespace Stylesheet

/-- Neighbouring branches of one body, all global or none. -/
structure Run where
  first : Branch
  others : List Branch

namespace Run

/-- Whether two neighbours belong to one run. -/
def joins (a b : Branch) : Bool := a.body == b.body && a.isGlobal == b.isGlobal

/-- The runs of a list of branches. -/
def ofBranches : List Branch → List Run
  | [] => []
  | b :: rest =>
    match ofBranches rest with
    | run :: more =>
      if joins b run.first then ⟨b, run.first :: run.others⟩ :: more else ⟨b, []⟩ :: run :: more
    | [] => [⟨b, []⟩]

/-- The branches of a run. -/
def branches (run : Run) : List Branch := run.first :: run.others

/-- An opening bracket, as it is written between other text. -/
def opening : Text := " \x7b".toList

/-- A closing bracket, as it is written after other text. -/
def closing : Text := " \x7d".toList

/-- A setting, as it is written in a block. -/
def settingText (s : Setting) : Text := ' ' :: (s.property ++ (':' :: ' ' :: (s.value ++ [';'])))

/-- A run with its body, without the conditions around it. -/
def coreText (run : Run) (body : Body) : Text :=
  if run.first.isGlobal then
    run.first.text ++
      match body.source with
      | some source => opening ++ (' ' :: (source ++ closing))
      | none => [';']
  else
    Selector.join (run.branches.map (·.text)) ++
      (opening ++ (body.settings.flatMap settingText ++ closing))

/-- A run with its body, one line. -/
def text (run : Run) (body : Body) : Text :=
  run.first.conditions.flatMap (fun c => c.text ++ (opening ++ [' '])) ++
    (run.coreText body ++ (run.first.conditions.flatMap (fun _ => closing) ++ ['\n']))

/-- The runs that are wanted and whose body no earlier one of them has, nor is in `written`. -/
def pick (wanted : Branch → Bool) : (written : List BodyId) → List Run → List Run
  | _, [] => []
  | written, run :: rest =>
    if wanted run.first && !written.contains run.first.body then
      run :: pick wanted (run.first.body :: written) rest
    else pick wanted written rest

end Run

/-- The wanted branches of a stylesheet with their bodies, as CSS. -/
def render (s : Stylesheet) (wanted : Branch → Bool) : Text :=
  (Run.pick wanted [] (Run.ofBranches s.branches)).flatMap fun run =>
    ((s.body? run.first.body).map run.text).getD []

end Stylesheet

namespace Catalog

/-- Whether a branch of a file is to be written. -/
def isWanted (bodies : List BodyRef) (globals : Bool) (file : Nat) (b : Stylesheet.Branch) :
    Bool :=
  if b.isGlobal then globals else bodies.contains ⟨file, b.body⟩

/-- Some bodies as CSS, with the global at-rules or without. -/
def render (c : Catalog) (bodies : List BodyRef) (globals : Bool) : Text :=
  c.files.zipIdx.flatMap fun (file, number) =>
    file.sheet.render (isWanted bodies globals number)

/-- The CSS that a page may need. -/
def critical (c : Catalog) (usage : Usage) : Text := c.render (c.select usage) true

end Catalog

end StyleSieve
