import StyleSieve.Css.Strict.Reader

/-!
# Values

A value is any list of components in which no bracket closes what was not opened and no string or
URL is broken.  Three functions have a form of their own: `url` holds one string; `var` and `env`
hold a name, `env` also integers, and then, behind a comma, the value that stands in.  Where plain
tokens are enough, no function has a form.
-/

namespace StyleSieve.Css.Strict

/-- A token that no value may hold. -/
def isError (l : Lexeme) : Bool :=
  match l.token with
  | .closing _ | .brokenString | .brokenUrl => true
  | _ => false

mutual

/-- The first token in a component that no value may hold. -/
def errorIn : Component → Option Lexeme
  | .leaf lexeme => if isError lexeme then some lexeme else none
  | .block _ content _ _ => errorAmong content

/-- The first token in some components that no value may hold. -/
def errorAmong : List Component → Option Lexeme
  | [] => none
  | c :: rest => (errorIn c).orElse fun _ => errorAmong rest

end

/-- How deep brackets may be nested in a value. -/
def depthLimit : Nat := 500

/-- Reads what may stand in for the value of a variable; what follows the comma is left to the
reader of the value around it. -/
def fallback : Reader Unit := do
  if ← succeeds (token .comma) then skipAll

/-- Reads what a function has to hold in front of any value. -/
def functionHead (opening : Lexeme) : Reader Unit := do
  let is (name : String) : Bool := opening.function? = some name.toList
  if is "url" then discard string
  else if is "var" then
    discard dashedName
    fallback
  else if is "env" then
    discard ownName
    repeated (succeeds integer)
    fallback
  else skipAll

mutual

/-- Checks a component of a value, or of plain tokens, at a depth of brackets. -/
def checkIn (plain : Bool) (depth : Nat) : Component → Except Offence Unit
  | .leaf lexeme => if isError lexeme then .error ⟨.unexpected lexeme, lexeme.start⟩ else .ok ()
  | .block opening content _ stop => do
    if depth = depthLimit then throw ⟨.tooDeep, Component.startOf content stop⟩
    if !plain then whole (functionHead opening) ⟨content, stop⟩
    check plain (depth + 1) content

/-- Checks a value, or plain tokens, at a depth of brackets. -/
def check (plain : Bool) (depth : Nat) : List Component → Except Offence Unit
  | [] => .ok ()
  | c :: rest => do
    checkIn plain depth c
    check plain depth rest

end

/-- Reads all that remains as a value. -/
def value : Reader Unit := do
  liftM (check false 0 (← get).items)
  skipAll

/-- Reads all that remains as plain tokens. -/
def plainTokens : Reader Unit := do
  liftM (check true 0 (← get).items)
  skipAll

/-- Reads all that remains as tokens of something unknown.  An offence is found past the token. -/
def unknownTokens : Reader Unit := do
  let rest ← get
  match errorAmong rest.items with
  | some found => fail (.unexpected found) (found.start.after found.text)
  | none => skipAll

end StyleSieve.Css.Strict
