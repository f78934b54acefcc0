import StyleSieve.Css.Component
import StyleSieve.Css.Strict.Fault

/-!
# Strict readers

A strict reader takes components from the front of what remains of a list, and stops at the first
offence.  An offence at a token that should not be there is found at the end of what was read before
it, so ahead of the blanks; one for want of a token is found where the list ends.

A reader that is repeated takes at least one component each time it asks to go on, so the components
that remain bound its turns.
-/

namespace StyleSieve.Css.Strict

/-- What remains of a list of components that ends at `stop`. -/
structure Rest where
  items : List Component
  stop : Place

namespace Rest

/-- Where the rest starts. -/
def place (r : Rest) : Place := Component.startOf r.items r.stop

/-- The rest up to the first component that `ends` it. -/
def upTo (ends : Component → Bool) (r : Rest) : Rest :=
  { items := r.items.takeWhile fun c => !ends c
    stop := Component.startOf (r.items.dropWhile fun c => !ends c) r.stop }

/-- The rest from the first component that `ends` it. -/
def since (ends : Component → Bool) (r : Rest) : Rest :=
  { r with items := r.items.dropWhile fun c => !ends c }

/-- The rest without its first component. -/
def tail (r : Rest) : Rest := { r with items := r.items.drop 1 }

/-- Nothing, at the end of the rest. -/
def nothing (r : Rest) : Rest := { r with items := [] }

/-- The rest from the first component that is no `gap`. -/
def past (gap : Component → Bool) (r : Rest) : Rest := { r with items := r.items.dropWhile gap }

/-- What a block holds. -/
def inside : Component → Rest
  | .block _ content _ stop => ⟨content, stop⟩
  | .leaf lexeme => ⟨[], lexeme.start⟩

end Rest

/-- Takes components and makes something of them. -/
abbrev Reader := StateT Rest (Except Offence)

variable {α σ : Type}

/-- An offence at a place. -/
def fail (fault : Fault) (place : Place) : Reader α := throw ⟨fault, place⟩

/-- Where the reader stands. -/
def here : Reader Place := return (← get).place

/-- What a reader would give, and the rest it would leave; nothing is taken. -/
def trial (r : Reader α) : Reader (Except Offence (α × Rest)) := return r.run (← get)

/-- A reader that takes nothing where it fails. -/
def attempt (r : Reader α) : Reader (Option α) := do
  match ← trial r with
  | .ok (a, rest) =>
    set rest
    return some a
  | .error _ => return none

/-- Whether a reader succeeds; where it fails, nothing is taken. -/
def succeeds (r : Reader α) : Reader Bool := return (← attempt r).isSome

/-- Passes over blanks. -/
def skipBlank : Reader Unit := modify (·.past Component.isBlank)

/-- Passes over all that remains. -/
def skipAll : Reader Unit := modify Rest.nothing

/-- Takes the first component. -/
def take : Reader Component := do
  match (← get).items with
  | [] => fail .endOfInput (← here)
  | c :: _ =>
    modify Rest.tail
    return c

/-- Takes the first component that is not blank. -/
def next : Reader Component := do
  skipBlank
  take

/-- Takes the first component that is no comment. -/
def nextTight : Reader Component := do
  modify (·.past (·.is .comment))
  take

/-- Takes the next component if it is acceptable. -/
def expect (accept : Component → Option α) : Reader α := do
  let start ← here
  let c ← next
  match accept c with
  | some a => return a
  | none => fail (.unexpected c.first) start

/-- Nothing but blanks may remain. -/
def exhausted : Reader Unit := do
  let start ← here
  skipBlank
  match (← get).items with
  | [] => return ()
  | c :: _ => fail (.unexpected c.first) start

/-- What a reader makes of a whole list. -/
def whole (r : Reader α) (rest : Rest) : Except Offence α := do
  let (a, last) ← r.run rest
  exhausted.run' last
  return a

/-- Reads a block that has just been taken. -/
def enter (c : Component) (r : Reader α) : Reader α := whole r (Rest.inside c)

/-- Takes all up to the first component that `ends` it, and says what a reader makes of that. -/
def verdictUpTo (ends : Component → Bool) (r : Reader α) : Reader (Except Offence α) := do
  let rest ← get
  set (rest.since ends)
  return whole r (rest.upTo ends)

/-- Reads all up to the first component that `ends` it. -/
def readUpTo (ends : Component → Bool) (r : Reader α) : Reader α := do
  match ← verdictUpTo ends r with
  | .ok a => return a
  | .error offence => throw offence

/-- Repeats a reader that tells whether to go on, and hands on what it gives; it is repeated once
for each component of `clock`, and once more. -/
def iterateAlong (turn : σ → Reader (Bool × σ)) : (clock : List Component) → σ → Reader σ
  | [], s => return (← turn s).2
  | _ :: clock, s => fun rest =>
    match turn s rest with
    | .error offence => .error offence
    | .ok ((false, s), rest) => .ok (s, rest)
    | .ok ((true, s), rest) => iterateAlong turn clock s rest

/-- Repeats a reader that takes a component each time it asks to go on, and hands on what it
gives. -/
def iterate (turn : σ → Reader (Bool × σ)) (s : σ) : Reader σ := do
  iterateAlong turn (← get).items s

/-- Repeats a reader that takes a component each time it asks to go on. -/
def repeated (turn : Reader Bool) : Reader Unit :=
  iterate (fun _ => do return (← turn, ())) ()

/-- Reads the parts of a list between commas, and counts them. -/
def commaList (part : Reader α) : Reader Nat :=
  iterate (fun n => do
    skipBlank
    discard (readUpTo (·.is .comma) part)
    return (← succeeds next, n + 1)) 0

/-! ### Single components -/

/-- The name that a component is. -/
def nameOf? (c : Component) : Option Text :=
  match c.token? with
  | some (.ident name) => some name
  | _ => none

/-- The component itself, if it has the token. -/
def tokenOf? (token : Token) (c : Component) : Option Unit := if c.is token then some () else none

/-- The component itself, if it is a block in brackets of a kind, and no function. -/
def blockOf? (bracket : Bracket) (c : Component) : Option Component :=
  if c.first.token = .opening bracket && c.first.function?.isNone then some c else none

/-- The component itself, if it is the function. -/
def functionOf? (name : String) (c : Component) : Option Component :=
  if c.first.function?.any fun f => Text.sameLetters f name.toList then some c else none

/-- Where the first lexeme of a component ends. -/
def pastFirst (c : Component) : Place := c.start.after c.first.text

/-- Reads a name. -/
def name : Reader Text := expect nameOf?

/-- Reads one of some words. -/
def word (words : List String) : Reader Text :=
  expect fun c => (nameOf? c).filter fun n => words.any fun w => Text.sameLetters n w.toList

/-- Reads a name that is none of some words. -/
def nameBut (words : List String) : Reader Text :=
  expect fun c => (nameOf? c).filter fun n => !words.any fun w => Text.sameLetters n w.toList

/-- The words that no author may choose as a name. -/
def reservedWords : List String :=
  ["initial", "inherit", "unset", "default", "revert", "revert-layer"]

/-- Reads a name of the author's choice. -/
def ownName : Reader Text := nameBut reservedWords

/-- Reads a name of the author's that starts with two hyphens. -/
def dashedName : Reader Text := expect fun c => (nameOf? c).filter ("--".toList.isPrefixOf ·)

/-- Reads a token. -/
def token (t : Token) : Reader Unit := expect (tokenOf? t)

/-- Reads a string. -/
def string : Reader Lexeme :=
  expect fun c => if c.is .string then some c.first else none

/-- Reads a name or a string. -/
def nameOrString : Reader Unit :=
  expect fun c => if (nameOf? c).isSome || c.is .string then some () else none

/-- What a number says, and the unit it has. -/
def numeralOf? (c : Component) : Option Label.Numeral :=
  if c.is .number then some (.ofText c.first.text) else none

/-- Reads an integer. -/
def integer : Reader Unit :=
  expect fun c =>
    if (numeralOf? c).any fun n => n.isInteger && n.unit.isEmpty then some () else none

/-- Reads a number without a unit. -/
def number : Reader Unit :=
  expect fun c => if (numeralOf? c).any (·.unit.isEmpty) then some () else none

/-- Reads a URL, or a string in its place if that `mayBeString`. -/
def address (mayBeString : Bool) : Reader Unit := do
  let c ← expect fun c =>
    if c.is .url || (mayBeString && c.is .string) then some c else functionOf? "url" c
  if (functionOf? "url" c).isSome then enter c (discard string)

end StyleSieve.Css.Strict
