import StyleSieve.Markup.Mark

/-!
# Tag boundaries

A boundary of a tag name is `<name` or `</name`, in any case, followed by a space, `/` or `>`.  A
matcher finds the boundaries of one name in a stream of bytes.  It keeps what is left of the name,
never the bytes it has seen.
-/

namespace StyleSieve.Markup

/-- The two kinds of boundary. -/
inductive Side where
  /-- `<name`. -/
  | opening
  /-- `</name`. -/
  | closing
  deriving DecidableEq, Repr

/-- What a byte did to a match. -/
inductive Signal where
  /-- There is no match. -/
  | nothing
  /-- The match goes on. -/
  | growing
  /-- The byte ended the name of a boundary. -/
  | found (side : Side)
  /-- The byte broke the match. -/
  | broken
  deriving DecidableEq, Repr

/-- How far a match has come. -/
inductive Matcher where
  /-- There is no match. -/
  | idle
  /-- `<`. -/
  | less
  /-- `</`. -/
  | slash
  /-- Within the name, of which `rest` is to come. -/
  | name (side : Side) (rest : Bytes)
  deriving DecidableEq, Repr

namespace Matcher

/-- The matcher after a byte that broke a match: the byte may start the next one. -/
def restart (b : UInt8) : Matcher := if Mark.of b = .less then .less else .idle

/-- Reads a byte where `rest` is to come of the name. -/
def inName (side : Side) (rest : Bytes) (b : UInt8) : Matcher × Signal :=
  match rest with
  | expected :: rest =>
    if lowerByte b = lowerByte expected then (.name side rest, .growing) else (restart b, .broken)
  | [] => (restart b, .broken)

/-- Reads a byte. -/
def step (name : Bytes) (m : Matcher) (b : UInt8) : Matcher × Signal :=
  match m with
  | .idle => if Mark.of b = .less then (.less, .growing) else (.idle, .nothing)
  | .less => if Mark.of b = .slash then (.slash, .growing) else inName .opening name b
  | .slash => inName .closing name b
  | .name side [] => if (Mark.of b).endsName then (.idle, .found side) else (restart b, .broken)
  | .name side rest => inName side rest b

/-- Reads some bytes: the matcher after them and the signal of each. -/
def run (name : Bytes) : Matcher → Bytes → Matcher × List Signal
  | m, [] => (m, [])
  | m, b :: bytes =>
    let (next, signal) := m.step name b
    let (last, signals) := run name next bytes
    (last, signal :: signals)

end Matcher

end StyleSieve.Markup
