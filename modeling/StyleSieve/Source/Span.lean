import StyleSieve.Source.Location

/-!
# Spans

A span runs from one location to another.  `earlierStart` and `laterStop` choose between two spans
and keep the first on a tie.  A fold with the first from `pastEnd`, and one with the second from
`beforeStart`, finds the two ends of the tightest cover of a list of spans.
-/

namespace StyleSieve

/-- A stretch of source text. -/
structure Span where
  file : Nat
  start : Location
  stop : Location
  deriving DecidableEq, Repr, Inhabited

namespace Span

/-- From `start` to `stop`, in the file of `start`. -/
def between (start stop : Location) : Span := ⟨start.file, start, stop⟩

/-- The empty span at a location. -/
def point (l : Location) : Span := ⟨l.file, l, l⟩

/-- An empty span that no span of the file starts after. -/
def pastEnd (file : Nat) : Span := .point ⟨file, Location.limit, Location.limit⟩

/-- An empty span that no span of the file stops before. -/
def beforeStart (file : Nat) : Span := .point ⟨file, 0, 0⟩

/-- The span does not stop before it starts. -/
def isOrdered (s : Span) : Bool := s.start.order s.stop != .gt

/-- The span that starts first, `a` on a tie. -/
def earlierStart (a b : Span) : Span := if b.start.order a.start = .lt then b else a

/-- The span that stops last, `a` on a tie. -/
def laterStop (a b : Span) : Span := if b.stop.order a.stop = .gt then b else a

/-- Both ends and the file agree. -/
def coincides (a b : Span) : Bool := a.file == b.file && a.start == b.start && a.stop == b.stop

end Span

end StyleSieve
