import StyleSieve.Text.Basic
import StyleSieve.Transfer.Failure

/-!
# Sinks

A sink takes bytes as it pleases.  Its behaviour is a schedule: how it will reply to each write and
each flush to come.  Once a schedule has run out, a sink takes all and every flush succeeds.  The
events record what has happened at both ends of a transfer.
-/

namespace StyleSieve.Transfer

/-- A reply to a write. -/
inductive Reply where
  /-- Takes this many bytes, or all if they are fewer. -/
  | accept (most : Nat)
  | acceptAll
  | fail (failure : Failure)
  deriving DecidableEq, Repr

/-- Something that happened at an end of a transfer. -/
inductive Event where
  /-- A read gave this many bytes. -/
  | read (length : Nat)
  | readFailed (failure : Failure)
  /-- A write took these bytes. -/
  | wrote (bytes : Bytes)
  | writeFailed (failure : Failure)
  | flushed
  | flushFailed (failure : Failure)
  deriving DecidableEq, Repr

/-- The bytes that a sink took in some events. -/
def Event.written (events : List Event) : Bytes :=
  events.flatMap fun
    | .wrote bytes => bytes
    | _ => []

/-- A sink with replies of type `ρ` to come, and what has happened so far. -/
structure Sink (ρ : Type) where
  replies : List ρ := []
  flushes : List (Option Failure) := []
  /-- The events, the latest first. -/
  history : List Event := []
  deriving DecidableEq, Repr

namespace Sink

variable {ρ : Type}

/-- What has happened so far, in order. -/
def events (s : Sink ρ) : List Event := s.history.reverse

/-- The bytes that the sink has taken. -/
def received (s : Sink ρ) : Bytes := Event.written s.events

/-- The sink after one more event. -/
def record (s : Sink ρ) (e : Event) : Sink ρ := { s with history := e :: s.history }

/-- Flushes the sink. -/
def flush (s : Sink ρ) : Sink ρ × Option Failure :=
  match s.flushes with
  | some f :: flushes => ({ s with flushes }.record (.flushFailed f), some f)
  | none :: flushes => ({ s with flushes }.record .flushed, none)
  | [] => (s.record .flushed, none)

end Sink

end StyleSieve.Transfer
