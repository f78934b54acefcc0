import StyleSieve.Rewrite.Rewriter
import StyleSieve.Transfer.Sink

/-!
# Writers

A writer takes a page in pieces and passes it on, rewritten, to a sink that may take few bytes at a
time or fail.  What the sink has not taken is kept and tried again before any new input.  So a write
that fails has taken nothing and can be repeated with the same bytes; one that succeeds has taken
all of its bytes, delivered or not.
-/

namespace StyleSieve.Transfer

open Rewrite (Rewriter Stats)

/-- What came of sending bytes to a sink. -/
structure Delivery where
  /-- The replies still to come. -/
  replies : List Reply
  events : List Event
  /-- The bytes that were not taken. -/
  left : Bytes
  failure : Option Failure
  deriving DecidableEq, Repr

/-- A delivery with an earlier event. -/
def Delivery.after (e : Event) (d : Delivery) : Delivery := { d with events := e :: d.events }

/-- Sends bytes to a sink until it has all or fails.  Interrupted writes are repeated. -/
def deliver : List Reply → Bytes → Delivery
  | replies, [] => ⟨replies, [], [], none⟩
  | [], bytes => ⟨[], [.wrote bytes], [], none⟩
  | .acceptAll :: replies, bytes => ⟨replies, [.wrote bytes], [], none⟩
  | .accept most :: replies, bytes =>
    if most = 0 then ⟨replies, [.wrote []], bytes, some .outputRefused⟩
    else (deliver replies (bytes.drop most)).after (.wrote (bytes.take most))
  | .fail f :: replies, bytes =>
    if f.isTransient then (deliver replies bytes).after (.writeFailed f)
    else ⟨replies, [.writeFailed f], bytes, some f⟩

/-- A rewriter in front of a sink. -/
structure Writer where
  rewriter : Rewriter
  sink : Sink Reply := {}
  /-- Output that the sink has not taken yet. -/
  pending : Bytes := []

namespace Writer

/-- Sends the pending output. -/
def drain (w : Writer) : Writer × Option Failure :=
  let d := deliver w.sink.replies w.pending
  ({ w with
      sink := { w.sink with replies := d.replies, history := d.events.reverse ++ w.sink.history }
      pending := d.left }, d.failure)

/-- Takes a piece of the page, once nothing is pending.  What its output meets at the sink is left
to the next call. -/
def write (w : Writer) (bytes : Bytes) : Writer × Except Failure Nat :=
  match w.drain with
  | (w, some f) => (w, .error f)
  | (w, none) =>
    let (rewriter, out) := w.rewriter.push bytes
    let (w, _) := { w with rewriter, pending := w.pending ++ out }.drain
    (w, .ok bytes.length)

/-- Takes a whole piece of the page.  An empty one asks nothing of the sink. -/
def writeAll (w : Writer) (bytes : Bytes) : Writer × Option Failure :=
  if bytes.isEmpty then (w, none)
  else match w.write bytes with
    | (w, .ok _) => (w, none)
    | (w, .error f) => (w, some f)

/-- Sends the pending output and flushes the sink. -/
def flush (w : Writer) : Writer × Option Failure :=
  match w.drain with
  | (w, some f) => (w, some f)
  | (w, none) =>
    let (sink, failure) := w.sink.flush
    ({ w with sink }, failure)

/-- Ends the page, sends all that is left and flushes the sink. -/
def finish (w : Writer) : Writer × Except Failure Stats :=
  match w.drain with
  | (w, some f) => (w, .error f)
  | (w, none) =>
    let (stats, out) := w.rewriter.finish
    match { w with pending := w.pending ++ out }.flush with
    | (w, some f) => (w, .error f)
    | (w, none) => (w, .ok stats)

/-- Takes the pieces of a page, as far as they can be taken, and ends it. -/
def writePage (w : Writer) : List Bytes → Writer × Except Failure Stats
  | [] => w.finish
  | piece :: pieces =>
    match w.writeAll piece with
    | (next, none) => writePage next pieces
    | (next, some f) => (next, .error f)

/-- What has been done so far. -/
def stats (w : Writer) : Stats := w.rewriter.stats

end Writer

end StyleSieve.Transfer
