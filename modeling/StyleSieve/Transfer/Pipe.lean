import StyleSieve.Rewrite.Rewriter
import StyleSieve.Transfer.Sink

/-!
# Pipes

A pipe reads a page piece by piece and writes it, rewritten, to a sink.  A piece is read only when
the output of those before it has been taken, so a slow sink holds up the reading.  If reading
fails, an open region is still closed, as far as the sink goes along, before the failure is given
back.

Either end may never be ready; then the transfer stays where it is.
-/

namespace StyleSieve.Transfer

open Rewrite (Rewriter Stats)

/-- What a reader has to offer. -/
inductive Supplied where
  /-- Bytes, read in as many pieces as it takes.  No bytes are the end of the page. -/
  | bytes (bytes : Bytes)
  | fail (failure : Failure)
  /-- Never ready. -/
  | never
  deriving DecidableEq, Repr

/-- What one read gives. -/
inductive Reading where
  /-- A piece of the page.  An empty one is its end. -/
  | piece (bytes : Bytes)
  | fail (failure : Failure)
  /-- Never ready. -/
  | never
  deriving DecidableEq, Repr

/-- A byte string in pieces of `more + 1` bytes, the last of which may be shorter. -/
def pieces (more : Nat) : Bytes → List Bytes
  | [] => []
  | b :: bytes => (b :: bytes.take more) :: pieces more (bytes.drop more)
termination_by bytes => bytes.length
decreasing_by simp only [List.length_drop, List.length_cons]; omega

/-- What reads of at most `buffer` bytes give; a read takes one byte at least. -/
def readings (buffer : Nat) (supplied : List Supplied) : List Reading :=
  supplied.flatMap fun
    | .bytes [] => [.piece []]
    | .bytes bytes => (pieces (buffer - 1) bytes).map .piece
    | .fail f => [.fail f]
    | .never => [.never]

/-- How a transfer ends. -/
inductive Ending (α : Type) where
  | done (value : α)
  | failed (failure : Failure)
  /-- An end is never ready. -/
  | stalled
  deriving DecidableEq, Repr

/-- The ending of what came to a result. -/
def Ending.ofResult {α : Type} : Except Failure α → Ending α
  | .ok value => .done value
  | .error f => .failed f

/-- A sink that may never be ready: no reply is none. -/
abbrev Outlet := Sink (Option Reply)

/-- Sends bytes to an outlet until it has all.  No failure is passed over. -/
def sendTo (outlet : Outlet) : List (Option Reply) → Bytes → Outlet × Ending Unit
  | replies, [] => ({ outlet with replies }, .done ())
  | [], bytes => ({ outlet with replies := [] }.record (.wrote bytes), .done ())
  | none :: replies, _ => ({ outlet with replies }, .stalled)
  | some .acceptAll :: replies, bytes => ({ outlet with replies }.record (.wrote bytes), .done ())
  | some (.accept most) :: replies, bytes =>
    if most = 0 then ({ outlet with replies }.record (.wrote []), .failed .nothingWritten)
    else sendTo (outlet.record (.wrote (bytes.take most))) replies (bytes.drop most)
  | some (.fail f) :: replies, _ => ({ outlet with replies }.record (.writeFailed f), .failed f)

/-- Sends bytes to an outlet until it has all. -/
def Sink.send (outlet : Outlet) (bytes : Bytes) : Outlet × Ending Unit :=
  sendTo outlet outlet.replies bytes

/-- Sends the last bytes and flushes the sink. -/
def Sink.sendLast (outlet : Outlet) (bytes : Bytes) : Outlet × Ending Unit :=
  match outlet.send bytes with
  | (outlet, .done ()) =>
    match outlet.flush with
    | (outlet, none) => (outlet, .done ())
    | (outlet, some f) => (outlet, .failed f)
  | stopped => stopped

/-- Ends the page at the end of the readings. -/
def endPage (r : Rewriter) (outlet : Outlet) : Outlet × Ending Stats :=
  let (stats, out) := r.finish
  match outlet.sendLast out with
  | (outlet, .done ()) => (outlet, .done stats)
  | (outlet, .failed f) => (outlet, .failed f)
  | (outlet, .stalled) => (outlet, .stalled)

/-- Ends the page where reading failed.  What the sink does with the rest does not matter, unless it
is never ready. -/
def abandonPage (r : Rewriter) (outlet : Outlet) (failure : Failure) : Outlet × Ending Stats :=
  match outlet.sendLast r.finish.2 with
  | (outlet, .stalled) => (outlet, .stalled)
  | (outlet, _) => (outlet, .failed failure)

/-- Rewrites what is read. -/
def pipe : Rewriter → Outlet → List Reading → Outlet × Ending Stats
  | r, outlet, [] => endPage r (outlet.record (.read 0))
  | r, outlet, .piece [] :: _ => endPage r (outlet.record (.read 0))
  | r, outlet, .piece bytes :: rest =>
    let (r, out) := r.push bytes
    match (outlet.record (.read bytes.length)).send out with
    | (outlet, .done ()) => pipe r outlet rest
    | (outlet, .failed f) => (outlet, .failed f)
    | (outlet, .stalled) => (outlet, .stalled)
  | r, outlet, .fail f :: rest =>
    let outlet := outlet.record (.readFailed f)
    if f.isTransient then pipe r outlet rest else abandonPage r outlet f
  | _, outlet, .never :: _ => (outlet, .stalled)

end StyleSieve.Transfer
