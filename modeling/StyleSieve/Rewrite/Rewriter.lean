import StyleSieve.Rewrite.Progress

/-!
# Rewriters

A rewriter is bound to a supply and to options, and takes a page in any pieces.  `document` rewrites
a whole page at once, with the options that hold where none are given.
-/

namespace StyleSieve.Rewrite

/-- The rewriting of one page. -/
structure Rewriter where
  supply : Supply
  options : Options := {}
  progress : Progress := {}

namespace Rewriter

/-- Takes a piece of the page: the rewriter after it, and the bytes that are final. -/
def push (r : Rewriter) (bytes : Bytes) : Rewriter × Bytes :=
  let (progress, out) := r.progress.push r.supply r.options bytes
  ({ r with progress }, out)

/-- Ends the page: the last bytes, and what has been done in all. -/
def finish (r : Rewriter) : Stats × Bytes := r.progress.finish r.supply r.options

/-- What has been done so far. -/
def stats (r : Rewriter) : Stats := r.progress.stats

/-- Takes the pieces of a page and ends it: the whole output, and what has been done in all. -/
def complete (r : Rewriter) : List Bytes → Stats × Bytes
  | [] => r.finish
  | piece :: pieces =>
    let (next, out) := r.push piece
    let (stats, rest) := complete next pieces
    (stats, out ++ rest)

end Rewriter

/-- A whole page rewritten.  Only markup in ASCII comes and goes, so the output is text again. -/
def document (supply : Supply) (html : Text) : Text :=
  Utf8.decodeLossy (({ supply : Rewriter }.complete [Utf8.encode html]).2)

end StyleSieve.Rewrite
