import StyleSieve.Engine.Settings
import StyleSieve.Transfer.Pipe
import StyleSieve.Transfer.Writer

/-!
# Engines

An engine has settings and a catalog, and serves a page in four ways: in pieces, to a writer, from a
reader to a sink, and whole.  The first three follow the settings; a whole page is rewritten with
the options that hold where none are given.
-/

namespace StyleSieve

open Rewrite (Rewriter Stats)
open Transfer (Ending Failure Outlet Reply Sink Supplied Writer)

/-- Settings, and the styles that pages are served with. -/
structure Engine where
  settings : Settings := {}
  catalog : Catalog := {}
  deriving DecidableEq, Repr, Inhabited

namespace Engine

/-- A rewriter for one page. -/
def rewriter (e : Engine) : Rewriter :=
  { supply := e.catalog.supply, options := e.settings.rewriting }

/-- A writer for one page in front of a sink. -/
def writer (e : Engine) (sink : Sink Reply) : Writer := { rewriter := e.rewriter, sink }

/-- Sends one page from a reader to a sink. -/
def pipe (e : Engine) (outlet : Outlet) (supplied : List Supplied) : Outlet × Ending Stats :=
  Transfer.pipe e.rewriter outlet (Transfer.readings e.settings.rewriting.readBuffer supplied)

/-- A whole page rewritten. -/
def rewrite (e : Engine) (html : Text) : Text := Rewrite.document e.catalog.supply html

end Engine

end StyleSieve
