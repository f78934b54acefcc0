import StyleSieve.Catalog.OfSources
import StyleSieve.Rewrite.Progress

/-!
# Settings of an engine
-/

namespace StyleSieve

/-- How styles are found and read, and how pages are rewritten with them. -/
structure Settings where
  /-- The extension of style files, without its dot. -/
  extension : Text := ['c', 's', 's']
  leniency : Catalog.Leniency := {}
  rewriting : Rewrite.Options := {}
  deriving DecidableEq, Repr, Inhabited

namespace Settings

/-- The settings for files with another extension, which may be given with dots in front. -/
def withExtension (s : Settings) (extension : Text) : Settings :=
  { s with extension := extension.dropWhile (· = '.') }

end Settings

end StyleSieve
