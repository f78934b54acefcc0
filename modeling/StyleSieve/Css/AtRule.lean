import StyleSieve.Text.Basic

/-!
# Conditional groups

The at-rules whose block holds style rules that apply under a condition.
-/

namespace StyleSieve.Css.AtRule

/-- The names of the conditional groups. -/
def groupNames : List Text :=
  ["media", "supports", "layer", "container", "scope", "starting-style", "document"].map
    String.toList

/-- Whether an at-rule of this name is a conditional group if it has a block.  One vendor mark is
passed over. -/
def isGroup (name : Text) : Bool :=
  let mark := "-moz-".toList
  let plain := if mark.isPrefixOf name then name.drop mark.length else name
  groupNames.any (Text.sameLetters plain)

end StyleSieve.Css.AtRule
