import StyleSieve.Engine.Session
import StyleSieve.Main
import StyleSieve.Proofs.Transfer.Writer
import StyleSieve.Proofs.Markup.Boundary
import StyleSieve.Proofs.Rewrite.Region
import StyleSieve.Proofs.Rewrite.Stands
import StyleSieve.Proofs.Rewrite.Layout
import StyleSieve.Proofs.Markup.Grammar
import StyleSieve.Proofs.Markup.Sound
import StyleSieve.Proofs.Markup.Complete
import StyleSieve.Proofs.Text.Utf8
import StyleSieve.Proofs.Rewrite.Text
import StyleSieve.Proofs.Transfer.Pipe
import StyleSieve.Proofs.Catalog.Render
import StyleSieve.Proofs.Rewrite.Alike
import StyleSieve.Proofs.Rewrite.Probes
import StyleSieve.Proofs.Engine.Agreement
import StyleSieve.Proofs.Selector.Break
import StyleSieve.Proofs.Selector.Compound
import StyleSieve.Proofs.Markup.Keys
import StyleSieve.Proofs.Stylesheet.Statements
import StyleSieve.Proofs.Stylesheet.Starts
import StyleSieve.Proofs.Catalog.Index
import StyleSieve.Proofs.Catalog.Lines
import StyleSieve.Proofs.Stylesheet.Lines
import StyleSieve.Proofs.Catalog.Kept
import StyleSieve.Proofs.Rewrite.Kept
import StyleSieve.Proofs.Rewrite.Dedupe
import StyleSieve.Proofs.Transfer.Schedule
import StyleSieve.Proofs.Rewrite.Again
import StyleSieve.Proofs.Text.Blank
import StyleSieve.Proofs.Css.Ahead
import StyleSieve.Proofs.Css.Nodes
import StyleSieve.Proofs.Css.Bare
import StyleSieve.Proofs.Css.Flat
import StyleSieve.Proofs.Css.Places
import StyleSieve.Proofs.Css.Sealed
import StyleSieve.Proofs.Css.Named
import StyleSieve.Proofs.Css.Reads
import StyleSieve.Proofs.Css.Written
import StyleSieve.Proofs.Css.Closed
import StyleSieve.Proofs.Selector.Branches
import StyleSieve.Proofs.Stylesheet.Entries
import StyleSieve.Proofs.Stylesheet.Written
import StyleSieve.Proofs.Catalog.Lenient
import StyleSieve.Proofs.Catalog.RoundTrip
import StyleSieve.Proofs.Catalog.Isolation
import StyleSieve.Proofs.Catalog.EndTags
import StyleSieve.Proofs.Rewrite.RawText
import StyleSieve.Proofs.Markup.Harvest
import StyleSieve.Proofs.Stylesheet.Numbers
import StyleSieve.Proofs.Stylesheet.Walk
import StyleSieve.Proofs.Catalog.Statements
import StyleSieve.Proofs.Rewrite.Content
import StyleSieve.Proofs.Stylesheet.InFile
import StyleSieve.Proofs.Catalog.Needs
import StyleSieve.Proofs.Catalog.Refused
import StyleSieve.Proofs.Engine.Keeps
import StyleSieve.Proofs.Engine.Isolation
import StyleSieve.Proofs.Stylesheet.Placed
import StyleSieve.Proofs.Stylesheet.Layers
import StyleSieve.Proofs.Catalog.Layers
import StyleSieve.Proofs.Css.Items
import StyleSieve.Proofs.Css.Declared
import StyleSieve.Proofs.Stylesheet.Rules
import StyleSieve.Proofs.Stylesheet.Declared
import StyleSieve.Proofs.Selector.Plain
import StyleSieve.Proofs.Selector.Balanced
import StyleSieve.Proofs.Selector.Nested
import StyleSieve.Proofs.Selector.Beside
import StyleSieve.Proofs.Selector.Comments
import StyleSieve.Proofs.Catalog.Comments
import StyleSieve.Proofs.Markup.TagEnd
import StyleSieve.Proofs.Rewrite.TagEnds
import StyleSieve.Proofs.Rewrite.Bounds
import StyleSieve.Proofs.Text.Decode
import StyleSieve.Proofs.Rewrite.Replay
import StyleSieve.Proofs.Rewrite.QuotedTag
import StyleSieve.Proofs.Rewrite.Elements
import StyleSieve.Proofs.Markup.Started
import StyleSieve.Proofs.Stylesheet.Rejoined
import StyleSieve.Proofs.Text.Order
import StyleSieve.Proofs.Folder.Tree
import StyleSieve.Proofs.Folder.Edits
import StyleSieve.Proofs.Engine.Discovery
import StyleSieve.Proofs.Selector.Offset
