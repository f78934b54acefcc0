import StyleSieve.Markup.Scanner
import StyleSieve.Rewrite.Supply

/-!
# Rewriting a page byte by byte

Markup is copied as it stands while a scanner harvests its keys.  A style region starts after the
`>` of a `style` tag.  Its content is dropped, and where it closes the CSS for the keys seen so far
and `</style>` are written.  Style tags in a region only nest; the region closes with the end tag of
the first.

After that the region is not closed at once, for further style elements may follow with only spaces
between: they belong to the region, and so does a stray end tag.  The spaces, and a `<style` or
`</style` that is not complete, are held back.  A byte that rules out such a tag, or one space more
than `maxLookback`, closes the region, and the held bytes go out as markup.
-/

namespace StyleSieve.Rewrite

open Markup (Scanner Matcher Signal Side Mark)

/-- How a page is rewritten. -/
structure Options where
  /-- The number of bytes held back after a region. -/
  maxLookback : Nat := 1024
  /-- Whether each body, and the global at-rules, are written once only. -/
  dedupe : Bool := false
  /-- The number of bytes read at a time where a page is read in pieces. -/
  readBuffer : Nat := 16384
  deriving DecidableEq, Repr, Inhabited

/-- What a rewriter counts.  Bytes are counted in words of 64 bits, regions and tags in words of 32
bits: a page is taken to be so short that these hold them. -/
structure Counts where
  bytesIn : Nat := 0
  bytesOut : Nat := 0
  /-- Regions closed. -/
  regions : Nat := 0
  /-- Style tags that joined a region after its first. -/
  merged : Nat := 0
  deriving DecidableEq, Repr, Inhabited

/-- What has been done so far. -/
structure Stats extends Counts where
  /-- The number of keys seen. -/
  tokens : Nat := 0
  deriving DecidableEq, Repr, Inhabited

/-- Where a rewriter is in the page.  As what it counts, `depth` is a word of 32 bits. -/
inductive Mode where
  /-- In markup. -/
  | markup (scanner : Scanner)
  /-- In a region, in the content of `depth` style elements. -/
  | region (depth : Nat) (matcher : Matcher)
  /-- In a region, in a style tag after its name: an end tag of element number `depth`, or the start
  tag that made them `depth`.  `quote` is the quote that is open. -/
  | regionTag (depth : Nat) (side : Side) (quote : Option UInt8)
  /-- After a region, with bytes held back, the latest first, and room for so many spaces more. -/
  | gap (latest : Bytes) (room : Nat) (matcher : Matcher)
  /-- After a region, in a stray end tag after its name. -/
  | gapTag (quote : Option UInt8)
  deriving DecidableEq, Repr

/-- A rewriter at work. -/
structure Progress where
  mode : Mode := .markup .text
  /-- The keys seen. -/
  usage : Usage := .empty
  /-- The bodies written, as far as `dedupe` asks. -/
  emitted : List BodyRef := []
  /-- Whether the global at-rules have been written, as far as `dedupe` asks. -/
  globalsSent : Bool := false
  counts : Counts := {}

/-- One byte of a tag after its name: `none` if it ends the tag, else the quote that is open. -/
def tagByte (quote : Option UInt8) (b : UInt8) : Option (Option UInt8) :=
  match quote with
  | some q => some (if b = q then none else some q)
  | none =>
    match Mark.of b with
    | .quote => some (some b)
    | .greater => none
    | _ => some none

/-- The references that are not in `emitted`, each once. -/
def fresh : (emitted : List BodyRef) → List BodyRef → List BodyRef
  | _, [] => []
  | emitted, r :: rest =>
    if emitted.contains r then fresh emitted rest else r :: fresh (r :: emitted) rest

/-- The end tag that closes a region. -/
def styleEnd : Bytes := Utf8.encode "</style>".toList

namespace Progress

/-- Whether the rewriter is in a region, or holds bytes back after one. -/
def inRegion (p : Progress) : Bool :=
  match p.mode with
  | .markup _ => false
  | _ => true

/-- What has been done so far. -/
def stats (p : Progress) : Stats := { p.counts with tokens := p.usage.size }

/-- The usage with what some sightings name. -/
def note (usage : Usage) (sightings : List Markup.Sighting) : Usage :=
  usage.insertAll (sightings.filterMap (·.key))

/-- Closes a region: the progress after it, in markup, and the CSS with its end tag. -/
def closeRegion (supply : Supply) (options : Options) (p : Progress) : Progress × Bytes :=
  let selected := supply.select p.usage
  let chosen := if options.dedupe then fresh p.emitted selected else selected
  let globals := !(options.dedupe && p.globalsSent)
  let css := Utf8.encode (supply.render chosen globals)
  ({ p with
      mode := .markup .text
      emitted := if options.dedupe then p.emitted ++ chosen else p.emitted
      globalsSent := options.dedupe || p.globalsSent
      counts := { p.counts with regions := p.counts.regions + 1 } },
    css ++ styleEnd)

/-- Closes a region and sends the held bytes on as markup.  They are too few to make a style tag, so
none of them opens a region. -/
def release (supply : Supply) (options : Options) (p : Progress) (held : Bytes) :
    Progress × Bytes :=
  let (closed, css) := p.closeRegion supply options
  let (scanner, sightings) := Scanner.text.run held
  ({ closed with mode := .markup scanner, usage := note closed.usage sightings }, css ++ held)

/-- After a region, before the next byte. -/
def afterRegion (options : Options) : Mode := .gap [] options.maxLookback .idle

/-- The end of an end tag of element number `depth`: the last one ends the region. -/
def leave (options : Options) (depth : Nat) : Mode :=
  if depth ≤ 1 then afterRegion options else .region (depth - 1) .idle

/-- One more style tag has joined the region. -/
def merge (p : Progress) : Progress :=
  { p with counts := { p.counts with merged := p.counts.merged + 1 } }

/-- Reads a byte in markup. -/
def markupByte (p : Progress) (scanner : Scanner) (b : UInt8) : Progress × Bytes :=
  let (next, sighting) := scanner.step b
  ({ p with
      mode := if sighting.opensStyle then .region 1 .idle else .markup next
      usage := note p.usage [sighting] },
    [b])

/-- Reads a byte in the content of a region. -/
def regionByte (options : Options) (p : Progress) (depth : Nat) (matcher : Matcher) (b : UInt8) :
    Progress :=
  match matcher.step Markup.styleName b with
  | (_, .found .opening) =>
    { p.merge with
      mode :=
        if Mark.of b = .greater then .region (depth + 1) .idle
        else .regionTag (depth + 1) .opening none }
  | (_, .found .closing) =>
    { p with
      mode :=
        if Mark.of b = .greater then leave options depth else .regionTag depth .closing none }
  | (next, _) => { p with mode := .region depth next }

/-- Reads a byte in a style tag of a region. -/
def regionTagByte (options : Options) (p : Progress) (depth : Nat) (side : Side)
    (quote : Option UInt8) (b : UInt8) : Progress :=
  match tagByte quote b, side with
  | some quote, _ => { p with mode := .regionTag depth side quote }
  | none, .opening => { p with mode := .region depth .idle }
  | none, .closing => { p with mode := leave options depth }

/-- Reads a byte after a region. -/
def gapByte (supply : Supply) (options : Options) (p : Progress) (latest : Bytes) (room : Nat)
    (matcher : Matcher) (b : UInt8) : Progress × Bytes :=
  if matcher = .idle && Mark.of b = .space then
    match room with
    | 0 => p.release supply options (b :: latest).reverse
    | room + 1 => ({ p with mode := .gap (b :: latest) room .idle }, [])
  else
    match matcher.step Markup.styleName b with
    | (_, .found .opening) =>
      ({ p.merge with
          mode :=
            if Mark.of b = .greater then .region 1 .idle else .regionTag 1 .opening none }, [])
    | (_, .found .closing) =>
      ({ p with mode := if Mark.of b = .greater then afterRegion options else .gapTag none }, [])
    | (next, .growing) => ({ p with mode := .gap (b :: latest) room next }, [])
    | _ => p.release supply options (b :: latest).reverse

/-- Reads a byte: the progress after it, and the bytes it sends out. -/
def step (supply : Supply) (options : Options) (p : Progress) (b : UInt8) : Progress × Bytes :=
  match p.mode with
  | .markup scanner => p.markupByte scanner b
  | .region depth matcher => (p.regionByte options depth matcher b, [])
  | .regionTag depth side quote => (p.regionTagByte options depth side quote b, [])
  | .gap latest room matcher => p.gapByte supply options latest room matcher b
  | .gapTag quote =>
    match tagByte quote b with
    | some quote => ({ p with mode := .gapTag quote }, [])
    | none => ({ p with mode := afterRegion options }, [])

/-- Reads some bytes. -/
def run (supply : Supply) (options : Options) : Progress → Bytes → Progress × Bytes
  | p, [] => (p, [])
  | p, b :: bytes =>
    let (next, out) := p.step supply options b
    let (last, more) := run supply options next bytes
    (last, out ++ more)

/-- Counts bytes in and out. -/
def count (p : Progress) (bytesIn bytesOut : Nat) : Progress :=
  { p with
    counts :=
      { p.counts with
        bytesIn := p.counts.bytesIn + bytesIn
        bytesOut := p.counts.bytesOut + bytesOut } }

/-- Reads some bytes and counts them. -/
def push (supply : Supply) (options : Options) (p : Progress) (bytes : Bytes) :
    Progress × Bytes :=
  let (next, out) := p.run supply options bytes
  (next.count bytes.length out.length, out)

/-- The end of the page: a region that is open closes, and held bytes go out as they stand. -/
def atEnd (supply : Supply) (options : Options) (p : Progress) : Progress × Bytes :=
  match p.mode with
  | .markup _ => (p, [])
  | .gap latest _ _ =>
    let (closed, css) := p.closeRegion supply options
    (closed, css ++ latest.reverse)
  | _ => p.closeRegion supply options

/-- Ends the page: the last bytes, and what has been done in all. -/
def finish (supply : Supply) (options : Options) (p : Progress) : Stats × Bytes :=
  let (last, out) := p.atEnd supply options
  ((last.count 0 out.length).stats, out)

end Progress

end StyleSieve.Rewrite
