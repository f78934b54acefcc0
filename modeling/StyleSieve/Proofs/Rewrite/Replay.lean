import StyleSieve.Proofs.Rewrite.Bounds
import StyleSieve.Proofs.Rewrite.Probes

/-!
# Held bytes are read again once

Where a region closes, the bytes held back behind it are read again: one by one they go through the
rewriter that has just closed the region.  Each of them might close a region in turn, and have bytes
read again.  `Progress.feed` reads a byte with that recursion, and gives up where bytes would be
read again within one another too often.

Once is enough.  What is held back is spaces and the start of a style tag, which with the byte that
breaks it off opens no region.  So all of it is read in markup, and a byte does what `Progress.step`
says.

* `Progress.closesRegion_iff`: which bytes close a region.
* `Progress.Reads.feed`, `Progress.Reads.runWith_feed`: a byte, and any bytes.
* `Rewriter.feed_pushAll`: where a page in pieces goes on.
-/

namespace StyleSieve.Rewrite

open Markup (Mark Matcher Scanner styleName)

namespace Progress

/-- Whether a byte closes the region behind which bytes are held back: a space for which there is no
room, or a byte that rules out a style tag. -/
def closesRegion (p : Progress) (b : UInt8) : Bool :=
  match p.mode with
  | .gap _ room k =>
    if k = .idle && Mark.of b = .space then room == 0
    else
      match (k.step styleName b).2 with
      | .nothing | .broken => true
      | .growing | .found _ => false
  | _ => false

/-- Reads some bytes by a function that reads one, or none. -/
def runWith (read : Progress → UInt8 → Option (Progress × Bytes)) :
    Progress → Bytes → Option (Progress × Bytes)
  | p, [] => some (p, [])
  | p, b :: bytes => do
    let (next, out) ← read p b
    let (last, more) ← runWith read next bytes
    return (last, out ++ more)

variable (supply : Supply) (options : Options)

/-- Reads a byte.  If it closes a region, the held bytes and the byte are read again in the same
way, where at most `nested` more regions may close; with none to close, there is no answer. -/
def feed : (nested : Nat) → Progress → UInt8 → Option (Progress × Bytes)
  | 0, p, b => if p.closesRegion b then none else some (p.step supply options b)
  | nested + 1, p, b =>
    if p.closesRegion b then do
      let (closed, css) := p.closeRegion supply options
      let (last, out) ← runWith (feed nested) closed (p.mode.held ++ [b])
      return (last, css ++ out)
    else some (p.step supply options b)

variable {supply options} {p : Progress} {b : UInt8}

/-! ### Which bytes close a region -/

theorem mode_of_closesRegion (h : p.closesRegion b = true) :
    ∃ latest room k, p.mode = .gap latest room k := by
  unfold closesRegion at h
  split at h
  case h_1 latest room k hp => exact ⟨latest, room, k, hp⟩
  case h_2 => cases h

variable (supply options) in
/-- A byte that closes a region goes out behind the held bytes. -/
theorem step_of_closesRegion (h : p.closesRegion b = true) :
    p.step supply options b = p.release supply options (p.mode.held ++ [b]) := by
  obtain ⟨latest, room, k, hp⟩ := mode_of_closesRegion h
  simp only [closesRegion, hp] at h
  simp only [step, hp, Mode.held, ← List.reverse_cons, gapByte]
  split at h
  case isTrue hspace =>
    obtain rfl : room = 0 := by simpa using h
    rw [if_pos hspace]
  case isFalse hspace =>
    rw [if_neg hspace]
    split
    case h_1 e | h_2 e | h_3 e => simp [e] at h
    case h_4 => rfl

/-- After any other byte a rewriter that was in a region, or behind it, still is. -/
theorem inRegion_of_not_closesRegion (hp : p.inRegion = true) (h : p.closesRegion b = false) :
    (p.step supply options b).1.inRegion = true := by
  cases hmode : p.mode with
  | markup s => simp [inRegion, hmode] at hp
  | region depth k =>
      simp only [step, hmode]
      have hwaits : p.Waits supply options (_, []) := regionByte_waits depth k b
      exact hwaits.inRegion
  | regionTag depth side quote =>
      simp only [step, hmode]
      have hwaits : p.Waits supply options (_, []) := regionTagByte_waits depth side quote b
      exact hwaits.inRegion
  | gap latest room k =>
      simp only [closesRegion, hmode] at h
      simp only [step, hmode, gapByte]
      split at h
      case isTrue hspace =>
        rw [if_pos hspace]
        cases room with
        | zero => cases h
        | succ room => rfl
      case isFalse hspace =>
        rw [if_neg hspace]
        split
        case h_1 | h_2 =>
          dsimp only
          split <;> rfl
        case h_3 => rfl
        case h_4 hopen hclose hgrow =>
          rcases hk : k.step styleName b with ⟨next, _ | _ | ⟨_ | _⟩ | _⟩
          case nothing | broken => simp [hk] at h
          case growing => exact absurd hk (hgrow next)
          case found.opening => exact absurd hk (hopen next)
          case found.closing => exact absurd hk (hclose next)
  | gapTag quote =>
      simp only [step, hmode]
      split <;> rfl

variable (supply options p b) in
theorem closesRegion_iff :
    p.closesRegion b = true ↔
      p.inRegion = true ∧ (p.step supply options b).1.inRegion = false := by
  constructor
  · intro h
    obtain ⟨latest, room, k, hp⟩ := mode_of_closesRegion h
    rw [step_of_closesRegion supply options h, inRegion, hp]
    exact ⟨rfl, rfl⟩
  · rintro ⟨hp, hstep⟩
    by_contra h
    rw [inRegion_of_not_closesRegion hp (Bool.not_eq_true _ ▸ h)] at hstep
    cases hstep

/-! ### Reading again -/

theorem feed_of_not_closesRegion (nested : Nat) (h : p.closesRegion b = false) :
    p.feed supply options nested b = some (p.step supply options b) := by
  cases nested <;> simp only [feed, h, Bool.false_eq_true, if_false]

variable (supply options) in
/-- Bytes that open no region are read in markup, and no region closes meanwhile. -/
theorem runWith_feed_silent (nested : Nat) {s : Scanner} {m : Bytes} (hm : s.Silent m) :
    runWith (feed supply options nested) { p with mode := .markup s } m =
      some ({ p with mode := .markup s }.run supply options m) := by
  induction m generalizing s p with
  | nil => rfl
  | cons b m ih =>
      obtain ⟨hb, hm⟩ := Scanner.silent_append (a := [b]).1 hm
      have hstep : { p with mode := .markup s }.run supply options [b] = _ := run_silent hb
      rw [run_singleton] at hstep
      rw [runWith, feed_of_not_closesRegion nested rfl, run, hstep]
      simp only [Option.bind_eq_bind, Option.bind_some,
        ih (p := { p with usage := note p.usage _ }) hm]
      rfl

variable {xs : List Passage} {m d h read written : Bytes}

/-- What goes out behind a region that closes opens no region. -/
theorem Reads.silent_held (hx : Reads supply options p xs m d h read written)
    (hb : p.closesRegion b = true) : Scanner.text.Silent (p.mode.held ++ [b]) := by
  obtain ⟨latest, room, k, hp⟩ := mode_of_closesRegion hb
  have hrelease := step_of_closesRegion supply options hb
  have hs := hx.stands
  rw [hp] at hs
  rw [hx.held_eq] at hrelease ⊢
  simp only [step, hp] at hrelease
  rcases gapByte_stands supply p b hs with ⟨-, -, -, -, hmem, -⟩ | ⟨-, -, -, hsilent⟩
  · -- one more region has been counted
    have hcount := hmem.regions
    rw [hrelease] at hcount
    exact absurd hcount (Nat.succ_ne_self _)
  · exact hsilent

/-- Bytes that are held back are read again once. -/
theorem Reads.feed (hx : Reads supply options p xs m d h read written) (nested : Nat) (b : UInt8) :
    p.feed supply options (nested + 1) b = some (p.step supply options b) := by
  cases hb : p.closesRegion b with
  | false => exact feed_of_not_closesRegion _ hb
  | true =>
      have hsilent := hx.silent_held hb
      have hagain :=
        runWith_feed_silent supply options (p := (p.closeRegion supply options).1) nested hsilent
      rw [run_silent hsilent] at hagain
      rw [step_of_closesRegion supply options hb, Progress.feed, if_pos hb]
      show (runWith _ { (p.closeRegion supply options).1 with mode := .markup .text } _ >>= _) = _
      rw [hagain]
      rfl

theorem Reads.runWith_feed (hx : Reads supply options p xs m d h read written) (nested : Nat)
    (bytes : Bytes) :
    p.runWith (Progress.feed supply options (nested + 1)) bytes =
      some (p.run supply options bytes) := by
  induction bytes generalizing p xs m d h read written with
  | nil => rfl
  | cons b bytes ih =>
      obtain ⟨xs', m', d', h', hx'⟩ := step_reads hx b
      rw [runWith, hx.feed nested b]
      simp only [Option.bind_eq_bind, Option.bind_some, ih hx']
      rfl

/-- The bytes that are counted do not matter. -/
theorem Reads.count (hx : Reads supply options p xs m d h read written) (bytesIn bytesOut : Nat) :
    Reads supply options (p.count bytesIn bytesOut) xs m d h read written where
  read := hx.read
  written := hx.written
  whole := hx.whole
  css := hx.css
  regions := hx.regions
  memory := hx.memory.trans ⟨rfl, rfl, rfl, rfl⟩
  stands := hx.stands

variable (supply options) in
/-- What is done where a region closes and the bytes `held` go out behind it: all of them are read
in markup, with no region closing meanwhile, and nothing is held any more. -/
structure Releases (p : Progress) (held : Bytes) (after : Progress × Bytes) : Prop where
  silent : Scanner.text.Silent held
  within : ∀ t, t <+: held →
    ((p.closeRegion supply options).1.run supply options t).1.mode =
        .markup (Scanner.text.run t).1 ∧
      ((p.closeRegion supply options).1.run supply options t).2 = t
  again : runWith (Progress.feed supply options 0) (p.closeRegion supply options).1 held =
    some ((p.closeRegion supply options).1.run supply options held)
  mode : after.1.mode = .markup (Scanner.text.run held).1
  nothing : after.1.mode.held = []
  regions : after.1.counts.regions = p.counts.regions + 1
  out : after.2 = Utf8.encode (p.regionCss supply options) ++ styleEnd ++ held

theorem release_releases {held : Bytes} (h : Scanner.text.Silent held) :
    p.Releases supply options held (p.release supply options held) where
  silent := h
  within t ht := by
    obtain ⟨rest, rfl⟩ := ht
    let q := (p.closeRegion supply options).1
    have hrun : { q with mode := .markup .text }.run supply options t = _ :=
      run_silent (Scanner.silent_append.1 h).1
    exact ⟨congrArg (·.1.mode) hrun, congrArg Prod.snd hrun⟩
  again := runWith_feed_silent supply options (p := (p.closeRegion supply options).1) 0 h
  mode := rfl
  nothing := rfl
  regions := rfl
  out := rfl

end Progress

open Progress in
/-- **Held bytes are read again once.**  Wherever a page in pieces goes on, and whichever byte
comes: a region closes if and only if this mode is not markup and the next one is, and then the held
bytes go out with the byte as markup, behind the CSS and the end tag.  So reading again once is
enough for the byte, and for any page. -/
theorem Rewriter.feed_pushAll (supply : Supply) (options : Options) (pieces : List Bytes)
    (b : UInt8) :
    let p := (pushAll { supply, options } pieces).1.progress
    let next := p.step supply options b
    (∀ nested, p.feed supply options (nested + 1) b = some next) ∧
      (∀ nested page, runWith (Progress.feed supply options (nested + 1)) {} page =
        some (Progress.run supply options {} page)) ∧
      (p.closesRegion b = true ↔ p.inRegion = true ∧ next.1.inRegion = false) ∧
      (p.closesRegion b = true → p.Releases supply options (p.mode.held ++ [b]) next) := by
  intro p next
  obtain ⟨xs, m, d, h, hrun⟩ := run_reads (reads_start supply options) pieces.flatten
  have hx := hrun.count pieces.flatten.length
    (Progress.run supply options {} pieces.flatten).2.length
  rw [← pushAll_progress] at hx
  refine ⟨fun nested => hx.feed nested b,
    fun nested page => (reads_start supply options).runWith_feed nested page,
    closesRegion_iff supply options p b, fun hb => ?_⟩
  have hnext : next = p.release supply options (p.mode.held ++ [b]) :=
    step_of_closesRegion supply options hb
  rw [hnext]
  exact release_releases (hx.silent_held hb)

/-- A byte that breaks off the start of a style tag behind a region closes the region. -/
theorem Rewriter.feed_broken :
    let p := (pushAll { supply := Catalog.supply {} }
      [Utf8.encode "<style></style> <".toList, Utf8.encode "sTy".toList]).1.progress
    p.closesRegion 0x78 = true ∧
      p.Releases (Catalog.supply {}) {} (p.mode.held ++ [0x78])
        (p.step (Catalog.supply {}) {} 0x78) ∧
      p.mode.held ++ [0x78] = Utf8.encode " <sTyx".toList := by
  intro p
  have hcloses : p.closesRegion 0x78 = true := by decide +kernel
  obtain ⟨-, -, -, hreleases⟩ := feed_pushAll (Catalog.supply {}) {}
    [Utf8.encode "<style></style> <".toList, Utf8.encode "sTy".toList] 0x78
  exact ⟨hcloses, hreleases hcloses, by decide +kernel⟩

end StyleSieve.Rewrite
