import StyleSieve.Text.Blank
import StyleSieve.Text.Utf8

/-!
# Where the leading compound of a selector ends

A character is active if it is a space, `>`, `~`, `+` or `:` outside brackets and outside escapes.
The compound ends at the first active character after the start of the selector whose kind is not
that of an active first character: of each kind only the first occurrence counts, and one at the
start counts for nothing.  `breakLength` gives the place in characters.  `breakOffset` gives it in
bytes, and goes by the bytes alone: a character of several bytes is as many steps of the cursor.
-/

namespace StyleSieve.Selector

/-- The five kinds of character that end a compound. -/
inductive BreakKind where
  | space
  | child
  | sibling
  | adjacent
  | pseudo
  deriving DecidableEq, Repr

/-- The kind of a character, wherever it stands. -/
def BreakKind.of? (c : Char) : Option BreakKind :=
  if Text.isSpace c then some .space
  else if c = '>' then some .child
  else if c = '~' then some .sibling
  else if c = '+' then some .adjacent
  else if c = ':' then some .pseudo
  else none

/-- How much of an escape has been read. -/
inductive Escape where
  /-- None is open. -/
  | none
  /-- The backslash. -/
  | begun
  /-- The backslash and some hexadecimal digits. -/
  | hex (digits : Nat)
  deriving DecidableEq, Repr

/-- What has been read so far, as far as it decides whether the next character is active. -/
structure Cursor where
  escape : Escape := .none
  /-- The quote that closes the open string; strings are known inside brackets only. -/
  quote : Option Char := none
  /-- How many brackets are open. -/
  depth : Nat := 0
  deriving DecidableEq, Repr

namespace Cursor

/-- Reads a character outside escapes: the cursor after it, and its kind if it is active. -/
def plain (s : Cursor) (c : Char) : Cursor × Option BreakKind :=
  if c = '\\' then ({ s with escape := .begun }, none)
  else
    let s := { s with escape := .none }
    match s.quote with
    | some q => (if c = q then { s with quote := none } else s, none)
    | none =>
      if s.depth ≠ 0 && (c = '\x22' || c = '\x27') then ({ s with quote := some c }, none)
      else if c = '[' || c = '(' then ({ s with depth := s.depth + 1 }, none)
      else if c = ']' || c = ')' then ({ s with depth := s.depth - 1 }, none)
      else (s, if s.depth = 0 then BreakKind.of? c else none)

/-- Reads a character.  An escape takes one character, or up to six hexadecimal digits and one
space. -/
def step (s : Cursor) (c : Char) : Cursor × Option BreakKind :=
  match s.escape with
  | .none => s.plain c
  | .begun => ({ s with escape := if Text.isHexDigit c then .hex 1 else .none }, none)
  | .hex digits =>
    if digits < 6 && Text.isHexDigit c then ({ s with escape := .hex (digits + 1) }, none)
    else if Text.isSpace c then ({ s with escape := .none }, none)
    else s.plain c

/-- The kind of each character of a text, `none` for one that is not active. -/
def kinds : Cursor → Text → List (Option BreakKind)
  | _, [] => []
  | s, c :: rest => (s.step c).2 :: kinds (s.step c).1 rest

end Cursor

/-- The number of characters of the leading compound. -/
def breakLength (selector : Text) : Nat :=
  match Cursor.kinds {} selector with
  | [] => 0
  | first :: rest => rest.findIdx (fun kind => kind.isSome && kind != first) + 1

/-- Every kind once. -/
def BreakKind.all : List BreakKind := [.space, .child, .sibling, .adjacent, .pseudo]

/-- The least place, but for the start, where a kind is found first. -/
def firstBreak (kinds : List (Option BreakKind)) : Option Nat :=
  ((BreakKind.all.filterMap fun kind => kinds.findIdx? (· == some kind)).filter (0 < ·)).min?

/-- The kind of each byte of a selector, read as the character with its code. -/
def byteKinds (selector : Text) : List (Option BreakKind) :=
  Cursor.kinds {} ((Utf8.encode selector).map Char.ofUInt8)

/-- The number of bytes of the leading compound. -/
def breakOffset (selector : Text) : Nat :=
  (firstBreak (byteKinds selector)).getD (Utf8.encode selector).length

end StyleSieve.Selector
