import Streaming.Text.Joined

/-!
# Joined strings by byte position

The characters of joined strings once more, the place in the current string being a number of bytes.
A place that is no boundary between characters leaves no result.
-/

namespace Streaming.Text

universe u

/-- The number of bytes that the characters take up. -/
def byteLength : List Char → Nat
  | [] => 0
  | c :: cs => c.utf8Size + byteLength cs

/-- The characters behind so many bytes, unless these end inside a character or there are fewer. -/
def behindBytes? : List Char → Nat → Option (List Char)
  | cs, 0 => some cs
  | [], _ + 1 => none
  | c :: cs, n + 1 => if c.utf8Size ≤ n + 1 then behindBytes? cs (n + 1 - c.utf8Size) else none

/-- Strings being read character by character, with a place in the current one. -/
structure Positioned (σ : Type u) where
  strings : σ
  /-- The current string, whose suffix is still to come. -/
  current : Option String := none
  /-- How many bytes of it have been read. -/
  position : Nat := 0
  /-- The character after every string. -/
  suffix : Char
deriving DecidableEq, Repr

namespace Positioned

variable {σ : Type u}

/-- The characters of lines, with a newline after each. -/
def ofLines (strings : σ) : Positioned σ where
  strings
  suffix := '\n'

/-- The characters of words, with a space after each. -/
def ofWords (strings : σ) : Positioned σ where
  strings
  suffix := ' '

/-- The next character of a string behind so many bytes, or its suffix. -/
def within? (s : Positioned σ) (text : String) (position : Nat) :
    Option (Option Char × Positioned σ) :=
  (behindBytes? text.toList position).map fun
    | [] => (some s.suffix, { s with current := none, position })
    | c :: _ =>
      (some c, { s with current := some text, position := position + c.utf8Size })

variable [FinitePull σ String]

/-- The next character, a string being pulled only when none is begun. -/
def next? (s : Positioned σ) : Option (Option Char × Positioned σ) :=
  match s.current with
  | some text => s.within? text s.position
  | none =>
    match Pull.pull s.strings with
    | (none, strings) => some (none, { s with strings })
    | (some text, strings) => { s with strings }.within? text 0

/-- The answers to exactly `n` requests, the empty ones included. -/
def answers? : Nat → Positioned σ → Option (List (Option Char) × Positioned σ)
  | 0, s => some ([], s)
  | n + 1, s =>
    s.next?.bind fun first =>
      (answers? n first.2).map fun rest => (first.1 :: rest.1, rest.2)

end Positioned

end Streaming.Text
