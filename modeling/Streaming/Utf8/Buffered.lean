import Streaming.Utf8.Encoding

/-!
# UTF-8 encoding with a buffer of four bytes

The encoding of characters once more, the bytes of the last character being kept in a buffer of four
bytes with the number of bytes that count and a place among them. A place behind the buffer, or one
behind the bytes that count where their number is wanted, leaves no result.
-/

namespace Streaming.Utf8

universe u

/-- The bytes of a scalar value, with zeros behind them. -/
def padded (c : Char) : Vector UInt8 4 := Vector.ofFn fun i => (encode c)[i]?.getD 0

/-- A stream of characters being encoded, with a place in the bytes of the last character. -/
structure Buffered (σ : Type u) where
  chars : σ
  /-- The bytes of the last character. -/
  buffer : Vector UInt8 4 := Vector.replicate 4 0
  /-- How many of them have been given. -/
  position : Nat := 0
  /-- How many of them count. -/
  count : Nat := 0
deriving DecidableEq, Repr

namespace Buffered

variable {σ : Type u}

/-- The byte at the place. -/
def give? (s : Buffered σ) : Option (Option UInt8 × Buffered σ) :=
  s.buffer[s.position]?.map fun b => (some b, { s with position := s.position + 1 })

/-- The hint, which counts the bytes that have not been given. -/
def hint? [HasHint σ] (s : Buffered σ) : Option Hint :=
  if s.position ≤ s.count then some (((hint s.chars).widen 4).plus (s.count - s.position)) else none

variable [FinitePull σ Char]

/-- The next byte, a character being pulled only when all bytes of the last one have been given. -/
def next? (s : Buffered σ) : Option (Option UInt8 × Buffered σ) :=
  if s.position = s.count then
    match Pull.pull s.chars with
    | (none, chars) => some (none, { s with chars })
    | (some c, chars) => give? ⟨chars, padded c, 0, (encode c).length⟩
  else s.give?

/-- The answers to exactly `n` requests, the empty ones included. -/
def answers? : Nat → Buffered σ → Option (List (Option UInt8) × Buffered σ)
  | 0, s => some ([], s)
  | n + 1, s =>
    s.next?.bind fun first =>
      (answers? n first.2).map fun rest => (first.1 :: rest.1, rest.2)

end Buffered

end Streaming.Utf8
