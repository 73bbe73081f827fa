import Streaming.Partition

/-!
# Cuts with places that are checked

What cutting gives, with bounds and places that are checked: a number is put between two bounds only
if these are in order, and a piece is taken only between two places of the payload that are in
order. For an even cut there has to be a number of parts to divide by and a size of one or more, and
its prefixes are taken from the payload, up to the place at which a piece ends. Otherwise there is
no result.
-/

namespace Streaming.Partition

universe u

variable {α : Type u}

/-- The nearest number between the bounds, unless these are out of order. -/
def clamp? (low high n : Nat) : Option Nat :=
  if low ≤ high then some (if n < low then low else if high < n then high else n) else none

/-- The elements from one place to another, unless the places are out of order or beyond the end. -/
def between? (start stop : Nat) (xs : List α) : Option (List α) :=
  if start ≤ stop ∧ stop ≤ xs.length then some ((xs.take stop).drop start) else none

/-- The pieces between `start` and each cut in turn, and the piece after the last cut. -/
def cutFrom? (start : Nat) (xs : List α) : List Nat → Option (List (List α))
  | [] => (between? start xs.length xs).map fun last => [last]
  | cut :: cuts =>
    (clamp? start xs.length cut).bind fun stop =>
      (between? start stop xs).bind fun piece => (cutFrom? stop xs cuts).map (piece :: ·)

/-- The pieces between the cuts. -/
def cutAt? (cuts : List Nat) (xs : List α) : Option (List (List α)) := cutFrom? 0 xs cuts

/-- The quotient, and one more if there is a remainder, unless the number of parts is zero. -/
def divUp? (n parts : Nat) : Option Nat :=
  if parts = 0 then none else some (if n % parts = 0 then n / parts else n / parts + 1)

/-- Consecutive pieces of `size` elements, the last one possibly shorter, unless `size` is zero. -/
def blocks? (size : Nat) (xs : List α) : Option (List (List α)) :=
  if size = 0 then none else some (blocks size xs)

/-- The pieces of an even cut. -/
def even? (parts : Nat) (xs : List α) : Option (List (List α)) :=
  (divUp? xs.length parts).bind fun size => blocks? (max 1 size) xs

/-- The elements of the payload up to the end of each piece in turn, the first of them beginning at
`start`. -/
def upToEnds? (start : Nat) (xs : List α) : List (List α) → Option (List (List α))
  | [] => some []
  | piece :: pieces =>
    let stop := start + piece.length
    (between? 0 stop xs).bind fun grown => (upToEnds? stop xs pieces).map (grown :: ·)

/-- Prefixes that end where the pieces of an even cut end. -/
def prefixes? (parts : Nat) (xs : List α) : Option (List (List α)) :=
  (even? parts xs).bind (upToEnds? 0 xs)

end Streaming.Partition
