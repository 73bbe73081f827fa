import Streaming.Fault

/-!
# Cutting a payload

Ways to cut a list into consecutive pieces: into a number of even parts, at given offsets, and into
growing prefixes.
-/

namespace Streaming.Partition

universe u

variable {α : Type u}

/-- Consecutive pieces of `size` elements, the last one possibly shorter; `size` is at least one. -/
def blocks (size : Nat) : List α → List (List α)
  | [] => []
  | x :: xs => (x :: xs.take (size - 1)) :: blocks size (xs.drop (size - 1))
termination_by xs => xs.length
decreasing_by simp only [List.length_drop, List.length_cons]; omega

/-- The quotient, rounded up. -/
def divUp (n parts : Nat) : Nat := (n + parts - 1) / parts

/-- At most `parts` pieces, all of one length but for the last. -/
def even (parts : Nat) (xs : List α) : Except Fault (List (List α)) :=
  if parts = 0 then .error .noParts
  else .ok (blocks (max 1 (divUp xs.length parts)) xs)

/-- The concatenations of the first pieces: of one, of two, and so on. -/
def running (done : List α) : List (List α) → List (List α)
  | [] => []
  | piece :: pieces => (done ++ piece) :: running (done ++ piece) pieces

/-- Prefixes that grow by the pieces of an even cut. -/
def prefixes (parts : Nat) (xs : List α) : Except Fault (List (List α)) :=
  (even parts xs).map (running [])

/-- The nearest number between the bounds. -/
def clamp (low high n : Nat) : Nat := min high (max low n)

/-- The pieces between `start` and each cut in turn, and the piece after the last cut. A cut beyond
the end counts as the end, and one before an earlier cut as that cut. -/
def cutFrom (start : Nat) (xs : List α) : List Nat → List (List α)
  | [] => [xs.drop start]
  | cut :: cuts =>
    let stop := clamp start xs.length cut
    (xs.take stop).drop start :: cutFrom stop xs cuts

/-- The pieces between the cuts. -/
def cutAt (cuts : List Nat) (xs : List α) : List (List α) := cutFrom 0 xs cuts

end Streaming.Partition
