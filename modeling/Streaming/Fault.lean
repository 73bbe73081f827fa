import Streaming.Text.Quoted

/-!
# Faults

A fault breaks a computation off: unlike an error of a parser it is no answer, and nothing is read
after it.
-/

namespace Streaming

/-- Why a computation was broken off. -/
inductive Fault where
  /-- A sum left the range of its type. -/
  | additionOverflow
  /-- A difference left the range of its type. -/
  | subtractionOverflow
  /-- A parser handed back more elements than can be returned. -/
  | tooFarBack (asked available : Nat)
  /-- A payload was to be cut into no parts. -/
  | noParts
  /-- A character does not fit in one byte. -/
  | notOneByte (c : Char)
  /-- A function that was passed in broke off, for a reason of its own. -/
  | raised (reason : String)
deriving DecidableEq, Repr

/-- The largest number of elements that can be handed back at once. -/
def backtrackLimit : Nat := 4

/-- The fault in words. -/
def Fault.message : Fault → String
  | .additionOverflow => "attempt to add with overflow"
  | .subtractionOverflow => "attempt to subtract with overflow"
  | .tooFarBack asked available =>
    "parser backtracked " ++ inspect asked ++ " elements but only " ++ inspect available ++
      " can be returned (limit " ++ inspect backtrackLimit ++ ")"
  | .noParts => "assertion failed: parts > 0"
  | .notOneByte c =>
    "encode_char8: " ++ inspect c ++ " (U+" ++ Text.upperHex 4 c.toNat ++
      ") is outside the single-byte range"
  | .raised reason => reason

/-- States that a fault may have broken off. -/
class HasFault (σ : Type u) where
  /-- The fault that broke the state off, if one did. -/
  fault? : σ → Option Fault

export HasFault (fault?)

end Streaming
