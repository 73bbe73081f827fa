/-!
# Double-precision numbers

A double is the word of 64 bits that stands for it, so two of them are equal only if they are the
same bit for bit. Adding hands a NaN operand on, the first one before the second, with its quiet
bit set; infinities that cancel out make the NaN with the sign bit set and no payload.
-/

namespace Streaming

/-- A double-precision number by its bits. -/
structure Double where
  bits : UInt64
deriving DecidableEq, Repr

namespace Double

/-- The number that the bits stand for. -/
def toFloat (d : Double) : Float := .ofBits d.bits

/-- Whether the bits stand for no number. -/
def isNaN (d : Double) : Bool := 0x7FF0000000000000 < (d.bits &&& 0x7FFFFFFFFFFFFFFF)

/-- The same NaN with its quiet bit set. -/
def quiet (d : Double) : Double := ⟨d.bits ||| 0x0008000000000000⟩

/-- The NaN that an operation without a result gives. -/
def invalid : Double := ⟨0xFFF8000000000000⟩

/-- The sum, rounded to the nearest double. -/
def add (a b : Double) : Double :=
  if a.isNaN then a.quiet
  else if b.isNaN then b.quiet
  else
    let sum : Double := ⟨(a.toFloat + b.toFloat).toBits⟩
    if sum.isNaN then invalid else sum

instance : Add Double := ⟨add⟩

end Double

end Streaming
