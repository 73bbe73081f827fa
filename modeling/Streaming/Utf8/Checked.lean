import Streaming.Utf8.Decoder

/-!
# The decoder in checked words

What a decoder computes, with words that are checked: a count that falls below zero and a shift by
as many places as the word has leave no result. Bits that a shift moves out of the word are lost,
and that is no failure.
-/

namespace Streaming.Utf8

/-- One less, unless that is below zero. -/
def lessOne? (n : UInt8) : Option UInt8 := if 1 ≤ n then some (n - 1) else none

/-- The bits moved to the left, unless by as many places as there are. -/
def moved? (bits places : UInt32) : Option UInt32 :=
  if places < 32 then some (bits <<< places) else none

namespace Decoder

/-- What `b` does to the decoder. -/
def judge? (d : Decoder) (b : UInt8) : Option Verdict :=
  match d.state with
  | .ready => some (d.judge b)
  | .expect remaining lower upper =>
    if b < lower ∨ upper < b then some .refused
    else
      (moved? d.bits 6).bind fun high =>
        let bits := high ||| (b &&& 0x3F).toUInt32
        if 1 < remaining then
          (lessOne? remaining).map fun missing => .more ⟨.expect missing contLower contUpper, bits⟩
        else
          match scalar? bits with
          | some c => some (.scalar c)
          | none => some .refused

/-- Takes one byte. -/
def offer? (d : Decoder) (b : UInt8) : Option (Option Item × Decoder) :=
  (d.judge? b).map fun
    | .more next => (none, next)
    | .scalar c => (some (.ok c), {})
    | .refused => (some (.error (.invalidByte b d)), {})

/-- The items that a list of bytes completes, and the decoder after them. -/
def offerAll? (d : Decoder) : List UInt8 → Option (List Item × Decoder)
  | [] => some ([], d)
  | b :: bs =>
    (d.offer? b).bind fun first =>
      (first.2.offerAll? bs).map fun rest => (first.1.toList ++ rest.1, rest.2)

/-- These items, and the error that the end of the input is inside a sequence. -/
def report? (d : Decoder) (bs : List UInt8) : Option (List Item) :=
  (d.offerAll? bs).map fun r => r.1 ++ (r.2.finish?.map Except.error).toList

end Decoder

end Streaming.Utf8
