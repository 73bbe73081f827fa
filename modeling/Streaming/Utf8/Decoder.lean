import Streaming.Pull
import Streaming.Text.Quoted

/-!
# The UTF-8 decoder

A decoder takes one byte at a time. Between scalar values it is ready; inside a sequence it knows
how many bytes are missing, which values the next byte may take, and the payload bits so far. The
bounds on the next byte, set by the first byte of a sequence, keep out overlong forms, surrogates
and values beyond U+10FFFF.

A byte that is refused is dropped together with the sequence before it, even where it could have
begun a sequence of its own, and the error keeps the decoder as it was before that byte. Every
combination of field values is a decoder, so a decoder can be resumed from any stored value.
-/

namespace Streaming.Utf8

/-- Where a decoder stands. -/
inductive State where
  /-- Between scalar values. -/
  | ready
  /-- Inside a sequence: how many bytes are missing, and the bounds on the next one. -/
  | expect (remaining lower upper : UInt8)
deriving DecidableEq, Repr

/-- A decoder, which is also all that is needed to resume decoding later. -/
structure Decoder where
  state : State := .ready
  /-- The payload bits of the sequence so far. -/
  bits : UInt32 := 0
deriving DecidableEq, Repr

/-- What can be wrong with the input. -/
inductive DecodeError where
  /-- A byte that the decoder, as it was found, does not take. -/
  | invalidByte (byte : UInt8) (found : Decoder)
  /-- The input ended inside a sequence. -/
  | incomplete (found : Decoder)
deriving DecidableEq, Repr

/-- The outcome of decoding at one place: a scalar value or an error. -/
abbrev Item := Except DecodeError Char

/-- The character that stands for undecodable input. -/
def replacement : Char := '\uFFFD'

/-- The smallest and the largest continuation byte. -/
def contLower : UInt8 := 0x80

@[inherit_doc contLower]
def contUpper : UInt8 := 0xBF

/-- The scalar value with a given code point, if there is one. -/
def scalar? (n : UInt32) : Option Char :=
  if h : n.isValidChar then some ⟨n, h⟩ else none

/-- The decoder after the first byte of a sequence of two bytes or more, if `b` is one. -/
def lead? (b : UInt8) : Option Decoder :=
  if b < 0xC2 then none
  else if b < 0xE0 then some ⟨.expect 1 contLower contUpper, (b % 0x20).toUInt32⟩
  else if b < 0xF0 then
    let lower := if b = 0xE0 then 0xA0 else contLower
    let upper := if b = 0xED then 0x9F else contUpper
    some ⟨.expect 2 lower upper, (b % 0x10).toUInt32⟩
  else if b < 0xF5 then
    let lower := if b = 0xF0 then 0x90 else contLower
    let upper := if b = 0xF4 then 0x8F else contUpper
    some ⟨.expect 3 lower upper, (b % 0x08).toUInt32⟩
  else none

/-- What a byte does to a decoder. -/
inductive Verdict where
  /-- The byte is taken and the sequence goes on. -/
  | more (next : Decoder)
  /-- The byte is taken and completes a scalar value. -/
  | scalar (c : Char)
  /-- The byte is refused. -/
  | refused
deriving DecidableEq, Repr

namespace Decoder

/-- The bits after a continuation byte: its low six bits are put behind the others, of which those
that no longer fit are lost. -/
def extend (bits : UInt32) (b : UInt8) : UInt32 := bits * 0x40 + (b % 0x40).toUInt32

/-- What `b` does to the decoder. -/
def judge (d : Decoder) (b : UInt8) : Verdict :=
  match d.state with
  | .ready =>
    if b < 0x80 then .scalar (Char.ofUInt8 b)
    else
      match lead? b with
      | some next => .more next
      | none => .refused
  | .expect remaining lower upper =>
    if b < lower ∨ upper < b then .refused
    else if 1 < remaining then
      .more ⟨.expect (remaining - 1) contLower contUpper, extend d.bits b⟩
    else
      match scalar? (extend d.bits b) with
      | some c => .scalar c
      | none => .refused

/-- Takes one byte: the item that it completes, if any, and the decoder after it. -/
def offer (d : Decoder) (b : UInt8) : Option Item × Decoder :=
  match d.judge b with
  | .more next => (none, next)
  | .scalar c => (some (.ok c), {})
  | .refused => (some (.error (.invalidByte b d)), {})

/-- The error that the end of the input is, if the decoder is inside a sequence. -/
def finish? (d : Decoder) : Option DecodeError :=
  match d.state with
  | .ready => none
  | .expect .. => some (.incomplete d)

/-- Whether the decoder is between scalar values. -/
def isReady (d : Decoder) : Bool := d.state == .ready

/-- How many bytes the decoder says are missing. -/
def remaining (d : Decoder) : UInt8 :=
  match d.state with
  | .ready => 0
  | .expect remaining _ _ => remaining

/-- The items that a list of bytes completes, and the decoder after them. -/
def offerAll (d : Decoder) : List UInt8 → List Item × Decoder
  | [] => ([], d)
  | b :: bs =>
    let first := d.offer b
    let rest := first.2.offerAll bs
    (first.1.toList ++ rest.1, rest.2)

end Decoder

/-- Bytes waiting to be offered to a decoder. -/
structure Batch where
  decoder : Decoder
  bytes : List UInt8
deriving DecidableEq, Repr

namespace Batch

/-- The next item, and what is waiting after the byte that completes it. -/
def next (f : Batch) : Option Item × Batch := go f.decoder f.bytes
where
  /-- Offers bytes until one completes an item. -/
  go (d : Decoder) : List UInt8 → Option Item × Batch
    | [] => (none, ⟨d, []⟩)
    | b :: bs =>
      match d.offer b with
      | (some item, d) => (some item, ⟨d, bs⟩)
      | (none, d) => go d bs

theorem length_go_lt {d : Decoder} {bytes : List UInt8} {f : Batch} {item : Item}
    (h : next.go d bytes = (some item, f)) : f.bytes.length < bytes.length := by
  fun_induction next.go d bytes with
  | case1 d => simp at h
  | case2 d b bs it d' ho =>
    simp only [Prod.mk.injEq] at h
    simp [← h.2]
  | case3 d b bs d' ho ih => exact Nat.lt_succ_of_lt (ih h)

theorem bytes_of_go_none {d : Decoder} {bytes : List UInt8} {f : Batch}
    (h : next.go d bytes = (none, f)) : f.bytes = [] := by
  fun_induction next.go d bytes with
  | case1 d =>
    cases h
    rfl
  | case2 d b bs it d' ho => cases h
  | case3 d b bs d' ho ih => exact ih h

instance : FinitePull Batch Item where
  pull := next
  fused := true
  none_of_fused _ f t h := by rw [next, bytes_of_go_none h, next.go]
  left f := f.bytes.length
  left_lt := length_go_lt

theorem pull_eq (f : Batch) : Pull.pull f = f.next := rfl

end Batch

/-! ## Showing decoders and errors -/

instance : Inspect State where
  inspect
    | .ready => "Ready"
    | .expect remaining lower upper =>
      Inspect.record "Expect" [("remaining", inspect remaining), ("lower", inspect lower),
        ("upper", inspect upper)]

namespace Decoder

/-- The fields of a decoder as they are shown. -/
def fields (d : Decoder) : List (String × String) :=
  [("state", inspect d.state), ("code_point", Inspect.call "CodePoint" [inspect d.bits])]

instance : Inspect Decoder := ⟨fun d => Inspect.record "Utf8Decoder" d.fields⟩

/-- The decoder shown as a place to resume from. -/
def inspectToken (d : Decoder) : String := Inspect.record "ResumeToken" d.fields

end Decoder

namespace DecodeError

/-- The decoder as the error found it. -/
def found : DecodeError → Decoder
  | .invalidByte _ d => d
  | .incomplete d => d

/-- The byte at fault, if the error is about one. -/
def byte? : DecodeError → Option UInt8
  | .invalidByte b _ => some b
  | .incomplete _ => none

instance : Inspect DecodeError where
  inspect
    | .invalidByte b d => Inspect.record "InvalidByte" (("byte", inspect b) :: d.fields)
    | .incomplete d => Inspect.record "Incomplete" d.fields

/-- The error in words. -/
def message : DecodeError → String
  | .invalidByte b d =>
    "invalid UTF-8 byte " ++ Text.quotedByte b ++ " (decoder state " ++ inspect d.state ++ ")"
  | .incomplete d =>
    "incomplete UTF-8 sequence at end of input (decoder state " ++ inspect d.state ++ ")"

end DecodeError

end Streaming.Utf8
