import Mathlib.Data.List.Forall2

/-!
# Well-formed sequences

The byte sequences that stand for scalar values, by the table of RFC 3629. A sequence is well formed
if it fits a row of the table, byte by byte; its value is made of the payload bits of its bytes.
Nothing here decodes: the table and the values say what a decoder is to recognise.
-/

namespace Streaming.Utf8

/-- The smallest and the largest value of a byte. -/
structure Range where
  lower : UInt8
  upper : UInt8
deriving DecidableEq, Repr

namespace Range

/-- The byte is within the bounds. -/
def Has (r : Range) (b : UInt8) : Prop := r.lower ≤ b ∧ b ≤ r.upper

instance (r : Range) (b : UInt8) : Decidable (r.Has b) :=
  inferInstanceAs (Decidable (r.lower ≤ b ∧ b ≤ r.upper))

/-- Any continuation byte. -/
def cont : Range := ⟨0x80, 0xBF⟩

end Range

/-- A row of the table: the ranges of the first byte and of the continuation bytes. -/
structure Row where
  lead : Range
  conts : List Range
deriving DecidableEq, Repr

/-- The ranges of all bytes. -/
def Row.ranges (row : Row) : List Range := row.lead :: row.conts

/-- The table. The second byte is restricted where an overlong form, a surrogate or a value beyond
U+10FFFF would be possible. -/
def rows : List Row :=
  [⟨⟨0x00, 0x7F⟩, []⟩,
   ⟨⟨0xC2, 0xDF⟩, [.cont]⟩,
   ⟨⟨0xE0, 0xE0⟩, [⟨0xA0, 0xBF⟩, .cont]⟩,
   ⟨⟨0xE1, 0xEC⟩, [.cont, .cont]⟩,
   ⟨⟨0xED, 0xED⟩, [⟨0x80, 0x9F⟩, .cont]⟩,
   ⟨⟨0xEE, 0xEF⟩, [.cont, .cont]⟩,
   ⟨⟨0xF0, 0xF0⟩, [⟨0x90, 0xBF⟩, .cont, .cont]⟩,
   ⟨⟨0xF1, 0xF3⟩, [.cont, .cont, .cont]⟩,
   ⟨⟨0xF4, 0xF4⟩, [⟨0x80, 0x8F⟩, .cont, .cont]⟩]

/-- The bytes are within the ranges, one by one. -/
abbrev Fits (ranges : List Range) (s : List UInt8) : Prop := List.Forall₂ Range.Has ranges s

/-- The sequence fits a row of the table. -/
def WellFormed (s : List UInt8) : Prop := ∃ row ∈ rows, Fits row.ranges s

instance (s : List UInt8) : Decidable (WellFormed s) :=
  inferInstanceAs (Decidable (∃ row ∈ rows, Fits row.ranges s))

/-- The payload bits of a first byte that `conts` continuation bytes follow: the last seven bits of
a byte that stands alone, and the last five, four or three of one that does not. -/
def leadBits (conts : Nat) (b : UInt8) : Nat :=
  match conts with
  | 0 => b.toNat % 128
  | 1 => b.toNat % 32
  | 2 => b.toNat % 16
  | _ => b.toNat % 8

/-- The payload bits gathered from the first bytes of a sequence with `conts` continuation bytes, of
which each carries six. -/
def gather (conts : Nat) : List UInt8 → Nat
  | [] => 0
  | b :: bs => bs.foldl (fun n c => n * 64 + c.toNat % 64) (leadBits conts b)

/-- The value of a sequence. -/
def payload (s : List UInt8) : Nat := gather (s.length - 1) s

/-- The sequence is well formed and its value is that of the character. -/
def Encodes (s : List UInt8) (c : Char) : Prop := WellFormed s ∧ payload s = c.toNat

instance (s : List UInt8) (c : Char) : Decidable (Encodes s c) :=
  inferInstanceAs (Decidable (WellFormed s ∧ payload s = c.toNat))

/-- The bytes begin a well-formed sequence, or are one. -/
def Viable (v : List UInt8) : Prop := ∃ t, WellFormed (v ++ t)

/-- The bytes begin a well-formed sequence that goes on after them. -/
def Unfinished (v : List UInt8) : Prop := ∃ t, t ≠ [] ∧ WellFormed (v ++ t)

end Streaming.Utf8
