import Streaming.Hint
import Streaming.Pull

/-!
# UTF-8 encoding

A scalar value is written as one to four bytes: the high bits of the first byte give the length,
and each later byte carries six bits of payload.
-/

namespace Streaming.Utf8

universe u

/-- A first byte: the mark of the length and the high bits of the payload. -/
def leadByte (mark : UInt8) (n : UInt32) : UInt8 := mark + n.toUInt8

/-- A continuation byte with the six low bits of `n`. -/
def contByte (n : UInt32) : UInt8 := 0x80 + (n % 0x40).toUInt8

/-- The bytes of a scalar value. -/
def encode (c : Char) : List UInt8 :=
  let n := c.val
  if n < 0x80 then [n.toUInt8]
  else if n < 0x800 then [leadByte 0xC0 (n / 0x40), contByte n]
  else if n < 0x10000 then [leadByte 0xE0 (n / 0x1000), contByte (n / 0x40), contByte n]
  else [leadByte 0xF0 (n / 0x40000), contByte (n / 0x1000), contByte (n / 0x40), contByte n]

theorem length_encode_le (c : Char) : (encode c).length ≤ 4 := by
  simp only [encode]
  split
  · simp
  · split
    · simp
    · split <;> simp

/-- A stream of characters being encoded. -/
structure Encoding (σ : Type u) where
  chars : σ
  /-- The bytes of the last character that have not been given yet. -/
  buffered : List UInt8 := []
deriving DecidableEq, Repr

namespace Encoding

theorem encode_ne_nil (c : Char) : encode c ≠ [] := by
  simp only [encode]
  split
  · simp
  · split
    · simp
    · split <;> simp

variable {σ : Type u} [FinitePull σ Char]

/-- The next byte, a character being pulled only when no byte of the last one is left. -/
def next (s : Encoding σ) : Option UInt8 × Encoding σ :=
  match s.buffered with
  | b :: buffered => (some b, { s with buffered })
  | [] =>
    match Pull.pull s.chars with
    | (none, chars) => (none, ⟨chars, []⟩)
    | (some c, chars) => ((encode c).head?, ⟨chars, (encode c).tail⟩)

instance : FinitePull (Encoding σ) UInt8 where
  pull := next
  fused := Pull.fused σ
  none_of_fused hf s t h := by
    unfold next at h
    split at h
    · cases h
    · split at h
      · rename_i chars hp
        cases h
        simp only [next]
        have hnone := Pull.none_of_fused hf hp
        split
        · rfl
        · rename_i hp'
          rw [hp'] at hnone
          cases hnone
      · rename_i c chars hp
        have hne : encode c ≠ [] := encode_ne_nil c
        simp only [Prod.mk.injEq, List.head?_eq_none_iff] at h
        exact absurd h.1 hne
  left s := s.buffered.length + 4 * FinitePull.left s.chars
  left_lt {s t a} h := by
    unfold next at h
    split at h
    · rename_i b buffered hb
      simp only [Prod.mk.injEq] at h
      simp [← h.2, hb]
    · rename_i hb
      split at h
      · simp at h
      · rename_i c chars hp
        simp only [Prod.mk.injEq] at h
        have := FinitePull.left_lt hp
        have := length_encode_le c
        simp only [← h.2, hb, List.length_tail, List.length_nil]
        omega

instance [HasHint σ] : HasHint (Encoding σ) where
  hint s := ((hint s.chars).widen 4).plus s.buffered.length

end Encoding

end Streaming.Utf8
