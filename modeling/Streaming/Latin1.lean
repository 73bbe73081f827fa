import Streaming.Fault
import Streaming.Hint
import Streaming.Pull

/-!
# One byte for each character

The characters up to U+00FF can be written as one byte each. Of the two ways to treat the others,
one breaks the encoding off and one keeps the low eight bits.
-/

namespace Streaming.Latin1

universe u

/-- The byte of a character up to U+00FF. -/
def byte? (c : Char) : Option UInt8 :=
  if c.val ≤ 0xFF then some c.val.toUInt8 else none

/-- The low eight bits of a character's number. -/
def lowByte (c : Char) : UInt8 := c.val.toUInt8

/-- A stream of characters being encoded, broken off at the first that does not fit. -/
structure Encoding (σ : Type u) where
  chars : σ
  fault : Option Fault := none
deriving DecidableEq, Repr

/-- A stream of characters being cut down to their low eight bits. -/
structure Truncation (σ : Type u) where
  chars : σ
deriving DecidableEq, Repr

variable {σ : Type u} [FinitePull σ Char]

/-- The next byte; after a fault there is none. -/
def Encoding.next (s : Encoding σ) : Option UInt8 × Encoding σ :=
  if s.fault.isSome then (none, s)
  else
    match Pull.pull s.chars with
    | (none, chars) => (none, { s with chars })
    | (some c, chars) =>
      match byte? c with
      | some b => (some b, { s with chars })
      | none => (none, ⟨chars, some (.notOneByte c)⟩)

instance : FinitePull (Encoding σ) UInt8 where
  pull := Encoding.next
  fused := Pull.fused σ
  none_of_fused hf s t h := by
    unfold Encoding.next at h ⊢
    split at h
    · rename_i hs
      cases h
      rw [if_pos hs]
    · rename_i hs
      split at h
      · rename_i chars hp
        cases h
        rw [if_neg hs]
        have hnone := Pull.none_of_fused hf hp
        split
        · rfl
        · rename_i hp'
          rw [hp'] at hnone
          cases hnone
      · split at h <;> cases h
        rfl
  left s := FinitePull.left s.chars
  left_lt {s t a} h := by
    unfold Encoding.next at h
    split at h
    · simp at h
    · split at h
      · simp at h
      · rename_i c chars hp
        split at h
        · simp only [Prod.mk.injEq] at h
          rw [← h.2]
          exact FinitePull.left_lt hp
        · simp at h

instance : HasFault (Encoding σ) := ⟨Encoding.fault⟩

instance [HasHint σ] : HasHint (Encoding σ) := ⟨fun s => hint s.chars⟩

/-- The next byte. -/
def Truncation.next (s : Truncation σ) : Option UInt8 × Truncation σ :=
  let answer := Pull.pull s.chars
  (answer.1.map lowByte, ⟨answer.2⟩)

instance : FinitePull (Truncation σ) UInt8 where
  pull := Truncation.next
  fused := Pull.fused σ
  none_of_fused hf s t h := by
    simp only [Truncation.next, Prod.mk.injEq, Option.map_eq_none_iff] at h ⊢
    rw [← h.2]
    exact Pull.none_of_fused hf (Prod.ext h.1 rfl)
  left s := FinitePull.left s.chars
  left_lt {s t a} h := by
    simp only [Truncation.next, Prod.mk.injEq, Option.map_eq_some_iff] at h
    obtain ⟨⟨c, hc, -⟩, ht⟩ := h
    rw [← ht]
    exact FinitePull.left_lt (Prod.ext hc rfl)

instance [HasHint σ] : HasHint (Truncation σ) := ⟨fun s => hint s.chars⟩

end Streaming.Latin1
