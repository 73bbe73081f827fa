import Streaming.Latch
import Streaming.Utf8.Decoder

/-!
# Decoding a stream of bytes

A decoding pulls bytes until they complete an item, and no further. What becomes of an error is a
matter of policy: it ends the decoding, it is replaced by U+FFFD, or it is reported as an item. The
end of the input inside a sequence is an error like any other, but it leaves the decoder as it is,
so that decoding can be resumed with the bytes that follow.
-/

namespace Streaming.Utf8

universe u

/-- What becomes of an error. -/
inductive Policy where
  /-- It is the last item. -/
  | strict
  /-- It becomes U+FFFD. -/
  | lenient
  /-- It is an item, and decoding goes on. -/
  | report
deriving DecidableEq, Repr

instance : Inhabited Policy := ⟨.strict⟩

/-- A note of an error that was disposed of, and under which policy. -/
structure Disposal where
  policy : Policy
  error : DecodeError
deriving DecidableEq, Repr

namespace Policy

/-- The item that an error becomes. -/
def apply (p : Policy) (e : DecodeError) : Item :=
  match p with
  | .lenient => .ok replacement
  | .strict | .report => .error e

/-- The policy's name. -/
def name : Policy → String
  | .strict => "Strict"
  | .lenient => "Lenient"
  | .report => "Report"

instance : Inspect Policy := ⟨name⟩

end Policy

/-- What the note says. -/
def Disposal.message (d : Disposal) : String :=
  match d.policy with
  | .strict => "truncating strict UTF-8 decode"
  | .lenient => "substituting U+FFFD"
  | .report => "reporting UTF-8 error"

/-- A stream of bytes being decoded. -/
structure Decoding (σ : Type u) where
  bytes : Latch σ
  policy : Policy := .strict
  decoder : Decoder := {}
  /-- Whether no item will come any more. -/
  finished : Bool := false
  /-- The errors disposed of so far, in order. -/
  disposals : List Disposal := []
deriving DecidableEq, Repr

namespace Decoding

variable {σ : Type u} [FinitePull σ UInt8]

/-- Starts decoding under a policy. -/
def start (policy : Policy) (bytes : σ) : Decoding σ where
  bytes := ⟨bytes, false⟩
  policy

/-- Goes on from a decoder, reporting errors. -/
def resume (decoder : Decoder) (bytes : σ) : Decoding σ where
  bytes := ⟨bytes, false⟩
  policy := .report
  decoder

/-- Answers with what becomes of an error, which ends a strict decoding. -/
def answerError (s : Decoding σ) (e : DecodeError) : Option Item × Decoding σ :=
  (some (s.policy.apply e),
    { s with
      finished := s.finished || s.policy == .strict
      disposals := s.disposals ++ [⟨s.policy, e⟩] })

/-- Ends the decoding, a sequence left unfinished being an error. -/
def finish (s : Decoding σ) : Option Item × Decoding σ :=
  match s.decoder.finish? with
  | none => (none, { s with finished := true })
  | some e => { s with finished := true }.answerError e

/-- Pulls bytes until they complete an item or run out. -/
def advance (s : Decoding σ) : Option Item × Decoding σ :=
  match _h : s.bytes.next with
  | (none, bytes) => { s with bytes }.finish
  | (some b, bytes) =>
    match s.decoder.offer b with
    | (none, decoder) => { s with bytes, decoder }.advance
    | (some (.ok c), decoder) => (some (.ok c), { s with bytes, decoder })
    | (some (.error e), decoder) => { s with bytes, decoder }.answerError e
termination_by s.bytes.left
decreasing_by exact Latch.left_lt _h

/-- The next item. -/
def next (s : Decoding σ) : Option Item × Decoding σ :=
  if s.finished then (none, s) else s.advance

/-- At most one item for each byte, and one for the end of the input. -/
def left (s : Decoding σ) : Nat := if s.finished then 0 else s.bytes.left + 1

theorem left_finish (s : Decoding σ) : s.finish.2.left = 0 := by
  unfold finish
  split <;> simp [left, answerError]

theorem left_answerError_le (s : Decoding σ) (e : DecodeError) :
    (s.answerError e).2.left ≤ s.left := by
  by_cases hf : s.finished <;> by_cases hp : s.policy = .strict <;> simp [left, answerError, hf, hp]

theorem left_advance_lt (s : Decoding σ) : s.advance.2.left < s.bytes.left + 1 := by
  fun_induction advance s with
  | case1 s bytes h => simp [left_finish]
  | case2 s b bytes h decoder hd ih =>
    have := Latch.left_lt h
    simp only at ih
    omega
  | case3 s b bytes h c decoder hd =>
    have := Latch.left_lt h
    simp only [left]
    split <;> omega
  | case4 s b bytes h e decoder hd =>
    have hb := Latch.left_lt h
    have hd := left_answerError_le { s with bytes, decoder } e
    refine Nat.lt_of_le_of_lt hd ?_
    simp only [left]
    split <;> omega

theorem finished_of_advance_none {s t : Decoding σ} (h : s.advance = (none, t)) :
    t.finished = true := by
  fun_induction advance s with
  | case1 s bytes hb =>
    unfold finish at h
    split at h <;> cases h
    rfl
  | case2 s b bytes hb decoder hd ih => exact ih h
  | case3 s b bytes hb c decoder hd => cases h
  | case4 s b bytes hb e decoder hd => cases h

theorem finished_of_next_none {s t : Decoding σ} (h : s.next = (none, t)) : t.finished = true := by
  unfold next at h
  split at h
  · rename_i hs
    cases h
    exact hs
  · exact finished_of_advance_none h

instance : FinitePull (Decoding σ) Item where
  pull := next
  fused := true
  none_of_fused _ s t h := by rw [next, if_pos (finished_of_next_none h)]
  left := left
  left_lt {s t a} h := by
    unfold next at h
    split at h
    · simp at h
    · rename_i hs
      have := left_advance_lt s
      rw [h] at this
      simpa [left, hs] using this

theorem pull_eq (s : Decoding σ) : Pull.pull s = s.next := rfl

instance [HasHint σ] : HasHint (Decoding σ) where
  hint s := if s.finished then .exactly 0 else ((hint s.bytes).plus 1).lossy

end Decoding

/-! ## Plain characters -/

/-- The characters of a decoding, ending at the first item that is an error. A strict or lenient
decoding answers no request after that, so its characters need no latch, nor does one change them
(`Characters.pull_of_none`). -/
structure Characters (σ : Type u) where
  decoding : Decoding σ
deriving DecidableEq, Repr

namespace Characters

variable {σ : Type u} [FinitePull σ UInt8]

/-- The characters up to the first error. -/
def strict (bytes : σ) : Characters σ := ⟨.start .strict bytes⟩

/-- The characters, with U+FFFD for each error. -/
def lenient (bytes : σ) : Characters σ := ⟨.start .lenient bytes⟩

/-- The next character. -/
def next (s : Characters σ) : Option Char × Characters σ :=
  match s.decoding.next with
  | (none, decoding) => (none, ⟨decoding⟩)
  | (some (.ok c), decoding) => (some c, ⟨decoding⟩)
  | (some (.error _), decoding) => (none, ⟨decoding⟩)

instance : FinitePull (Characters σ) Char where
  pull := next
  left s := s.decoding.left
  left_lt {s t a} h := by
    unfold next at h
    split at h
    · simp at h
    · rename_i hs
      simp only [Prod.mk.injEq] at h
      rw [← h.2]
      exact FinitePull.left_lt (σ := Decoding σ) hs
    · simp at h

theorem pull_eq (s : Characters σ) : Pull.pull s = s.next := rfl

instance [HasHint σ] : HasHint (Characters σ) where
  hint s := hint s.decoding

end Characters

end Streaming.Utf8
