import Streaming.Pull
import Streaming.Text.Space

/-!
# Text without leading white space
-/

namespace Streaming.Text

universe u

/-- A stream of characters, without the white space in front of it. -/
structure Stripped (σ : Type u) where
  chars : σ
  /-- Whether a character that is no white space has been seen. -/
  begun : Bool := false
deriving DecidableEq, Repr

namespace Stripped

variable {σ : Type u} [FinitePull σ Char]

/-- The first character that is no white space. -/
def skip (chars : σ) : Option Char × Stripped σ :=
  match _h : Pull.pull chars with
  | (none, chars) => (none, ⟨chars, false⟩)
  | (some c, chars) => if isSpace c then skip chars else (some c, ⟨chars, true⟩)
termination_by FinitePull.left chars
decreasing_by exact FinitePull.left_lt _h

/-- The next character. -/
def next (s : Stripped σ) : Option Char × Stripped σ :=
  if s.begun then
    let answer := Pull.pull s.chars
    (answer.1, ⟨answer.2, true⟩)
  else skip s.chars

theorem left_skip_lt {chars : σ} {t : Stripped σ} {c : Char} (h : skip chars = (some c, t)) :
    FinitePull.left t.chars < FinitePull.left chars := by
  fun_induction skip chars with
  | case1 chars rest hp => simp at h
  | case2 chars b rest hp hs ih => exact Nat.lt_trans (ih h) (FinitePull.left_lt hp)
  | case3 chars b rest hp hs =>
    simp only [Prod.mk.injEq] at h
    rw [← h.2]
    exact FinitePull.left_lt hp

theorem next_of_skip_none (hf : Pull.fused σ = true) {chars : σ} {t : Stripped σ}
    (h : skip chars = (none, t)) : t.next.1 = none := by
  fun_induction skip chars with
  | case1 chars rest hp =>
    cases h
    rw [next, if_neg Bool.false_ne_true, skip]
    have hnone := Pull.none_of_fused hf hp
    split
    · rfl
    · rename_i hp'
      rw [hp'] at hnone
      cases hnone
  | case2 chars b rest hp hs ih => exact ih h
  | case3 chars b rest hp hs => cases h

instance : FinitePull (Stripped σ) Char where
  pull := next
  fused := Pull.fused σ
  none_of_fused hf s t h := by
    unfold next at h
    split at h
    · simp only [Prod.mk.injEq] at h
      rw [← h.2]
      exact Pull.none_of_fused hf (Prod.ext h.1 rfl)
    · exact next_of_skip_none hf h
  left s := FinitePull.left s.chars
  left_lt {s t c} h := by
    unfold next at h
    split at h
    · simp only [Prod.mk.injEq] at h
      rw [← h.2]
      exact FinitePull.left_lt (Prod.ext h.1 rfl)
    · exact left_skip_lt h

end Stripped

end Streaming.Text
