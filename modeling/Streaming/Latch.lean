import Streaming.Hint
import Streaming.Inspect
import Streaming.Pull

/-!
# Latches

A latch makes the first empty answer of its input final. An input that might answer with elements
again is not asked any more; one that is fused is asked all the same, so that in front of it the
latch changes nothing (`answers_of_fused`).
-/

namespace Streaming

universe u v

/-- An input of which the first empty answer is final. -/
structure Latch (σ : Type u) where
  inner : σ
  /-- Whether the empty answer has been seen. -/
  ended : Bool := false
deriving DecidableEq, Repr

namespace Latch

variable {σ : Type u} {α : Type v}

section Requests

variable [Pull σ α]

/-- The latch after a request that came when it had ended. -/
def past (l : Latch σ) : Latch σ :=
  if Pull.fused σ then { l with inner := (Pull.pull l.inner).2 } else l

/-- Answers one request. -/
def next (l : Latch σ) : Option α × Latch σ :=
  if l.ended then (none, l.past)
  else
    match Pull.pull l.inner with
    | (none, inner) => (none, ⟨inner, true⟩)
    | (some a, inner) => (some a, ⟨inner, false⟩)

theorem ended_past (l : Latch σ) : l.past.ended = l.ended := by
  unfold past
  split <;> rfl

theorem past_of_not_fused (hf : Pull.fused σ = false) (l : Latch σ) : l.past = l := by
  rw [past, hf]
  rfl

theorem next_of_ended {l : Latch σ} (h : l.ended = true) : l.next = (none, l.past) := by
  rw [next, if_pos h]

theorem ended_of_next_none {l m : Latch σ} (h : l.next = (none, m)) : m.ended = true := by
  unfold next at h
  split at h
  · rename_i hl
    cases h
    rw [ended_past, hl]
  · split at h <;> cases h
    rfl

instance : Pull (Latch σ) α where
  pull := next
  fused := true
  none_of_fused _ _ _ h := by rw [next_of_ended (ended_of_next_none h)]

theorem pull_eq (l : Latch σ) : Pull.pull l = l.next := rfl

/-- While its input keeps to an empty answer, the latch answers as its input does. -/
theorem next_of_fused (hf : Pull.fused σ = true) {l : Latch σ}
    (h : l.ended = true → (Pull.pull l.inner).1 = none) :
    l.next.1 = (Pull.pull l.inner).1 ∧ l.next.2.inner = (Pull.pull l.inner).2 ∧
      (l.next.2.ended = true → (Pull.pull l.next.2.inner).1 = none) := by
  obtain ⟨input, ended⟩ := l
  cases hp : Pull.pull input with
  | mk answer rest =>
    cases ended with
    | true =>
      obtain rfl : answer = none := (congrArg Prod.fst hp).symm.trans (h rfl)
      have hnext : next ⟨input, true⟩ = (none, ⟨rest, true⟩) := by simp [next, past, hf, hp]
      rw [hnext]
      exact ⟨rfl, rfl, fun _ => Pull.none_of_fused hf hp⟩
    | false =>
      cases answer with
      | none =>
        have hnext : next ⟨input, false⟩ = (none, ⟨rest, true⟩) := by simp [next, hp]
        rw [hnext]
        exact ⟨rfl, rfl, fun _ => Pull.none_of_fused hf hp⟩
      | some a =>
        have hnext : next ⟨input, false⟩ = (some a, ⟨rest, false⟩) := by simp [next, hp]
        rw [hnext]
        exact ⟨rfl, rfl, fun hend => absurd hend (by simp)⟩

/-- In front of an input that is fused, a latch changes nothing. -/
theorem answers_of_fused (hf : Pull.fused σ = true) (input : σ) (n : Nat) :
    (Pull.answers n (⟨input, false⟩ : Latch σ)).1 = (Pull.answers n input).1 ∧
      (Pull.answers n (⟨input, false⟩ : Latch σ)).2.inner = (Pull.answers n input).2 := by
  have hrun : ∀ (n : Nat) (l : Latch σ), (l.ended = true → (Pull.pull l.inner).1 = none) →
      (Pull.answers n l).1 = (Pull.answers n l.inner).1 ∧
        (Pull.answers n l).2.inner = (Pull.answers n l.inner).2 := by
    intro n
    induction n with
    | zero => exact fun l _ => ⟨rfl, rfl⟩
    | succ n ih =>
      intro l hl
      obtain ⟨hfst, hinner, hkeeps⟩ := next_of_fused hf hl
      obtain ⟨hrest, hlast⟩ := ih l.next.2 hkeeps
      rw [hinner] at hrest hlast
      simp only [Pull.answers, pull_eq]
      exact ⟨by rw [hfst, hrest], hlast⟩
  exact hrun n ⟨input, false⟩ nofun

instance [HasHint σ] : HasHint (Latch σ) where
  hint l := if l.ended && !Pull.fused σ then .exactly 0 else hint l.inner

instance [Inspect σ] : Inspect (Latch σ) where
  inspect l := Inspect.record "Fuse"
    [("iter", inspect (if l.ended && !Pull.fused σ then none else some l.inner))]

end Requests

variable [FinitePull σ α]

/-- A bound on the elements to come, which is nothing after the end. -/
def left (l : Latch σ) : Nat := if l.ended then 0 else FinitePull.left l.inner

theorem left_lt {l m : Latch σ} {a : α} (h : l.next = (some a, m)) : m.left < l.left := by
  unfold next at h
  split at h
  · simp at h
  · rename_i hl
    split at h
    · simp at h
    · rename_i b inner hp
      simp only [Prod.mk.injEq] at h
      rw [← h.2]
      simpa [left, hl] using FinitePull.left_lt hp

theorem left_of_none {l m : Latch σ} (h : l.next = (none, m)) : m.left = 0 := by
  rw [left, if_pos (ended_of_next_none h)]

instance : FinitePull (Latch σ) α where
  left := left
  left_lt := left_lt

end Latch

end Streaming
