/-!
# Pulling elements

A state is pulled for its next element: it answers with an element or with nothing, and moves on.
An empty answer need not be the last word, for a state may answer with an element again after it.
Only the states of a fused type promise that they never do (`Pull.none_of_fused`).

Answers with elements may go on for ever. The states of a finite type promise that they do not
(`FinitePull.left_lt`), so collecting up to the next empty answer terminates.
-/

namespace Streaming

universe u v

/-- States that answer requests for their next element. -/
class Pull (σ : Type u) (α : outParam (Type v)) where
  /-- Answers one request and moves on. -/
  pull : σ → Option α × σ
  /-- Whether every answer after an empty one is promised to be empty. -/
  fused : Bool := false
  /-- The promise. -/
  none_of_fused : fused = true → ∀ {s t : σ}, pull s = (none, t) → (pull t).1 = none := by nofun

/-- States that cannot answer with elements for ever. -/
class FinitePull (σ : Type u) (α : outParam (Type v)) extends Pull σ α where
  /-- A bound on the number of elements before the next empty answer. -/
  left : σ → Nat
  /-- An answered element lowers the bound. -/
  left_lt : ∀ {s t : σ} {a : α}, pull s = (some a, t) → left t < left s

namespace Pull

variable {σ : Type u} {α : Type v}

section Requests

variable [Pull σ α]

/-- At most `n` elements; nothing is asked for after the last of them. -/
def take : Nat → σ → List α × σ
  | 0, s => ([], s)
  | n + 1, s =>
    match pull s with
    | (none, t) => ([], t)
    | (some a, t) =>
      let rest := take n t
      (a :: rest.1, rest.2)

/-- The answers to exactly `n` requests, the empty ones included. -/
def answers : Nat → σ → List (Option α) × σ
  | 0, s => ([], s)
  | n + 1, s =>
    let first := pull s
    let rest := answers n first.2
    (first.1 :: rest.1, rest.2)

end Requests

variable [FinitePull σ α]

/-- The elements up to the next empty answer, and the state after that answer. -/
def collect (s : σ) : List α × σ :=
  match _h : pull s with
  | (none, t) => ([], t)
  | (some a, t) => (a :: (collect t).1, (collect t).2)
termination_by FinitePull.left s
decreasing_by all_goals exact FinitePull.left_lt _h

/-- The elements up to the next empty answer. -/
def elements (s : σ) : List α := (collect s).1

theorem collect_of_none {s t : σ} (h : pull s = (none, t)) : collect s = ([], t) := by
  rw [collect]
  split
  · simp_all
  · simp_all

theorem collect_of_some {s t : σ} {a : α} (h : pull s = (some a, t)) :
    collect s = (a :: (collect t).1, (collect t).2) := by
  rw [collect]
  split
  · simp_all
  · simp_all

theorem elements_of_none {s t : σ} (h : pull s = (none, t)) : elements s = [] := by
  simp [elements, collect_of_none h]

theorem elements_of_some {s t : σ} {a : α} (h : pull s = (some a, t)) :
    elements s = a :: elements t := by
  simp [elements, collect_of_some h]

end Pull

end Streaming
