import Streaming.Hint
import Streaming.Inspect
import Streaming.Pull

/-!
# Supplies

A supply is an input laid out beforehand: the answers it will give, request by request. It counts
the elements it has given and the requests it has had, so that the laziness of a reader can be
read off the supply it leaves behind.
-/

namespace Streaming

universe u

/-- The answers still to be given to requests for elements. -/
structure Supply (α : Type u) where
  /-- The answers to come; after the last of them every answer is empty. -/
  answers : List (Option α)
  /-- How many elements have been given. -/
  given : Nat := 0
  /-- How many requests have been answered. -/
  asked : Nat := 0
  /-- The hint to claim in every state, in place of the exact count. -/
  claim : Option Hint := none
deriving DecidableEq, Repr

namespace Supply

variable {α : Type u}

/-- A supply of the elements of a list, with no empty answer between them. -/
def ofList (xs : List α) : Supply α where
  answers := xs.map some

/-- Answers with `xs` after `n` elements were given, pausing once for every listed gap when as many
elements as it says have been given. -/
def withGaps : (n : Nat) → (gaps : List Nat) → (xs : List α) → List (Option α)
  | n, gaps, xs =>
    let pauses := (gaps.takeWhile (· == n)).map fun _ => none
    match xs with
    | [] => pauses
    | x :: rest => pauses ++ some x :: withGaps (n + 1) (gaps.dropWhile (· == n)) rest
termination_by structural _ _ xs => xs

/-- A supply that pauses at the gaps. -/
def ofGaps (gaps : List Nat) (xs : List α) : Supply α where
  answers := withGaps 0 gaps xs

/-- The elements still to be given. -/
def rest (s : Supply α) : List α := s.answers.filterMap id

/-- Answers one request. -/
def next (s : Supply α) : Option α × Supply α :=
  match s.answers with
  | [] => (none, { s with asked := s.asked + 1 })
  | none :: answers => (none, { s with answers, asked := s.asked + 1 })
  | some a :: answers =>
    (some a, { s with answers, given := s.given + 1, asked := s.asked + 1 })

instance : FinitePull (Supply α) α where
  pull := next
  left s := s.answers.length
  left_lt {s t a} h := by
    unfold next at h
    split at h
    · simp at h
    · simp at h
    · rename_i b answers hs
      simp only [Prod.mk.injEq] at h
      simp only [← h.2, hs, List.length_cons]
      omega

theorem pull_eq (s : Supply α) : Pull.pull s = s.next := rfl

theorem pull_of_nil {s : Supply α} (h : s.answers = []) :
    Pull.pull s = (none, { s with asked := s.asked + 1 }) := by
  rw [pull_eq, next, h]

theorem pull_of_cons {s : Supply α} {a : α} {answers : List (Option α)}
    (h : s.answers = some a :: answers) :
    Pull.pull s = (some a, { s with answers, given := s.given + 1, asked := s.asked + 1 }) := by
  rw [pull_eq, next, h]

/-- A supply without pauses gives its elements. -/
theorem elements_of_answers {s : Supply α} {xs : List α} (h : s.answers = xs.map some) :
    Pull.elements s = xs := by
  induction xs generalizing s with
  | nil => exact Pull.elements_of_none (pull_of_nil h)
  | cons x xs ih => rw [Pull.elements_of_some (pull_of_cons h), ih rfl]

@[simp] theorem elements_ofList (xs : List α) : Pull.elements (ofList xs) = xs :=
  elements_of_answers rfl

instance : HasHint (Supply α) where
  hint s := s.claim.getD (.exactly s.rest.length)

instance : Inspect (Supply α) where
  inspect s := s!"Items({s.given})"

end Supply

end Streaming
