import Streaming.Latch
import Streaming.Parser

/-!
# Sources

A source is an input with room for elements that were read ahead or handed back: they are pending,
and come before the rest of the input. While a parser runs, the source also remembers the elements
offered last, as many as can be handed back at once. The offset counts the elements consumed; it
falls when elements are handed back.

Looking ahead moves an element from the input to the pending ones and leaves the offset alone, so
it changes nothing that later operations answer.
-/

namespace Streaming

universe u v w

/-- A note on a parser's run. -/
inductive Notice where
  /-- A parser had no result. -/
  | failed (offset : Nat) (error : ParseError)
  /-- A repeated parser consumed nothing. -/
  | noProgress (offset : Nat)
deriving DecidableEq, Repr

/-- What the note says. -/
def Notice.message : Notice → String
  | .failed .. => "parser failed"
  | .noProgress _ => "parser made no progress, ending repetition"

/-- An input from which elements are consumed, and to which the last of them can be handed back. -/
structure Source (σ : Type u) (α : Type v) where
  input : Latch σ
  /-- The elements to be read before the rest of the input. -/
  pending : List α := []
  /-- The elements offered last to the parser that is running, the oldest first. -/
  recent : List α := []
  /-- How many elements were consumed before the remembered ones. -/
  passed : Nat := 0
  /-- The notes so far, in order. -/
  notices : List Notice := []
deriving DecidableEq, Repr

namespace Source

variable {σ : Type u} {α : Type v}

/-- A source of everything that the input holds. -/
def ofInput (input : σ) : Source σ α where
  input := ⟨input, false⟩

/-- How many elements have been consumed and not been handed back. -/
def offset (s : Source σ α) : Nat := s.passed + s.recent.length

/-- Adds a note. -/
def note (s : Source σ α) (n : Notice) : Source σ α := { s with notices := s.notices ++ [n] }

/-- Forgets the elements that could have been handed back. -/
def settle (s : Source σ α) : Source σ α :=
  { s with recent := [], passed := s.passed + s.recent.length }

/-- Consumes an element for good: it cannot be handed back. -/
def pass (s : Source σ α) : Source σ α := { s with passed := s.passed + 1 }

/-- Consumes an element and remembers it, in place of the oldest one when there are enough. -/
def retain (s : Source σ α) (a : α) : Source σ α :=
  if s.recent.length < backtrackLimit then { s with recent := s.recent ++ [a] }
  else { s with recent := s.recent.tail ++ [a], passed := s.passed + 1 }

/-- Hands back the last `n` elements, if so many are remembered. -/
def handBack (s : Source σ α) (n : Nat) : Except Fault (Source σ α) :=
  if n ≤ s.recent.length then
    let kept := s.recent.length - n
    .ok { s with
      recent := s.recent.take kept
      pending := s.recent.drop kept ++ s.pending }
  else .error (.tooFarBack n s.recent.length)

theorem handBack_eq_ok {s t : Source σ α} {n : Nat} (h : s.handBack n = .ok t) :
    n ≤ s.recent.length ∧
      t = { s with
        recent := s.recent.take (s.recent.length - n)
        pending := s.recent.drop (s.recent.length - n) ++ s.pending } := by
  unfold handBack at h
  split at h
  · rename_i hn
    exact ⟨hn, (Except.ok.inj h).symm⟩
  · cases h

theorem handBack_eq_error {s : Source σ α} {n : Nat} {f : Fault} (h : s.handBack n = .error f) :
    s.recent.length < n ∧ f = .tooFarBack n s.recent.length := by
  unfold handBack at h
  split at h
  · cases h
  · rename_i hn
    exact ⟨Nat.not_le.mp hn, (Except.error.inj h).symm⟩

section Requests

variable [Pull σ α]

/-- Takes the next element out without counting it. -/
def fetch (s : Source σ α) : Option α × Source σ α :=
  match s.pending with
  | a :: pending => (some a, { s with pending })
  | [] =>
    let answer := s.input.next
    (answer.1, { s with input := answer.2 })

/-- Consumes the next element. -/
def next (s : Source σ α) : Option α × Source σ α :=
  match s.fetch with
  | (none, s) => (none, s)
  | (some a, s) => (some a, s.pass)

/-- Looks at the next element without consuming it. -/
def peek (s : Source σ α) : Option α × Source σ α :=
  match s.fetch with
  | (none, s) => (none, s)
  | (some a, s) => (some a, { s with pending := a :: s.pending })

/-- Whether no element is left. -/
def atEnd (s : Source σ α) : Bool × Source σ α :=
  let answer := s.peek
  (answer.1.isNone, answer.2)

/-- Consumes the next element if it satisfies `p`, and tells whether it does. -/
def passIf (p : α → Bool) (s : Source σ α) : Bool × Source σ α :=
  match s.fetch with
  | (none, t) => (false, t)
  | (some a, t) => if p a then (true, t.pass) else (false, { t with pending := a :: t.pending })

/-- Drops the elements in front that satisfy `p`, and counts them. If all elements of an endless
input satisfy it, this goes on for ever. -/
def skip (p : α → Bool) (s : Source σ α) : Option (Nat × Source σ α) :=
  match s.passIf p with
  | (false, t) => some (0, t)
  | (true, t) => do
    let dropped ← t |>.skip p
    some (dropped.1 + 1, dropped.2)
partial_fixpoint

/-- The source after a request that came when it was exhausted. -/
def past (s : Source σ α) : Source σ α := { s with input := s.input.past }

theorem fetch_of_fetch_none {s t : Source σ α} (h : s.fetch = (none, t)) :
    t.fetch = (none, t.past) := by
  unfold fetch at h
  split at h
  · cases h
  · rename_i hp
    simp only [Prod.mk.injEq] at h
    have hended := Latch.ended_of_next_none (Prod.ext h.1 rfl : s.input.next = (none, _))
    rw [← h.2]
    simp only [fetch, hp, Latch.next_of_ended hended]
    rfl

theorem atEnd_of_atEnd {s t : Source σ α} (h : s.atEnd = (true, t)) :
    t.atEnd = (true, t.past) := by
  unfold atEnd peek at h
  split at h
  · rename_i r hf
    cases h
    simp only [atEnd, peek, fetch_of_fetch_none hf]
    rfl
  · cases h

instance : Pull (Source σ α) α where
  pull := next
  fused := true
  none_of_fused _ s t h := by
    unfold next at h
    split at h <;> cases h
    rename_i hf
    rw [next, fetch_of_fetch_none hf]

end Requests

section Finite

variable [FinitePull σ α]

/-- A bound on the number of elements to come. -/
def left (s : Source σ α) : Nat := s.pending.length + s.input.left

theorem left_pass (s : Source σ α) : s.pass.left = s.left := rfl

theorem left_fetch_lt {s t : Source σ α} {a : α} (h : s.fetch = (some a, t)) :
    t.left < s.left := by
  unfold fetch at h
  split at h
  · rename_i b pending hp
    simp only [Prod.mk.injEq] at h
    simp [← h.2, left, hp]
  · rename_i hp
    simp only [Prod.mk.injEq] at h
    have := Latch.left_lt (Prod.ext h.1 rfl : s.input.next = (some a, s.input.next.2))
    simpa [← h.2, left, hp] using this

theorem left_fetch_of_none {s t : Source σ α} (h : s.fetch = (none, t)) : t.left = 0 := by
  unfold fetch at h
  split at h
  · simp at h
  · rename_i hp
    simp only [Prod.mk.injEq] at h
    have := Latch.left_of_none (Prod.ext h.1 rfl : s.input.next = (none, s.input.next.2))
    simp [← h.2, left, hp, this]

theorem left_next_lt {s t : Source σ α} {a : α} (h : s.next = (some a, t)) : t.left < s.left := by
  unfold next at h
  split at h
  · simp at h
  · rename_i b r hf
    simp only [Prod.mk.injEq] at h
    rw [← h.2, left_pass]
    exact left_fetch_lt hf

theorem left_peek_le (s : Source σ α) : s.peek.2.left ≤ s.left := by
  unfold peek
  split
  · rename_i t hf
    simp [left_fetch_of_none hf]
  · rename_i a t hf
    have := left_fetch_lt hf
    simp only [left, List.length_cons] at this ⊢
    omega

instance : FinitePull (Source σ α) α where
  left := left
  left_lt := left_next_lt

/-- Drops the elements in front that satisfy `p`, and counts them. -/
def dropWhile (p : α → Bool) (s : Source σ α) : Nat × Source σ α :=
  match _h : s.fetch with
  | (none, t) => (0, t)
  | (some a, t) =>
    if p a then
      let dropped := t.pass.dropWhile p
      (dropped.1 + 1, dropped.2)
    else (0, { t with pending := a :: t.pending })
termination_by s.left
decreasing_by rw [left_pass]; exact left_fetch_lt _h

/-- Drops the elements in front as long as a predicate holds that may remember what it was asked
before, and counts them. -/
def dropWith {ρ : Type w} (q : ρ → α → Bool × ρ) (memory : ρ) (s : Source σ α) : Nat × Source σ α :=
  match _h : s.fetch with
  | (none, t) => (0, t)
  | (some a, t) =>
    let verdict := q memory a
    if verdict.1 then
      let dropped := t.pass.dropWith q verdict.2
      (dropped.1 + 1, dropped.2)
    else (0, { t with pending := a :: t.pending })
termination_by s.left
decreasing_by rw [left_pass]; exact left_fetch_lt _h

theorem dropWhile_of_fetch_none {s t : Source σ α} (h : s.fetch = (none, t)) (p : α → Bool) :
    s.dropWhile p = (0, t) := by
  rw [dropWhile]
  split <;> rename_i heq <;> rw [h] at heq <;> cases heq
  rfl

theorem dropWhile_of_fetch_some {s t : Source σ α} {a : α} (h : s.fetch = (some a, t))
    (p : α → Bool) :
    s.dropWhile p =
      if p a then ((t.pass.dropWhile p).1 + 1, (t.pass.dropWhile p).2)
      else (0, { t with pending := a :: t.pending }) := by
  rw [dropWhile]
  split <;> rename_i heq <;> rw [h] at heq <;> cases heq
  rfl

/-- Over a finite input, dropping comes to an end. -/
theorem skip_eq_dropWhile (p : α → Bool) (s : Source σ α) :
    s.skip p = some (s.dropWhile p) := by
  fun_induction dropWhile p s with
  | case1 s t h =>
    rw [skip]
    simp [passIf, h]
  | case2 s a t h hp dropped ih =>
    rw [skip]
    simp [passIf, h, hp, ih, dropped]
  | case3 s a t h hp =>
    rw [skip]
    simp [passIf, h, hp]

theorem left_dropWhile_le (p : α → Bool) (s : Source σ α) : (s.dropWhile p).2.left ≤ s.left := by
  fun_induction dropWhile p s with
  | case1 s t h => simp [left_fetch_of_none h]
  | case2 s a t h hp dropped ih =>
    have h1 := left_fetch_lt h
    have h2 := left_pass t
    simp only [dropped] at *
    omega
  | case3 s a t h hp =>
    have h1 := left_fetch_lt h
    simp only [left, List.length_cons] at h1 ⊢
    omega

/-- A source that is not exhausted has its next element pending. -/
theorem fetch_of_not_atEnd {s t : Source σ α} (h : s.atEnd = (false, t)) :
    ∃ a r, t.fetch = (some a, r) ∧ t.left ≤ s.left := by
  have hle := left_peek_le s
  simp only [atEnd, Prod.mk.injEq] at h
  rw [h.2] at hle
  unfold peek at h
  split at h
  · simp at h
  · rename_i a r hf
    rw [← h.2] at hle ⊢
    exact ⟨a, _, rfl, hle⟩

end Finite

instance [Pull σ α] [HasHint σ] : HasHint (Source σ α) where
  hint s := (hint s.input).plus s.pending.length

instance [Pull σ α] [Inspect σ] [Inspect α] : Inspect (Source σ α) where
  inspect s := Inspect.record "Source"
    [("iter", inspect s.input), ("pending", inspect s.pending), ("history", inspect s.recent),
      ("offset", inspect s.offset)]

end Source

end Streaming
