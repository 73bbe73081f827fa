import Streaming.Parser.Forward

/-!
# Repeating a parser

A repetition runs one parser again and again on a source and gives an answer for each run. It ends
when the source is exhausted, after the first error, and after a run that consumed nothing, since
every further run would do the same. A run without an outcome leaves the repetition without one;
runs of a forward parser always have an outcome (`Repetition.isSome_next`).
-/

namespace Streaming

universe u v w x

/-- A parser being repeated on a source. -/
structure Repetition (σ : Type u) (α : Type v) (τ : Type w) (β : Type x) where
  source : Source σ α
  parser : Parser α τ β
  /-- Whether no run will follow. -/
  done : Bool := false
  /-- The fault that broke a run off, if one did. -/
  fault : Option Fault := none

namespace Repetition

variable {σ : Type u} {α : Type v} {τ : Type w} {β : Type x}

/-- Starts repeating a parser on a source. -/
def start (parser : Parser α τ β) (source : Source σ α) : Repetition σ α τ β where
  source
  parser

/-- The repetition after a run of its parser, and the answer that the run gave. -/
def keep (r : Repetition σ α τ β) :
    Except Fault (Except ParseError β) × Source σ α →
      Option (Except ParseError β) × Repetition σ α τ β
  | (.error f, source) => (none, { r with source, done := true, fault := some f })
  | (.ok (.error e), source) => (some (.error e), { r with source, done := true })
  | (.ok (.ok b), source) =>
    if source.offset = r.source.offset then
      (some (.ok b),
        { r with source := source.note (.noProgress r.source.offset), done := true })
    else (some (.ok b), { r with source })

section Requests

variable [Pull σ α]

/-- Runs the parser once more and keeps the outcome. -/
def again (r : Repetition σ α τ β) : Option (Option (Except ParseError β) × Repetition σ α τ β) :=
  (r.source.parse r.parser).map r.keep

/-- The answer of the next run, if there is one. -/
def next (r : Repetition σ α τ β) : Option (Option (Except ParseError β) × Repetition σ α τ β) :=
  if r.done then some (none, r)
  else
    match r.source.atEnd with
    | (true, source) => some (none, { r with source })
    | (false, source) => { r with source }.again

/-- The answers to exactly `n` requests, the empty ones included. -/
def answers : Nat → Repetition σ α τ β →
    Option (List (Option (Except ParseError β)) × Repetition σ α τ β)
  | 0, r => some ([], r)
  | n + 1, r =>
    r.next.bind fun first =>
      (answers n first.2).map fun rest => (first.1 :: rest.1, rest.2)

/-- The repetition after a request that came when it had ended. -/
def past (r : Repetition σ α τ β) : Repetition σ α τ β :=
  if r.done then r else { r with source := r.source.past }

theorem past_of_not_fused (hf : Pull.fused σ = false) (r : Repetition σ α τ β) : r.past = r := by
  unfold past Source.past
  split
  · rfl
  · rw [Latch.past_of_not_fused hf]

/-- An empty answer is the last word. -/
theorem next_of_next_none {r t : Repetition σ α τ β} (h : r.next = some (none, t)) :
    t.next = some (none, t.past) := by
  unfold next at h
  split at h
  · rename_i hd
    cases h
    rw [next, past, if_pos hd, if_pos hd]
  · rename_i hd
    split at h
    · rename_i source he
      cases h
      simp only [next, past, if_neg hd, Source.atEnd_of_atEnd he]
    · obtain ⟨⟨outcome, source⟩, -, hk⟩ := Option.map_eq_some_iff.mp h
      unfold keep at hk
      split at hk
      · cases hk
        rfl
      · cases hk
      · split at hk <;> cases hk

theorem parser_next {r : Repetition σ α τ β}
    {a : Option (Except ParseError β) × Repetition σ α τ β} (h : r.next = some a) :
    a.2.parser = r.parser := by
  unfold next at h
  split at h
  · cases h
    rfl
  · split at h
    · cases h
      rfl
    · obtain ⟨⟨outcome, source⟩, -, hk⟩ := Option.map_eq_some_iff.mp h
      unfold keep at hk
      split at hk
      · cases hk
        rfl
      · cases hk
        rfl
      · split at hk <;> cases hk <;> rfl

instance [Inspect σ] [Inspect α] : Inspect (Repetition σ α τ β) where
  inspect r := Inspect.record "ParseMany"
    [("source", inspect r.source), ("parser", r.parser.label), ("done", inspect r.done)]

end Requests

variable [FinitePull σ α]

/-- A bound on the number of answers to come. -/
def left (r : Repetition σ α τ β) : Nat := r.source.left + if r.done then 0 else 1

theorem left_again_lt {r t : Repetition σ α τ β} {a : Except ParseError β} (hd : r.done = false)
    (h : r.again = some (some a, t)) : t.left < r.left := by
  obtain ⟨⟨outcome, source⟩, hp, hk⟩ := Option.map_eq_some_iff.mp h
  have hle := Source.left_parse_le hp
  unfold keep at hk
  split at hk
  · simp at hk
  · rename_i heq
    cases heq
    cases hk
    simp only [left, hd]
    simp
    omega
  · rename_i b source' heq
    cases heq
    split at hk
    · cases hk
      simp only [left, hd, Source.left_note]
      simp
      omega
    · rename_i hne
      cases hk
      have hlt := Source.left_parse_lt hp hne
      simp only [left, hd]
      omega

theorem left_next_lt {r t : Repetition σ α τ β} {a : Except ParseError β}
    (h : r.next = some (some a, t)) : t.left < r.left := by
  unfold next at h
  split at h
  · simp at h
  · rename_i hd
    split at h
    · simp at h
    · rename_i source he
      have hle : source.left ≤ r.source.left := by
        have := Source.left_peek_le r.source
        simp only [Source.atEnd, Prod.mk.injEq] at he
        rwa [he.2] at this
      have := left_again_lt (by simpa using hd) h
      simp only [left] at this ⊢
      omega

/-- The answers up to the next empty one. -/
def collect (r : Repetition σ α τ β) :
    Option (List (Except ParseError β) × Repetition σ α τ β) :=
  match _h : r.next with
  | none => none
  | some (none, t) => some ([], t)
  | some (some a, t) => t.collect.map fun rest => (a :: rest.1, rest.2)
termination_by r.left
decreasing_by exact left_next_lt _h

/-- A repeated forward parser always has an answer, if only an empty one. -/
theorem isSome_next {r : Repetition σ α τ β} (hr : r.parser.Forward) : r.next.isSome := by
  unfold next
  split
  · rfl
  · split
    · rfl
    · simp [again, hr.isSome_parse]

/-- The answer of the next run of a forward parser, if there is one. -/
def nextForward (r : Repetition σ α τ β) (hr : r.parser.Forward) :
    Option (Except ParseError β) × Repetition σ α τ β :=
  r.next.get (isSome_next hr)

theorem next_eq_nextForward {r : Repetition σ α τ β} (hr : r.parser.Forward) :
    r.next = some (r.nextForward hr) :=
  (Option.some_get _).symm

theorem forward_nextForward {r : Repetition σ α τ β} (hr : r.parser.Forward) :
    (r.nextForward hr).2.parser.Forward := by
  rw [parser_next (next_eq_nextForward hr)]
  exact hr

instance : HasFault (Repetition σ α τ β) := ⟨Repetition.fault⟩

end Repetition

end Streaming
