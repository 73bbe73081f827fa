import Streaming.Source.Session

/-!
# Sources with a counter

The operations of a source once more, with the offset in a counter of its own: it is moved on with
each element that is consumed, and back again with each one that is handed back. Elements are handed
back one by one, and each time the counter has to be above zero; if it is not, a fault breaks the
operation off.
-/

namespace Streaming

universe u v w x

/-- A source that counts the elements consumed and not handed back. -/
structure Counted (σ : Type u) (α : Type v) where
  input : Latch σ
  /-- The elements to be read before the rest of the input. -/
  pending : List α := []
  /-- The elements offered last to the parser that is running, the oldest first. -/
  history : List α := []
  offset : Nat := 0
  /-- The notes so far, in order. -/
  notices : List Notice := []

namespace Counted

variable {σ : Type u} {α : Type v} {τ : Type w} {β : Type x}

/-- A source of everything that the input holds. -/
def ofInput (input : σ) : Counted σ α where
  input := ⟨input, false⟩

/-- Adds a note. -/
def note (c : Counted σ α) (n : Notice) : Counted σ α := { c with notices := c.notices ++ [n] }

/-- Forgets the elements that could have been handed back. -/
def clear (c : Counted σ α) : Counted σ α := { c with history := [] }

/-- Remembers an element, in place of the oldest one when there are enough. -/
def remember (c : Counted σ α) (a : α) : Counted σ α :=
  if c.history.length = backtrackLimit then { c with history := c.history.tail ++ [a] }
  else { c with history := c.history ++ [a] }

/-- Hands back the last element, if one is remembered. -/
def stepBack (c : Counted σ α) : Except Fault (Counted σ α) :=
  match c.history.getLast? with
  | none => .ok c
  | some a =>
    if c.offset = 0 then .error .subtractionOverflow
    else
      .ok { c with
        pending := a :: c.pending
        history := c.history.dropLast
        offset := c.offset - 1 }

/-- Hands back the last element, `n` times. -/
def stepsBack : Nat → Counted σ α → Except Fault (Counted σ α)
  | 0, c => .ok c
  | n + 1, c => c.stepBack.bind (stepsBack n)

/-- Hands back the last `n` elements, if so many are remembered. -/
def rewind (c : Counted σ α) (n : Nat) : Except Fault (Counted σ α) :=
  if n ≤ c.history.length then c.stepsBack n else .error (.tooFarBack n c.history.length)

section Requests

variable [Pull σ α]

/-- Consumes the next element. -/
def next (c : Counted σ α) : Option α × Counted σ α :=
  match c.pending with
  | a :: pending => (some a, { c with pending, offset := c.offset + 1 })
  | [] =>
    match c.input.next with
    | (none, input) => (none, { c with input })
    | (some a, input) => (some a, { c with input, offset := c.offset + 1 })

/-- Looks at the next element without consuming it. -/
def peek (c : Counted σ α) : Option α × Counted σ α :=
  match c.pending with
  | a :: _ => (some a, c)
  | [] =>
    match c.input.next with
    | (none, input) => (none, { c with input })
    | (some a, input) => (some a, { c with input, pending := [a] })

/-- Whether no element is left. -/
def atEnd (c : Counted σ α) : Bool × Counted σ α :=
  let answer := c.peek
  (answer.1.isNone, answer.2)

/-- Consumes the next element, after a look at it, if it satisfies `p`, and tells whether it
does. -/
def passIf (p : α → Bool) (c : Counted σ α) : Bool × Counted σ α :=
  match c.peek with
  | (none, c) => (false, c)
  | (some a, c) =>
    if p a then (true, { c with pending := c.pending.tail, offset := c.offset + 1 }) else (false, c)

/-- Drops the elements in front that satisfy `p`, and counts them. -/
def skip (p : α → Bool) (c : Counted σ α) : Option (Nat × Counted σ α) :=
  match c.passIf p with
  | (false, d) => some (0, d)
  | (true, d) => do
    let dropped ← d |>.skip p
    some (dropped.1 + 1, dropped.2)
partial_fixpoint

/-! ## Running a parser -/

/-- Offers the next element to a parser in the given state. -/
def turn (p : Parser α τ β) (state : τ) (c : Counted σ α) : Source.Turn (Counted σ α) τ :=
  match c.next with
  | (none, c) => .done state c
  | (some a, c) =>
    match p.step state a with
    | .error f => .broken f (c.remember a)
    | .ok step =>
      match (c.remember a).rewind step.back with
      | .error f => .broken f (c.remember a)
      | .ok d => if step.isStop then .done step.state d else .again step.state d

/-- Takes turns until the run is over. -/
def drive (p : Parser α τ β) (state : τ) (c : Counted σ α) :
    Option (Except Fault τ × Counted σ α) :=
  match c.turn p state with
  | .done state d => some (.ok state, d)
  | .broken f d => some (.error f, d)
  | .again state d => d |>.drive p state
partial_fixpoint

/-- Runs a parser from its first state. -/
def run (p : Parser α τ β) (c : Counted σ α) : Option (Except Fault τ × Counted σ α) :=
  match p.start with
  | .error f => some (.error f, c.clear)
  | .ok state => c.clear.drive p state

/-- The answer of a run that is over. -/
def conclude (p : Parser α τ β) :
    Except Fault τ × Counted σ α → Except Fault (Except ParseError β) × Counted σ α
  | (.error f, c) => (.error f, c)
  | (.ok state, c) =>
    match p.finish state with
    | .error f => (.error f, c.clear)
    | .ok (.ok b) => (.ok (.ok b), c.clear)
    | .ok (.error e) => (.ok (.error e), c.clear.note (.failed c.offset e))

/-- Runs a parser on the source. -/
def parse (p : Parser α τ β) (c : Counted σ α) :
    Option (Except Fault (Except ParseError β) × Counted σ α) :=
  (c.run p).map (conclude p)

end Requests

/-! ## Repeating a parser -/

/-- A parser being repeated on a source with a counter. -/
structure Repeated (σ : Type u) (α : Type v) (τ : Type w) (β : Type x) where
  source : Counted σ α
  parser : Parser α τ β
  done : Bool := false
  fault : Option Fault := none

namespace Repeated

/-- The repetition after a run of its parser, and the answer that the run gave. The counter tells
whether anything was consumed. -/
def keep (r : Repeated σ α τ β) :
    Except Fault (Except ParseError β) × Counted σ α →
      Option (Except ParseError β) × Repeated σ α τ β
  | (.error f, source) => (none, { r with source, done := true, fault := some f })
  | (.ok (.error e), source) => (some (.error e), { r with source, done := true })
  | (.ok (.ok b), source) =>
    if source.offset = r.source.offset then
      (some (.ok b),
        { r with source := source.note (.noProgress r.source.offset), done := true })
    else (some (.ok b), { r with source })

variable [Pull σ α]

/-- The answer of the next run, if there is one. -/
def next (r : Repeated σ α τ β) : Option (Option (Except ParseError β) × Repeated σ α τ β) :=
  if r.done then some (none, r)
  else
    match r.source.atEnd with
    | (true, source) => some (none, { r with source })
    | (false, source) => (source.parse r.parser).map { r with source }.keep

/-- The answers to exactly `n` requests, the empty ones included. -/
def answers : Nat → Repeated σ α τ β →
    Option (List (Option (Except ParseError β)) × Repeated σ α τ β)
  | 0, r => some ([], r)
  | n + 1, r =>
    r.next.bind fun first =>
      (answers n first.2).map fun rest => (first.1 :: rest.1, rest.2)

end Repeated

/-! ## Sessions -/

section Sessions

variable [Pull σ α]

/-- Performs an operation. -/
def perform (c : Counted σ α) :
    Operation.{v, w} α → Option (Except Fault (Answer.{v, w} α) × Counted σ α)
  | .next => some (.ok (.element c.next.1), c.next.2)
  | .peek => some (.ok (.element c.peek.1), c.peek.2)
  | .atEnd => some (.ok (.flag c.atEnd.1), c.atEnd.2)
  | .dropWhile q => (c.skip q).map fun r => (.ok (.count r.1), r.2)
  | .parse p => (c.parse p).map fun r => (r.1.map .outcome, r.2)
  | .repeated p requests =>
    (Repeated.answers requests { source := c, parser := p }).map fun r =>
      match r.2.fault with
      | none => (.ok (.outcomes r.1), r.2.source)
      | some f => (.error f, r.2.source)

/-- What can be seen of a session: of the offsets, what the counter says. -/
def session (c : Counted σ α) : List (Operation.{v, w} α) → List (Option (Source.Seen.{v, w} α))
  | [] => []
  | op :: ops =>
    match c.perform op with
    | none => [none]
    | some (.error f, d) => [some ⟨.error f, d.offset, d.notices⟩]
    | some (.ok a, d) => some ⟨.ok a, d.offset, d.notices⟩ :: d.session ops

end Sessions

end Counted

end Streaming
