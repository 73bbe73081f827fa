import Streaming.Repetition

/-!
# Sessions

A session performs operations on a source one after the other. Each operation answers and leaves
the source for the next one, unless a fault breaks it off or a parser's run goes on for ever; this
and the offsets and notes in between are what can be seen of it (`session`). The sources that
sessions lead to are the reachable ones.
-/

namespace Streaming

universe u v w

/-- An operation on a source. -/
inductive Operation (α : Type v) : Type (max v (w + 1)) where
  /-- Consumes an element. -/
  | next
  /-- Looks at the next element. -/
  | peek
  /-- Asks whether no element is left. -/
  | atEnd
  /-- Drops the elements in front that satisfy a predicate. -/
  | dropWhile (q : α → Bool)
  /-- Runs a parser. -/
  | parse {τ β : Type w} (p : Parser α τ β)
  /-- Asks for some answers of a repeated parser. -/
  | repeated {τ β : Type w} (p : Parser α τ β) (requests : Nat)

/-- What an operation answers. -/
inductive Answer (α : Type v) : Type (max v (w + 1)) where
  | element (a : Option α)
  | flag (b : Bool)
  | count (n : Nat)
  | outcome {β : Type w} (r : Except ParseError β)
  | outcomes {β : Type w} (rs : List (Option (Except ParseError β)))

namespace Source

variable {σ : Type u} {α : Type v} [Pull σ α]

/-- Performs an operation. -/
def perform (s : Source σ α) :
    Operation.{v, w} α → Option (Except Fault (Answer.{v, w} α) × Source σ α)
  | .next => some (.ok (.element s.next.1), s.next.2)
  | .peek => some (.ok (.element s.peek.1), s.peek.2)
  | .atEnd => some (.ok (.flag s.atEnd.1), s.atEnd.2)
  | .dropWhile q => (s.skip q).map fun r => (.ok (.count r.1), r.2)
  | .parse p => (s.parse p).map fun r => (r.1.map .outcome, r.2)
  | .repeated p requests =>
    ((Repetition.start p s).answers requests).map fun r =>
      match r.2.fault with
      | none => (.ok (.outcomes r.1), r.2.source)
      | some f => (.error f, r.2.source)

/-- What can be seen of an operation: its answer, and the offset and the notes after it. -/
structure Seen (α : Type v) where
  answer : Except Fault (Answer.{v, w} α)
  offset : Nat
  notices : List Notice

/-- What can be seen of a session. It ends early after an operation that a fault breaks off, and
with one that goes on for ever, of which nothing is seen. -/
def session (s : Source σ α) : List (Operation.{v, w} α) → List (Option (Seen.{v, w} α))
  | [] => []
  | op :: ops =>
    match s.perform op with
    | none => [none]
    | some (.error f, t) => [some ⟨.error f, t.offset, t.notices⟩]
    | some (.ok a, t) => some ⟨.ok a, t.offset, t.notices⟩ :: t.session ops

/-- The sources that operations lead to, beginning with a source of everything the input holds.
None of the operations is broken off or goes on for ever. -/
inductive Reachable (input : σ) : Source σ α → Prop where
  | start : Reachable input (.ofInput input)
  | perform {s t : Source σ α} {op : Operation.{v, w} α} {a : Answer.{v, w} α} :
    Reachable input s → s.perform op = some (.ok a, t) → Reachable input t

end Source

end Streaming
