import Streaming.Fold
import Streaming.Step

/-!
# Parsers

A parser is offered elements one at a time and answers each with a step; what it has seen is in its
state, and its answer is taken from the last state. Each of the three functions that make a parser
may be broken off by a fault. A parser does not read: it may be driven by hand or by a source.
-/

namespace Streaming

universe u v w

/-- Why a parser has no result. -/
inductive ParseError where
  /-- Exactly so many elements were wanted. -/
  | expectedExactly (expected actual : Nat)
  /-- At least so many elements were wanted. -/
  | expectedAtLeast (expected actual : Nat)
  /-- A reason in the parser's own words. -/
  | custom (reason : String)
deriving DecidableEq, Repr

namespace ParseError

/-- The error in words. -/
def message : ParseError → String
  | .expectedExactly expected actual =>
    "take_eq: Expecting exactly " ++ inspect expected ++ " elements, got " ++ inspect actual
  | .expectedAtLeast expected actual =>
    "take_ge: Expecting at least " ++ inspect expected ++ " elements, got " ++ inspect actual
  | .custom reason => reason

/-- The fields of an error about a count. -/
def counts (expected actual : Nat) : List (String × String) :=
  [("expected", inspect expected), ("actual", inspect actual)]

instance : Inspect ParseError where
  inspect
    | .expectedExactly expected actual =>
      Inspect.record "ExpectedExactly" (counts expected actual)
    | .expectedAtLeast expected actual =>
      Inspect.record "ExpectedAtLeast" (counts expected actual)
    | .custom reason => Inspect.call "Custom" [inspect reason]

end ParseError

/-- A parser of elements `α` with states `σ` and results `β`. -/
structure Parser (α : Type u) (σ : Type v) (β : Type w) where
  /-- The state before any element. -/
  start : Except Fault σ
  /-- The answer to one element. -/
  step : σ → α → Except Fault (Step σ)
  /-- The result that a state stands for. -/
  finish : σ → Except Fault (Except ParseError β)
  /-- The text that shows the parser. -/
  label : String := Inspect.closedRecord "ParserFn"

namespace Parser

variable {α : Type u} {σ : Type v} {β : Type w}

/-- Offers each element once, until the parser stops: the steps it answers with and its last state.
What it hands back is not offered again. -/
def offerOnce (p : Parser α σ β) : σ → List α → Except Fault (List (Step σ) × σ)
  | s, [] => .ok ([], s)
  | s, a :: as =>
    match p.step s a with
    | .error e => .error e
    | .ok step =>
      if step.isStop then .ok ([step], step.state)
      else (p.offerOnce step.state as).map fun r => (step :: r.1, r.2)

/-- Offers each element once from the first state. -/
def offers (p : Parser α σ β) (as : List α) : Except Fault (List (Step σ) × σ) :=
  p.start.bind fun s => p.offerOnce s as

end Parser

end Streaming
