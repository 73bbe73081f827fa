import Streaming.Double
import Streaming.Fault

/-!
# Folds

A fold consumes elements one at a time into a state and makes an output of the last state. A step
may be broken off by a fault; a fold without such steps is total.
-/

namespace Streaming

universe u v w

/-- A way to consume elements of type `α` into an output of type `β`. -/
structure Fold (α : Type u) (σ : Type v) (β : Type w) where
  /-- The state before any element. -/
  start : σ
  /-- The state after one more element. -/
  step : σ → α → Except Fault σ
  /-- The output that a state stands for. -/
  finish : σ → β
  /-- The text that shows the fold. -/
  label : String := Inspect.closedRecord "FoldFn"

/-- Types whose values can be summed. -/
class Summable (α : Type u) where
  /-- The sum of nothing. -/
  zero : α
  /-- The sum of two values. -/
  add : α → α → Except Fault α

/-- The integer as a word, if it is in the given range. -/
def Summable.inRange {α : Type u} (low high : Int) (ofInt : Int → α) (n : Int) : Except Fault α :=
  if low ≤ n ∧ n ≤ high then .ok (ofInt n) else .error .additionOverflow

instance : Summable Int64 where
  zero := 0
  add a b :=
    Summable.inRange Int64.minValue.toInt Int64.maxValue.toInt Int64.ofInt (a.toInt + b.toInt)

instance : Summable UInt8 where
  zero := 0
  add a b := Summable.inRange 0 255 (fun n => UInt8.ofNat n.toNat) ((a.toNat : Int) + b.toNat)

instance : Summable Double where
  zero := ⟨0⟩
  add a b := .ok (a + b)

namespace Fold

variable {α : Type u} {σ : Type v} {β : Type w}

/-- A fold is total if no step of it is broken off. -/
def Total (f : Fold α σ β) : Prop := ∀ s a, ∃ t, f.step s a = .ok t

/-- The state after a list of elements. -/
def stepAll (f : Fold α σ β) : σ → List α → Except Fault σ
  | s, [] => .ok s
  | s, a :: as =>
    match f.step s a with
    | .ok t => f.stepAll t as
    | .error e => .error e

/-- The output for a list of elements. -/
def run (f : Fold α σ β) (as : List α) : Except Fault β := (f.stepAll f.start as).map f.finish

/-- The state before any element and the states after each of them. -/
def states (f : Fold α σ β) : σ → List α → Except Fault (List σ)
  | s, [] => .ok [s]
  | s, a :: as =>
    match f.step s a with
    | .ok t => (f.states t as).map (s :: ·)
    | .error e => .error e

/-- The fold with the given state, steps and output. -/
def ofFn (start : σ) (step : σ → α → σ) (finish : σ → β) : Fold α σ β where
  start
  step s a := .ok (step s a)
  finish

/-- The elements in order. -/
def toList : Fold α (List α) (List α) :=
  { ofFn [] (fun s a => s ++ [a]) id with label := "ToVec" }

/-- The characters in order, as a string. -/
def toText : Fold Char String String :=
  { ofFn "" String.push id with label := "ToString" }

/-- The number of elements. -/
def length : Fold α Nat Nat :=
  { ofFn 0 (fun s _ => s + 1) id with label := "Length" }

/-- The sum of the elements. -/
def sum [Summable α] : Fold α α α where
  start := Summable.zero
  step := Summable.add
  finish := id
  label := "Sum"

/-- Nothing is kept. -/
def drain : Fold α Unit Unit :=
  { ofFn () (fun _ _ => ()) id with label := "Drain" }

theorem ofFn_total (start : σ) (step : σ → α → σ) (finish : σ → β) :
    (ofFn start step finish).Total := fun s a => ⟨step s a, rfl⟩

end Fold

end Streaming
