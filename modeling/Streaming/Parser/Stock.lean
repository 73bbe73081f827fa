import Streaming.Parser

/-!
# Stock parsers

Parsers that test elements, count them, or cut the input at separators and pass what they keep to
a fold. They hand back at most the last element, and only when they stop, so that the element which
shows that a group is complete becomes the first of the next one.
-/

namespace Streaming

universe u v w x

/-- Where a word parser stands. -/
inductive WordPart where
  /-- Among the separators before the word. -/
  | before
  /-- Inside the word. -/
  | inside
  /-- Among the separators behind the word. -/
  | behind
deriving DecidableEq, Repr

namespace WordPart

/-- The name of the part. -/
def name : WordPart → String
  | .before => "Leading"
  | .inside => "Word"
  | .behind => "Trailing"

end WordPart

namespace Fold

variable {α : Type u} {σ : Type v} {β : Type w} {τ : Type x}

/-- Passes an element to the fold and answers with a step made of the fold's new state. -/
def thenStep (f : Fold α σ β) (s : σ) (a : α) (answer : σ → Step τ) : Except Fault (Step τ) :=
  (f.step s a).map answer

end Fold

namespace Parser

variable {α : Type u} {σ : Type v} {β : Type w}

/-- All elements, folded. -/
def ofFold (f : Fold α σ β) : Parser α σ β where
  start := .ok f.start
  step s a := f.thenStep s a (.yield 0)
  finish s := .ok (.ok (f.finish s))
  label := Inspect.record "FromFold" [("fold", f.label)]

/-- Whether some element satisfies `p`; stops at the first that does. -/
def any (p : α → Bool) : Parser α Bool Bool where
  start := .ok false
  step found a := .ok (if found || p a then .stop 0 true else .yield 0 false)
  finish s := .ok (.ok s)

/-- Whether all elements satisfy `p`; stops at the first that does not. -/
def all (p : α → Bool) : Parser α Bool Bool where
  start := .ok true
  step held a := .ok (if held && p a then .yield 0 true else .stop 0 false)
  finish s := .ok (.ok s)

/-- The first `count` elements, which must be there. -/
def exactly (count : Nat) (f : Fold α σ β) : Parser α (Nat × σ) β where
  start := .ok (0, f.start)
  step
    | (taken, s), a =>
      if count ≤ taken then .ok (.stop 1 (taken, s))
      else
        f.thenStep s a fun s =>
          if taken + 1 = count then .stop 0 (taken + 1, s) else .yield 0 (taken + 1, s)
  finish
    | (taken, s) =>
      .ok (if taken = count then .ok (f.finish s) else .error (.expectedExactly count taken))
  label := Inspect.record "TakeEq" [("count", inspect count), ("fold", f.label)]

/-- All elements, of which there must be at least `count`. -/
def atLeast (count : Nat) (f : Fold α σ β) : Parser α (Nat × σ) β where
  start := .ok (0, f.start)
  step
    | (taken, s), a => f.thenStep s a fun s => .yield 0 (taken + 1, s)
  finish
    | (taken, s) =>
      .ok (if count ≤ taken then .ok (f.finish s) else .error (.expectedAtLeast count taken))
  label := Inspect.record "TakeGe" [("count", inspect count), ("fold", f.label)]

/-- The elements before the first that does not satisfy `p`. -/
def takeWhile (p : α → Bool) (f : Fold α σ β) : Parser α σ β where
  start := .ok f.start
  step s a := if p a then f.thenStep s a (.yield 0) else .ok (.stop 1 s)
  finish s := .ok (.ok (f.finish s))

/-- The elements before a separator, which is dropped. -/
def upTo (sep : α → Bool) (f : Fold α σ β) : Parser α σ β where
  start := .ok f.start
  step s a := if sep a then .ok (.stop 0 s) else f.thenStep s a (.yield 0)
  finish s := .ok (.ok (f.finish s))

/-- The elements before a separator, which is dropped, but at most `max` of them. -/
def upToAtMost (sep : α → Bool) (max : Nat) (f : Fold α σ β) : Parser α (Nat × σ) β where
  start := .ok (0, f.start)
  step
    | (taken, s), a =>
      if max ≤ taken then .ok (.stop 1 (taken, s))
      else if sep a then .ok (.stop 0 (taken, s))
      else
        f.thenStep s a fun s =>
          if taken + 1 = max then .stop 0 (taken + 1, s) else .yield 0 (taken + 1, s)
  finish
    | (_, s) => .ok (.ok (f.finish s))

/-- The elements up to a separator and the separator itself. -/
def through (sep : α → Bool) (f : Fold α σ β) : Parser α σ β where
  start := .ok f.start
  step s a := f.thenStep s a (if sep a then .stop 0 else .yield 0)
  finish s := .ok (.ok (f.finish s))

/-- An element, whatever it is, and the elements before the next separator. -/
def headed (sep : α → Bool) (f : Fold α σ β) : Parser α (Bool × σ) β where
  start := .ok (false, f.start)
  step
    | (started, s), a =>
      if started && sep a then .ok (.stop 1 (started, s))
      else f.thenStep s a fun s => .yield 0 (true, s)
  finish
    | (_, s) => .ok (.ok (f.finish s))

/-- A word: the first elements in a row that are no separators. The separators around it are passed
over. -/
def word (sep : α → Bool) (f : Fold α σ β) : Parser α (WordPart × σ) β where
  start := .ok (.before, f.start)
  step
    | (part, s), a =>
      match part, sep a with
      | .before, true => .ok (.skip 0 (.before, s))
      | .behind, true => .ok (.skip 0 (.behind, s))
      | .inside, true => .ok (.skip 0 (.behind, s))
      | .behind, false => .ok (.stop 1 (.behind, s))
      | .before, false | .inside, false => f.thenStep s a fun s => .yield 0 (.inside, s)
  finish
    | (_, s) => .ok (.ok (f.finish s))

/-- An element and those after it that compare with it. -/
def runOf (same : α → α → Bool) (f : Fold α σ β) : Parser α (Option α × σ) β where
  start := .ok (none, f.start)
  step
    | (none, s), a => f.thenStep s a fun s => .yield 0 (some a, s)
    | (some first, s), a =>
      if same first a then f.thenStep s a fun s => .yield 0 (some first, s)
      else .ok (.stop 1 (some first, s))
  finish
    | (_, s) => .ok (.ok (f.finish s))

end Parser

end Streaming
