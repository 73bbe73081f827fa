import Streaming.Inspect

/-!
# Steps

What a parser makes of one element: whether it wants more, its next state, and how many of the
elements offered last it hands back, the current one included.
-/

namespace Streaming

universe u v

/-- A parser's answer to one element. -/
inductive Step (σ : Type u) where
  /-- The element is used, and more are wanted. -/
  | yield (back : Nat) (state : σ)
  /-- The element is passed over, and more are wanted. -/
  | skip (back : Nat) (state : σ)
  /-- No more elements are wanted. -/
  | stop (back : Nat) (state : σ)
deriving DecidableEq, Repr

namespace Step

variable {σ : Type u} {τ : Type v}

/-- How many elements are handed back. -/
def back : Step σ → Nat
  | .yield n _ | .skip n _ | .stop n _ => n

/-- The state after the element. -/
def state : Step σ → σ
  | .yield _ s | .skip _ s | .stop _ s => s

/-- Whether no more elements are wanted. -/
def isStop : Step σ → Bool
  | .stop .. => true
  | .yield .. | .skip .. => false

/-- The same answer with the state transformed. -/
def map (f : σ → τ) : Step σ → Step τ
  | .yield n s => .yield n (f s)
  | .skip n s => .skip n (f s)
  | .stop n s => .stop n (f s)

/-- The name of the kind of answer. -/
def kind : Step σ → String
  | .yield .. => "Yield"
  | .skip .. => "Skip"
  | .stop .. => "Stop"

instance [Inspect σ] : Inspect (Step σ) where
  inspect s := Inspect.call s.kind [inspect s.back, inspect s.state]

end Step

end Streaming
