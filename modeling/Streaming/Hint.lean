/-!
# Size hints

A hint bounds the number of elements a state still has to give. Counts are 64-bit words: a lower
bound that would not fit is cut at the largest count, an upper bound that would not fit is given up.
-/

namespace Streaming

universe u

/-- The largest count that a 64-bit word holds. -/
def countLimit : Nat := 0xFFFFFFFFFFFFFFFF

/-- A lower bound and, where one is known, an upper bound on the elements still to come. -/
structure Hint where
  lower : Nat
  upper : Option Nat
deriving DecidableEq, Repr

namespace Hint

/-- Exactly `n` elements. -/
def exactly (n : Nat) : Hint := ⟨n, some n⟩

/-- Nothing is known. -/
def unknown : Hint := ⟨0, none⟩

/-- A count, unless it is beyond the largest one. -/
def fitting (n : Nat) : Option Nat := if n ≤ countLimit then some n else none

theorem mem_fitting {n m : Nat} (h : m ∈ fitting n) : m = n ∧ n ≤ countLimit := by
  unfold fitting at h
  split at h
  · rename_i hle
    cases h
    exact ⟨rfl, hle⟩
  · cases h

/-- The hint with `n` more elements on both sides. -/
def plus (h : Hint) (n : Nat) : Hint :=
  ⟨min (h.lower + n) countLimit, h.upper.bind fun m => fitting (m + n)⟩

/-- The hint when each element may become up to `k` elements, none of them being lost. -/
def widen (h : Hint) (k : Nat) : Hint :=
  ⟨h.lower, h.upper.bind fun m => fitting (m * k)⟩

/-- The hint when elements may be lost without a trace. -/
def lossy (h : Hint) : Hint := ⟨0, h.upper⟩

end Hint

/-- States that bound the number of their remaining elements. -/
class HasHint (σ : Type u) where
  /-- The bounds that the state claims. -/
  hint : σ → Hint

export HasHint (hint)

end Streaming
