import Streaming.Parser.Stock
import Streaming.Repetition
import Streaming.Supply

/-!
# Lines

A line ends with a newline, which does not belong to it, or with the end of the text. A newline at
the very end opens no further line.
-/

namespace Streaming.Text

universe u v w

/-- Whether a character ends a line. -/
def isNewline (c : Char) : Bool := c == '\n'

/-- The lines of a stream of characters, each of them folded. -/
structure Lines (σ : Type u) (τ : Type v) (β : Type w) where
  groups : Repetition σ Char τ β
  /-- Lines are cut without turning back. -/
  forward : groups.parser.Forward

namespace Lines

variable {σ : Type u} {τ : Type v} {β : Type w}

/-- The lines of a stream of characters. -/
def start (fold : Fold Char τ β) (chars : σ) : Lines σ τ β where
  groups := .start (.upTo isNewline fold) (.ofInput chars)
  forward := Parser.upTo_forward isNewline fold

variable [FinitePull σ Char]

/-- The answer of the next run, and the lines after it. -/
def step (s : Lines σ τ β) : Option (Except ParseError β) × Lines σ τ β :=
  ((s.groups.nextForward s.forward).1,
    ⟨(s.groups.nextForward s.forward).2, Repetition.forward_nextForward s.forward⟩)

theorem left_step_lt {s t : Lines σ τ β} {a : Except ParseError β} (h : s.step = (some a, t)) :
    t.groups.left < s.groups.left := by
  have hn := Repetition.next_eq_nextForward s.forward
  simp only [step, Prod.mk.injEq] at h
  rw [← h.2]
  exact Repetition.left_next_lt (hn.trans (by rw [← h.1]))

/-- The next line. -/
def next (s : Lines σ τ β) : Option β × Lines σ τ β :=
  match _h : s.step with
  | (none, t) => (none, t)
  | (some (.ok b), t) => (some b, t)
  | (some (.error _), t) => t.next
termination_by s.groups.left
decreasing_by exact left_step_lt _h

theorem left_next_lt {s t : Lines σ τ β} {b : β} (h : s.next = (some b, t)) :
    t.groups.left < s.groups.left := by
  fun_induction next s with
  | case1 s r hn => simp at h
  | case2 s b r hn =>
    simp only [Prod.mk.injEq] at h
    rw [← h.2]
    exact left_step_lt hn
  | case3 s e r hn ih => exact Nat.lt_trans (ih h) (left_step_lt hn)

theorem step_of_next_none {s t : Lines σ τ β} (h : s.next = (none, t)) : t.step.1 = none := by
  fun_induction next s with
  | case1 s r hs =>
    cases h
    have hn := Repetition.next_eq_nextForward s.forward
    simp only [step, Prod.mk.injEq] at hs
    rw [← hs.2]
    have hnone : s.groups.next = some (none, (s.groups.nextForward s.forward).2) := by
      rw [hn, ← hs.1]
    have hlast := Repetition.next_of_next_none hnone
    rw [Repetition.next_eq_nextForward (Repetition.forward_nextForward s.forward)] at hlast
    exact congrArg Prod.fst (Option.some.inj hlast)
  | case2 s b r hs => cases h
  | case3 s e r hs ih => exact ih h

instance : FinitePull (Lines σ τ β) β where
  pull := next
  fused := true
  none_of_fused _ s t h := by
    have hstep := step_of_next_none h
    rw [next]
    split <;> rename_i hs <;> rw [hs] at hstep <;> cases hstep
  left s := s.groups.left
  left_lt := left_next_lt

instance : HasFault (Lines σ τ β) := ⟨fun s => s.groups.fault⟩

end Lines

/-- The lines of a text. -/
def lines (text : List Char) : List String :=
  Pull.elements (Lines.start .toText (Supply.ofList text))

end Streaming.Text
