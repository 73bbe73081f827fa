import Mathlib.Order.Bounds.Basic
import Streaming.ChunkReader
import Streaming.Proofs.Pull

/-!
# How many chunks a reader asks for

A reader over a supply of chunks asks for a chunk only when an element is wanted and the chunks it
has are used up. When it has given `k` elements it has therefore asked for the least number of
chunks that hold as many (`Frugal.isLeast`), and for all of them when it has found the end of its
input (`Frugal.given_collect`).
-/

namespace Streaming

universe u

variable {α : Type u}

namespace Supply

/-- What is left of a supply of the elements of `xs` without pauses. -/
structure Gives (xs : List α) (s : Supply α) : Prop where
  answers : s.answers = (xs.drop s.given).map some
  given_le : s.given ≤ xs.length

namespace Gives

variable {xs : List α} {s t : Supply α}

theorem ofList (xs : List α) : Gives xs (Supply.ofList xs) := ⟨rfl, Nat.zero_le _⟩

theorem pull_some (h : Gives xs s) {x : α} (hp : Pull.pull s = (some x, t)) :
    Gives xs t ∧ t.given = s.given + 1 ∧ xs.take t.given = xs.take s.given ++ [x] := by
  obtain ⟨hans, hle⟩ := h
  cases hdrop : xs.drop s.given with
  | nil =>
    rw [hdrop] at hans
    rw [pull_of_nil hans] at hp
    cases hp
  | cons y rest =>
    rw [hdrop] at hans
    rw [pull_of_cons hans] at hp
    cases hp
    have hlen := congrArg List.length hdrop
    rw [List.length_drop, List.length_cons] at hlen
    have hx : xs[s.given]? = some x := by rw [← List.head?_drop, hdrop, List.head?_cons]
    refine ⟨⟨?_, by simp only; omega⟩, rfl, ?_⟩
    · show rest.map some = _
      rw [← List.drop_drop, hdrop, List.drop_one, List.tail_cons]
    · show xs.take (s.given + 1) = _
      rw [List.take_add_one, hx]
      rfl

theorem pull_none (h : Gives xs s) (hp : Pull.pull s = (none, t)) : t.given = xs.length := by
  obtain ⟨hans, hle⟩ := h
  cases hdrop : xs.drop s.given with
  | cons y rest =>
    rw [hdrop] at hans
    rw [pull_of_cons hans] at hp
    cases hp
  | nil =>
    rw [hdrop] at hans
    rw [pull_of_nil hans] at hp
    cases hp
    exact Nat.le_antisymm hle (List.drop_eq_nil_iff.mp hdrop)

end Gives

end Supply

namespace ChunkReader

/-- A reader over the chunks of a list. -/
def ofList (css : List (List α)) : ChunkReader (Supply (List α)) α := { chunks := .ofList css }

@[simp] theorem elements_ofList (css : List (List α)) :
    Pull.elements (ofList css) = css.flatten := by
  rw [ofList, elements_mk, Supply.elements_ofList]

/-- The reader has given `k` elements of the chunks, and has asked for no chunk that begins beyond
the first `n` elements. -/
structure Frugal (css : List (List α)) (k n : Nat) (r : ChunkReader (Supply (List α)) α) :
    Prop where
  gives : r.chunks.Gives css
  held : (css.take r.chunks.given).flatten.length = k + r.unread.length
  wanted : ∀ m < r.chunks.given, (css.take m).flatten.length < n

namespace Frugal

variable {css : List (List α)} {k n : Nat} {r t : ChunkReader (Supply (List α)) α}

theorem start (css : List (List α)) : Frugal css 0 0 (ofList css) :=
  ⟨.ofList css, rfl, fun m hm => absurd hm (Nat.not_lt_zero m)⟩

theorem mono {n' : Nat} (h : Frugal css k n r) (hn : n ≤ n') : Frugal css k n' r :=
  ⟨h.gives, h.held, fun m hm => Nat.lt_of_lt_of_le (h.wanted m hm) hn⟩

theorem isLeast (h : Frugal css k k r) :
    IsLeast {m | k ≤ (css.take m).flatten.length} r.chunks.given := by
  constructor
  · show k ≤ _
    rw [h.held]
    exact Nat.le_add_right _ _
  · intro m hm
    by_contra hlt
    exact absurd (h.wanted m (Nat.lt_of_not_le hlt)) (Nat.not_lt_of_le hm)

/-- Where the chunk in hand is used up, asking for another one is called for by the next element. -/
theorem ask (h : Frugal css k (k + 1) r) (hr : r.current.bind (·[r.index]?) = none)
    {chunk : List α} {chunks : Supply (List α)} (hp : Pull.pull r.chunks = (some chunk, chunks)) :
    Frugal css k (k + 1) ⟨chunks, some chunk, 0⟩ := by
  obtain ⟨hgives, hgiven, htake⟩ := h.gives.pull_some hp
  have hheld := h.held
  rw [unread_of_none hr, List.length_nil, Nat.add_zero] at hheld
  refine ⟨hgives, ?_, fun m hm => ?_⟩
  · rw [htake, List.flatten_append, List.flatten_singleton, List.length_append, hheld]
    rfl
  · simp only [hgiven] at hm
    rcases Nat.lt_succ_iff_lt_or_eq.mp hm with hm | rfl
    · exact h.wanted m hm
    · rw [hheld]
      exact Nat.lt_succ_self k

theorem next_some (h : Frugal css k (k + 1) r) {a : α} (hn : r.next = (some a, t)) :
    Frugal css (k + 1) (k + 1) t := by
  fun_induction next r with
  | case1 r b hb =>
    cases hn
    have hheld := h.held
    rw [unread_of_some hb, List.length_cons] at hheld
    exact ⟨h.gives, by rw [hheld]; omega, h.wanted⟩
  | case2 r hr chunks hp => cases hn
  | case3 r hr chunk chunks hp ih => exact ih (h.ask hr hp) hn

theorem next_none (h : Frugal css k (k + 1) r) (hn : r.next = (none, t)) :
    t.chunks.given = css.length := by
  fun_induction next r with
  | case1 r b hb => cases hn
  | case2 r hr chunks hp =>
    cases hn
    exact h.gives.pull_none hp
  | case3 r hr chunk chunks hp ih => exact ih (h.ask hr hp) hn

theorem take (h : Frugal css k k r) (hn : n ≤ (Pull.elements r).length) :
    Frugal css (k + n) (k + n) (Pull.take n r).2 := by
  induction n generalizing k r with
  | zero => exact h
  | succ n ih =>
    cases hp : Pull.pull r with
    | mk answer t =>
      cases answer with
      | none => simp [Pull.elements_of_none hp] at hn
      | some a =>
        rw [Pull.elements_of_some hp, List.length_cons] at hn
        rw [Pull.take_of_some hp, Nat.add_comm n 1, ← Nat.add_assoc]
        exact ih ((h.mono (Nat.le_succ k)).next_some hp) (by omega)

theorem given_collect (h : Frugal css k k r) : (Pull.collect r).2.chunks.given = css.length := by
  induction r using Pull.collect.induct generalizing k with
  | case1 r t hp =>
    rw [Pull.collect_of_none hp]
    exact (h.mono (Nat.le_succ k)).next_none hp
  | case2 r a t hp ih =>
    rw [Pull.collect_of_some hp]
    exact ih ((h.mono (Nat.le_succ k)).next_some hp)

end Frugal

end ChunkReader

end Streaming
