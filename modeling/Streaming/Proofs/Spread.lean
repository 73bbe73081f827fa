import Mathlib.Order.Bounds.Basic
import Streaming.Proofs.Pull

/-!
# Answers that are spread out

A reader that replaces each element of its input by those that it stands for, and passes on each
empty answer, spreads the answers of its input out (`spread`). If it gives what it holds first, and
asks its input only when it holds nothing (`Spreads`), then the answers to any number of requests
are the first that the input's answers are spread out to, and it has asked its input no more often
than these need (`Spreads.exists_run`). For a supply the answers are known beforehand, and so is
the number of requests (`Spreads.lazilySpread`).
-/

namespace Streaming

universe u v w x

/-- Each element is replaced by those that it stands for, and an empty answer stays one. -/
def spread {α : Type u} {β : Type v} (f : α → List β) (answers : List (Option α)) :
    List (Option β) :=
  answers.flatMap fun
    | none => [none]
    | some a => (f a).map some

section

variable {α : Type u} {β : Type v} (f : α → List β)

@[simp] theorem spread_nil : spread f [] = [] := rfl

@[simp] theorem spread_cons_none (answers : List (Option α)) :
    spread f (none :: answers) = none :: spread f answers := rfl

@[simp] theorem spread_cons_some (a : α) (answers : List (Option α)) :
    spread f (some a :: answers) = (f a).map some ++ spread f answers := rfl

@[simp] theorem spread_replicate_none (n : Nat) :
    spread f (List.replicate n none) = List.replicate n none := by
  induction n with
  | zero => rfl
  | succ n ih => rw [List.replicate_succ, spread_cons_none, ih, List.replicate_succ]

theorem spread_append (front behind : List (Option α)) :
    spread f (front ++ behind) = spread f front ++ spread f behind := List.flatMap_append

end

/-! ## Requests one after the other -/

namespace Pull

variable {σ : Type u} {α : Type v} [FinitePull σ α]

theorem answers_succ (n : Nat) (s : σ) :
    answers (n + 1) s =
      ((pull s).1 :: (answers n (pull s).2).1, (answers n (pull s).2).2) := rfl

@[simp] theorem length_answers (n : Nat) (s : σ) : (answers n s).1.length = n := by
  induction n generalizing s with
  | zero => rfl
  | succ n ih => rw [answers_succ, List.length_cons, ih]

theorem answers_add (m n : Nat) (s : σ) :
    answers (m + n) s =
      ((answers m s).1 ++ (answers n (answers m s).2).1, (answers n (answers m s).2).2) := by
  induction m generalizing s with
  | zero => rw [Nat.zero_add]; rfl
  | succ m ih => rw [Nat.add_right_comm, answers_succ, ih, answers_succ, List.cons_append]

end Pull

/-! ## Readers that ask only when they hold nothing -/

variable {σ : Type u} {α : Type v} {τ : Type w} {β : Type x} [FinitePull σ α] [FinitePull τ β]

/-- A reader that stands for elements by others: where the relation holds, the reader has asked its
input up to a state, and holds elements that are still to be given. It gives these first, and asks
its input when it holds none. -/
structure Spreads (R : τ → σ → List β → Prop) (f : α → List β) : Prop where
  held : ∀ {t s b rest}, R t s (b :: rest) → ∃ u, Pull.pull t = (some b, u) ∧ R u s rest
  asked_none : ∀ {t s s'}, R t s [] → Pull.pull s = (none, s') →
    ∃ u, Pull.pull t = (none, u) ∧ R u s' []
  asked_some : ∀ {t s s' a}, R t s [] → Pull.pull s = (some a, s') →
    ∃ u, Pull.pull t = Pull.pull u ∧ R u s' (f a)

/-- A run of `n` requests that takes `k` requests of the input: the answers are what the reader held
and what its input's answers stand for, up to the elements held in the end, and fewer answers of the
input would not have done. -/
structure SpreadRun (R : τ → σ → List β → Prop) (f : α → List β) (t : τ) (s : σ) (bs : List β)
    (n k : Nat) (rest : List β) : Prop where
  answered : bs.map some ++ spread f (Pull.answers k s).1 = (Pull.answers n t).1 ++ rest.map some
  related : R (Pull.answers n t).2 (Pull.answers k s).2 rest
  needed : ∀ j < k, bs.length + (spread f (Pull.answers j s).1).length < n

namespace SpreadRun

variable {R : τ → σ → List β → Prop} {f : α → List β} {t u : τ} {s s' : σ} {a : α}
  {bs held rest : List β} {m n k l : Nat}

theorem zero (h : R t s bs) : SpreadRun R f t s bs 0 0 bs where
  answered := by simp [Pull.answers]
  related := h
  needed := nofun

/-- The requests of one run after those of another. -/
theorem add (h : SpreadRun R f t s bs m k held)
    (hrest : SpreadRun R f (Pull.answers m t).2 (Pull.answers k s).2 held n l rest) :
    SpreadRun R f t s bs (m + n) (k + l) rest where
  answered := by
    rw [Pull.answers_add, Pull.answers_add, spread_append, ← List.append_assoc, h.answered,
      List.append_assoc, hrest.answered, List.append_assoc]
  related := by
    rw [Pull.answers_add, Pull.answers_add]
    exact hrest.related
  needed j hj := by
    by_cases hjk : j < k
    · exact Nat.lt_add_right n (h.needed j hjk)
    · obtain ⟨i, rfl⟩ := Nat.exists_eq_add_of_le (Nat.le_of_not_lt hjk)
      have hlen := congrArg List.length h.answered
      have hi := hrest.needed i (by omega)
      simp only [List.length_append, List.length_map, Pull.length_answers] at hlen
      rw [Pull.answers_add, spread_append, List.length_append]
      omega

/-- A reader that holds nothing asks for one more element. -/
theorem ask (hs : Pull.pull s = (some a, s')) (ht : Pull.pull t = Pull.pull u)
    (h : SpreadRun R f u s' (f a) 1 k rest) : SpreadRun R f t s [] 1 (k + 1) rest where
  answered := by
    rw [Pull.answers_succ, Pull.answers_succ, hs, ht, ← Pull.answers_succ 0 u, spread_cons_some]
    exact h.answered
  related := by
    rw [Pull.answers_succ, Pull.answers_succ, hs, ht]
    exact h.related
  needed j hj := by
    cases j with
    | zero => exact Nat.one_pos
    | succ j =>
      have hneeded := h.needed j (Nat.lt_of_succ_lt_succ hj)
      rw [Pull.answers_succ, hs, spread_cons_some, List.length_append, List.length_map]
      rwa [List.length_nil, Nat.zero_add]

end SpreadRun

namespace Spreads

variable {R : τ → σ → List β → Prop} {f : α → List β} (h : Spreads R f) {t : τ} {s : σ}
  {bs : List β}

include h

theorem run_of_held {b : β} (ht : R t s (b :: bs)) : SpreadRun R f t s (b :: bs) 1 0 bs := by
  obtain ⟨u, hu, hr⟩ := h.held ht
  refine ⟨?_, ?_, nofun⟩
  · rw [Pull.answers_succ, hu]
    simp [Pull.answers]
  · rw [Pull.answers_succ, hu]
    exact hr

theorem run_of_none {s' : σ} (ht : R t s []) (hs : Pull.pull s = (none, s')) :
    SpreadRun R f t s [] 1 1 [] := by
  obtain ⟨u, hu, hr⟩ := h.asked_none ht hs
  refine ⟨?_, ?_, fun j hj => ?_⟩
  · rw [Pull.answers_succ, Pull.answers_succ, hs, hu]
    rfl
  · rw [Pull.answers_succ, Pull.answers_succ, hs, hu]
    exact hr
  · rw [Nat.lt_one_iff.mp hj]
    exact Nat.one_pos

/-- One request asks the input until there is something to answer, and no more often. -/
theorem exists_run_one (ht : R t s bs) : ∃ k rest, SpreadRun R f t s bs 1 k rest := by
  cases bs with
  | cons b bs => exact ⟨0, bs, h.run_of_held ht⟩
  | nil =>
    -- On the answers of the input, as long as they stand for nothing.
    induction s using Pull.collect.induct generalizing t with
    | case1 s s' hs => exact ⟨1, [], h.run_of_none ht hs⟩
    | case2 s a s' hs ih =>
      obtain ⟨u, hu, hr⟩ := h.asked_some ht hs
      have hrun : ∃ k rest, SpreadRun R f u s' (f a) 1 k rest := by
        cases hfa : f a with
        | nil => exact ih (hfa ▸ hr)
        | cons b rest => exact ⟨0, rest, h.run_of_held (hfa ▸ hr)⟩
      obtain ⟨k, rest, hrun⟩ := hrun
      exact ⟨k + 1, rest, hrun.ask hs hu⟩

theorem exists_run (ht : R t s bs) (n : Nat) : ∃ k rest, SpreadRun R f t s bs n k rest := by
  induction n generalizing t s bs with
  | zero => exact ⟨0, bs, .zero ht⟩
  | succ n ih =>
    obtain ⟨k, held, hfirst⟩ := h.exists_run_one ht
    obtain ⟨l, rest, hothers⟩ := ih hfirst.related
    rw [Nat.add_comm n 1]
    exact ⟨k + l, rest, hfirst.add hothers⟩

end Spreads

/-! ## Readers of a supply -/

namespace Supply

/-- The first `n` answers, every one after the last being empty. -/
def replies (n : Nat) (answers : List (Option α)) : List (Option α) :=
  (List.range n).map fun i => answers[i]?.join

theorem fst_answers (n : Nat) (s : Supply α) : (Pull.answers n s).1 = replies n s.answers := by
  induction n generalizing s with
  | zero => rfl
  | succ n ih =>
    rw [Pull.answers_succ, ih, Supply.pull_eq, Supply.next]
    simp only [replies, List.range_succ_eq_map, List.map_cons, List.map_map]
    split <;> rename_i hs <;> simp [hs, Function.comp_def]

theorem replies_length_add (m : Nat) (answers : List (Option α)) :
    replies (answers.length + m) answers = answers ++ List.replicate m none := by
  refine List.ext_getElem (by simp [replies]) fun i hi hi' => ?_
  rw [List.getElem_append]
  split <;> rename_i hlt <;> simp [replies, hlt]

theorem replies_prefix_add (k m : Nat) (answers : List (Option α)) :
    replies k answers <+: replies (k + m) answers := by
  rw [replies, replies, List.range_add, List.map_append]
  exact List.prefix_append _ _

theorem asked_answers (n : Nat) (s : Supply α) : (Pull.answers n s).2.asked = s.asked + n := by
  induction n generalizing s with
  | zero => rfl
  | succ n ih =>
    have hone : (Pull.pull s).2.asked = s.asked + 1 := by
      rw [Supply.pull_eq, Supply.next]
      split <;> rfl
    rw [Pull.answers_succ, ih, hone, Nat.add_right_comm, Nat.add_assoc]

end Supply

/-- The answers are the first `n` that the supplied ones, and the empty ones behind them, are spread
out to, and so many requests are the fewest that lead to as many. -/
structure LazilySpread (f : α → List β) (supplied : List (Option α)) (n : Nat)
    (answers : List (Option β)) (asked : Nat) : Prop where
  answers_eq : answers = (spread f supplied ++ List.replicate n none).take n
  isLeast : IsLeast {k | n ≤ (spread f (Supply.replies k supplied)).length} asked

/-- The first answers do not depend on how many more there are. -/
theorem take_spread_replies {f : α → List β} {supplied : List (Option α)} {n k : Nat}
    (hn : n ≤ (spread f (Supply.replies k supplied)).length) :
    (spread f (Supply.replies k supplied)).take n =
      (spread f supplied ++ List.replicate n none).take n := by
  have htake {l m : List (Option β)} (hlm : l <+: m) (hl : n ≤ l.length) : l.take n = m.take n := by
    obtain ⟨rest, rfl⟩ := hlm
    rw [List.take_append_of_le_length hl]
  have hlong : spread f (Supply.replies k supplied) <+:
      spread f supplied ++ List.replicate (n + k) none := by
    obtain ⟨rest, hrest⟩ := Supply.replies_prefix_add k (supplied.length + n) supplied
    rw [Nat.add_left_comm, Nat.add_comm k n, Supply.replies_length_add] at hrest
    have hspread := congrArg (spread f) hrest
    rw [spread_append, spread_append, spread_replicate_none] at hspread
    exact ⟨_, hspread⟩
  have hshort : spread f supplied ++ List.replicate n none <+:
      spread f supplied ++ List.replicate (n + k) none := by
    rw [← List.replicate_append_replicate, ← List.append_assoc]
    exact List.prefix_append _ _
  rw [htake hlong hn, htake hshort (by simp)]

/-- A reader that holds nothing spreads the answers of its supply out. -/
theorem Spreads.lazilySpread {R : τ → Supply α → List β → Prop} {f : α → List β}
    (h : Spreads R f) {supply : τ → Supply α} (hsupply : ∀ {t s bs}, R t s bs → supply t = s)
    {t : τ} {supplied : List (Option α)} (ht : R t { answers := supplied } []) (n : Nat) :
    LazilySpread f supplied n (Pull.answers n t).1 (supply (Pull.answers n t).2).asked := by
  obtain ⟨k, rest, hrun⟩ := h.exists_run ht n
  have hasked : (Pull.answers k ({ answers := supplied } : Supply α)).2.asked = k :=
    (Supply.asked_answers k _).trans (Nat.zero_add k)
  have heq := hrun.answered
  rw [List.map_nil, List.nil_append, Supply.fst_answers] at heq
  have hn : n ≤ (spread f (Supply.replies k supplied)).length := by
    rw [heq, List.length_append, Pull.length_answers]
    exact Nat.le_add_right ..
  rw [hsupply hrun.related]
  refine ⟨?_, ?_⟩
  · rw [← take_spread_replies hn, heq, List.take_left' (Pull.length_answers n t)]
  · rw [hasked]
    refine ⟨hn, fun j hj => ?_⟩
    by_contra hlt
    have hshort := hrun.needed j (Nat.lt_of_not_le hlt)
    rw [Supply.fst_answers, List.length_nil, Nat.zero_add] at hshort
    exact absurd hj (Nat.not_le_of_lt hshort)

end Streaming
