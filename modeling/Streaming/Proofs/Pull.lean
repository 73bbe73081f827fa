import Streaming.Latch
import Streaming.Supply

/-!
# Taking from what is left

Taking `n` elements yields the first `n` of those to come and leaves the others
(`Pull.elements_take`); taking more than there are collects everything. A latch gives what its input
gives, and what a latched supply has still to give are the elements it has not given (`Serves`).

Where elements may come for ever, they are told place by place (`Pull.nth`).
-/

namespace Streaming

universe u v

namespace Pull

section Places

variable {σ : Type u} {α : Type v} [Pull σ α]

/-- The element behind the next `i`, if so many come before the next empty answer. -/
def nth (s : σ) : Nat → Option α
  | 0 => (pull s).1
  | i + 1 => (pull s).1.bind fun _ => nth (pull s).2 i

theorem nth_of_none {s t : σ} (h : pull s = (none, t)) (i : Nat) : nth s i = none := by
  cases i <;> simp [nth, h]

theorem nth_succ_of_some {s t : σ} {a : α} (h : pull s = (some a, t)) (i : Nat) :
    nth s (i + 1) = nth t i := by
  simp [nth, h]

end Places

variable {σ : Type u} {α : Type v} [FinitePull σ α]

theorem exists_of_elements_nil {s : σ} (h : elements s = []) : ∃ t, pull s = (none, t) := by
  cases hp : pull s with
  | mk answer t =>
    cases answer with
    | none => exact ⟨t, rfl⟩
    | some a =>
      rw [elements_of_some hp] at h
      cases h

theorem exists_of_elements_cons {s : σ} {a : α} {as : List α} (h : elements s = a :: as) :
    ∃ t, pull s = (some a, t) ∧ elements t = as := by
  cases hp : pull s with
  | mk answer t =>
    cases answer with
    | none =>
      rw [elements_of_none hp] at h
      cases h
    | some b =>
      rw [elements_of_some hp] at h
      cases h
      exact ⟨t, rfl, rfl⟩

theorem elements_eq_of_pull_eq {s t : σ} (h : pull s = pull t) : elements s = elements t := by
  cases hp : pull t with
  | mk answer u =>
    rw [hp] at h
    cases answer with
    | none => rw [elements_of_none h, elements_of_none hp]
    | some a => rw [elements_of_some h, elements_of_some hp]

/-- Where elements do not come for ever, these are the places of their list. -/
theorem nth_eq_getElem? (s : σ) (i : Nat) : nth s i = (elements s)[i]? := by
  induction s using collect.induct generalizing i with
  | case1 s t h => rw [nth_of_none h, elements_of_none h, List.getElem?_nil]
  | case2 s a t h ih =>
    rw [elements_of_some h]
    cases i with
    | zero => simp [nth, h]
    | succ i => rw [nth_succ_of_some h, ih, List.getElem?_cons_succ]

theorem take_of_none {s t : σ} (h : pull s = (none, t)) (n : Nat) : take (n + 1) s = ([], t) := by
  simp [take, h]

theorem take_of_some {s t : σ} {a : α} (h : pull s = (some a, t)) (n : Nat) :
    take (n + 1) s = (a :: (take n t).1, (take n t).2) := by
  simp [take, h]

/-- An answer after which nothing changes any more. -/
theorem snd_take_of_stays {s t : σ} {answer : Option α} (h : pull s = (answer, t))
    (ht : pull t = (none, t)) (n : Nat) : (take (n + 1) s).2 = t := by
  cases answer with
  | none => rw [take_of_none h]
  | some a =>
    rw [take_of_some h]
    cases n with
    | zero => rfl
    | succ n => rw [take_of_none ht]

theorem fst_take (n : Nat) (s : σ) : (take n s).1 = (elements s).take n := by
  induction n generalizing s with
  | zero => simp [take]
  | succ n ih =>
    cases h : pull s with
    | mk answer t =>
      cases answer with
      | none => simp [take_of_none h, elements_of_none h]
      | some a => simp [take_of_some h, elements_of_some h, ih]

/-- What holds of taking nothing, and of taking one more element if it holds of taking the others,
holds of taking as many as there are. -/
theorem take_induct {motive : Nat → σ → σ → Prop} (zero : ∀ s, motive 0 s s)
    (succ : ∀ {n s t u a}, pull s = (some a, t) → motive n t u → motive (n + 1) s u) {n : Nat}
    {s : σ} (hn : n ≤ (elements s).length) : motive n s (take n s).2 := by
  induction n generalizing s with
  | zero => exact zero s
  | succ n ih =>
    cases h : pull s with
    | mk answer t =>
      cases answer with
      | none =>
        rw [elements_of_none h] at hn
        exact absurd hn (Nat.not_succ_le_zero n)
      | some a =>
        rw [elements_of_some h] at hn
        rw [take_of_some h]
        exact succ h (ih (Nat.le_of_succ_le_succ hn))

theorem elements_take {n : Nat} {s : σ} (hn : n ≤ (elements s).length) :
    elements (take n s).2 = (elements s).drop n := by
  refine take_induct (motive := fun n s u => elements u = (elements s).drop n) (fun _ => rfl) ?_ hn
  intro n s t u a h ih
  rw [ih, elements_of_some h, List.drop_succ_cons]

theorem take_of_lt {n : Nat} {s : σ} (hn : (elements s).length < n) : take n s = collect s := by
  induction n generalizing s with
  | zero => omega
  | succ n ih =>
    cases h : pull s with
    | mk answer t =>
      cases answer with
      | none => rw [take_of_none h, collect_of_none h]
      | some a =>
        rw [elements_of_some h, List.length_cons] at hn
        rw [take_of_some h, collect_of_some h, ih (by omega)]

theorem snd_take_add {m : Nat} {s : σ} (hm : m ≤ (elements s).length) (n : Nat) :
    (take (m + n) s).2 = (take n (take m s).2).2 := by
  refine take_induct (motive := fun m s u => (take (m + n) s).2 = (take n u).2) ?_ ?_ hm
  · intro s
    rw [Nat.zero_add]
  · intro m s t u a h ih
    rw [Nat.add_right_comm, take_of_some h]
    exact ih

theorem snd_collect_take {n : Nat} {s : σ} (hn : n ≤ (elements s).length) :
    (collect (take n s).2).2 = (collect s).2 := by
  have hlen := congrArg List.length (elements_take hn)
  rw [List.length_drop] at hlen
  have hadd := snd_take_add hn ((elements s).length + 1 - n)
  rw [take_of_lt (by omega), take_of_lt (by omega)] at hadd
  exact hadd.symm

/-! ### Requests -/

theorem answers_of_stays {s : σ} (h : pull s = (none, s)) (n : Nat) :
    answers n s = (List.replicate n none, s) := by
  induction n with
  | zero => rfl
  | succ n ih =>
    rw [answers, h, ih]
    rfl

/-- Requests that may fail are all answered, and as those of another state, if from states that are
related one request is, and leads to states that are related. -/
theorem exists_answers_of_exists_next {τ : Type u} {next? : τ → Option (Option α × τ)}
    {answers? : Nat → τ → Option (List (Option α) × τ)} (hzero : ∀ t, answers? 0 t = some ([], t))
    (hsucc : ∀ n t, answers? (n + 1) t = (next? t).bind fun first =>
      (answers? n first.2).map fun rest => (first.1 :: rest.1, rest.2))
    {R : τ → σ → Prop}
    (hnext : ∀ {t s}, R t s → ∃ u, next? t = some ((pull s).1, u) ∧ R u (pull s).2) {t : τ} {s : σ}
    (h : R t s) (n : Nat) :
    ∃ u, answers? n t = some ((answers n s).1, u) ∧ R u (answers n s).2 := by
  induction n generalizing t s with
  | zero => exact ⟨t, hzero t, h⟩
  | succ n ih =>
    obtain ⟨u, hu, hr⟩ := hnext h
    obtain ⟨v, hv, hr⟩ := ih hr
    refine ⟨v, ?_, hr⟩
    rw [hsucc, hu, Option.bind_some, hv]
    rfl

theorem snd_answers_of_le {n : Nat} {s : σ} (hn : n ≤ (elements s).length) :
    (answers n s).2 = (take n s).2 := by
  refine take_induct (motive := fun n s u => (answers n s).2 = u) (fun _ => rfl) ?_ hn
  intro n s t u a h ih
  rw [answers, h]
  exact ih

/-- The request after the last element is the one with the empty answer. -/
theorem snd_collect_eq_answers (s : σ) :
    (collect s).2 = (answers ((elements s).length + 1) s).2 := by
  induction s using collect.induct with
  | case1 s t h => rw [collect_of_none h, elements_of_none h, answers, h, List.length_nil, answers]
  | case2 s a t h ih =>
    rw [collect_of_some h, elements_of_some h, List.length_cons, answers, h]
    exact ih

/-- What `n` requests get of the elements of a list, and of nothing after them. -/
def served (n : Nat) (xs : List α) : List (Option α) := (List.range n).map fun i => xs[i]?

theorem served_cons (n : Nat) (x : α) (xs : List α) :
    served (n + 1) (x :: xs) = some x :: served n xs := by
  simp [served, List.range_succ_eq_map, Function.comp_def]

@[simp] theorem served_nil (n : Nat) : served n ([] : List α) = List.replicate n none := by
  simp [served, List.map_const']

theorem served_map {β : Type u} (f : α → β) (n : Nat) (xs : List α) :
    served n (xs.map f) = (served n xs).map (Option.map f) := by
  simp [served]

end Pull

namespace Latch

section Places

variable {σ : Type u} {α : Type v} [Pull σ α]

theorem nth_of_ended {l : Latch σ} (h : l.ended = true) (i : Nat) : Pull.nth l i = none :=
  Pull.nth_of_none (next_of_ended h) i

theorem nth_mk (input : σ) (i : Nat) :
    Pull.nth (⟨input, false⟩ : Latch σ) i = Pull.nth input i := by
  induction i generalizing input with
  | zero =>
    cases hp : Pull.pull input with
    | mk answer rest => cases answer <;> simp [Pull.nth, pull_eq, next, hp]
  | succ i ih =>
    cases hp : Pull.pull input with
    | mk answer rest =>
      cases answer with
      | none => simp [Pull.nth, pull_eq, next, hp]
      | some a => simp [Pull.nth, pull_eq, next, hp, ih]

end Places

variable {σ : Type u} {α : Type v} [FinitePull σ α]

theorem elements_of_ended {l : Latch σ} (h : l.ended = true) : Pull.elements l = ([] : List α) :=
  Pull.elements_of_none (next_of_ended h)

theorem elements_of_next_none {l m : Latch σ} (h : l.next = (none, m)) :
    Pull.elements m = ([] : List α) :=
  elements_of_ended (ended_of_next_none h)

/-- A latch that has not ended gives what its input gives. -/
theorem elements_mk (input : σ) :
    Pull.elements (⟨input, false⟩ : Latch σ) = Pull.elements input := by
  induction input using Pull.collect.induct with
  | case1 s t h =>
    have hl : Pull.pull (⟨s, false⟩ : Latch σ) = (none, ⟨t, true⟩) := by
      simp [pull_eq, next, h]
    rw [Pull.elements_of_none h, Pull.elements_of_none hl]
  | case2 s a t h ih =>
    have hl : Pull.pull (⟨s, false⟩ : Latch σ) = (some a, ⟨t, false⟩) := by
      simp [pull_eq, next, h]
    rw [Pull.elements_of_some h, Pull.elements_of_some hl, ih]

theorem snd_take_mk {input : σ} {n : Nat} (hn : n ≤ (Pull.elements input).length) :
    (Pull.take n (⟨input, false⟩ : Latch σ)).2 = ⟨(Pull.take n input).2, false⟩ := by
  refine Pull.take_induct
    (motive := fun n s u => (Pull.take n (⟨s, false⟩ : Latch σ)).2 = ⟨u, false⟩) (fun _ => rfl) ?_
    hn
  intro n s t u a h ih
  have hl : Pull.pull (⟨s, false⟩ : Latch σ) = (some a, ⟨t, false⟩) := by
    simp [pull_eq, next, h]
  rw [Pull.take_of_some hl]
  exact ih

theorem snd_collect_mk (input : σ) :
    (Pull.collect (⟨input, false⟩ : Latch σ)).2 = ⟨(Pull.collect input).2, true⟩ := by
  induction input using Pull.collect.induct with
  | case1 s t h =>
    have hl : Pull.pull (⟨s, false⟩ : Latch σ) = (none, ⟨t, true⟩) := by
      simp [pull_eq, next, h]
    rw [Pull.collect_of_none h, Pull.collect_of_none hl]
  | case2 s a t h ih =>
    have hl : Pull.pull (⟨s, false⟩ : Latch σ) = (some a, ⟨t, false⟩) := by
      simp [pull_eq, next, h]
    rw [Pull.collect_of_some h, Pull.collect_of_some hl]
    exact ih

end Latch

/-! ## Supplies -/

variable {α : Type u}

/-- The latched supply gives the elements of `xs`, without pauses, from the first that it has not
given. -/
structure Serves (xs : List α) (l : Latch (Supply α)) : Prop where
  answers : l.inner.answers = (xs.drop l.inner.given).map some
  given_le : l.inner.given ≤ xs.length
  given_of_ended : l.ended = true → l.inner.given = xs.length

namespace Serves

theorem ofList (xs : List α) : Serves xs ⟨Supply.ofList xs, false⟩ where
  answers := rfl
  given_le := Nat.zero_le _
  given_of_ended := fun h => absurd h (by simp)

variable {xs : List α} {l : Latch (Supply α)} (h : Serves xs l)

include h

theorem elements_eq : Pull.elements l = xs.drop l.inner.given := by
  obtain ⟨s, ended⟩ := l
  cases ended with
  | true =>
    have hall : s.given = xs.length := h.given_of_ended rfl
    rw [Latch.elements_of_ended rfl, hall, List.drop_length]
  | false => rw [Latch.elements_mk, Supply.elements_of_answers h.answers]

theorem next : Serves xs l.next.2 ∧
    l.next.2.inner.given = l.inner.given + l.next.1.toList.length := by
  obtain ⟨s, ended⟩ := l
  obtain ⟨ha, hle, hend⟩ := h
  cases ended with
  | true => exact ⟨⟨ha, hle, hend⟩, rfl⟩
  | false =>
    cases hdrop : xs.drop s.given with
    | nil =>
      have hlen := List.drop_eq_nil_iff.mp hdrop
      rw [hdrop] at ha
      have hnext : Latch.next ⟨s, false⟩ = (none, ⟨{ s with asked := s.asked + 1 }, true⟩) := by
        simp [Latch.next, Supply.pull_of_nil ha]
      rw [hnext]
      refine ⟨⟨?_, hle, fun _ => Nat.le_antisymm hle hlen⟩, rfl⟩
      show s.answers = _
      rw [ha, hdrop]
    | cons x rest =>
      have hlt : s.given < xs.length := by
        have hlen := congrArg List.length hdrop
        rw [List.length_drop, List.length_cons] at hlen
        omega
      rw [hdrop] at ha
      let s' : Supply α :=
        { s with answers := rest.map some, given := s.given + 1, asked := s.asked + 1 }
      have hnext : Latch.next ⟨s, false⟩ = (some x, ⟨s', false⟩) := by
        simp [Latch.next, Supply.pull_of_cons ha, s']
      rw [hnext]
      refine ⟨⟨?_, hlt, fun hf => absurd hf (by simp)⟩, rfl⟩
      show rest.map some = (xs.drop (s.given + 1)).map some
      rw [← List.drop_drop, hdrop]
      rfl

theorem take (n : Nat) : Serves xs (Pull.take n l).2 ∧
    (Pull.take n l).2.inner.given = l.inner.given + (Pull.take n l).1.length := by
  induction n generalizing l with
  | zero => exact ⟨h, rfl⟩
  | succ n ih =>
    obtain ⟨hs, hg⟩ := h.next
    cases hp : Pull.pull l with
    | mk answer m =>
      rw [Latch.pull_eq] at hp
      rw [hp] at hs hg
      cases answer with
      | none =>
        rw [Pull.take_of_none hp]
        exact ⟨hs, hg⟩
      | some a =>
        change Serves xs m at hs
        change m.inner.given = l.inner.given + 1 at hg
        obtain ⟨hs', hg'⟩ := ih hs
        rw [Pull.take_of_some hp]
        refine ⟨hs', ?_⟩
        rw [hg', hg, List.length_cons]
        omega

theorem collect : Serves xs (Pull.collect l).2 ∧ (Pull.collect l).2.inner.given = xs.length := by
  have hlen := congrArg List.length h.elements_eq
  rw [List.length_drop] at hlen
  have hle := h.given_le
  obtain ⟨hs, hg⟩ := h.take ((Pull.elements l).length + 1)
  rw [Pull.take_of_lt (Nat.lt_succ_self _)] at hs hg
  refine ⟨hs, ?_⟩
  rw [hg]
  change l.inner.given + (Pull.elements l).length = _
  omega

end Serves

theorem Supply.given_take {xs : List α} {n : Nat} (hn : n ≤ xs.length) :
    (Pull.take n (Supply.ofList xs)).2.given = n := by
  have hgiven := ((Serves.ofList xs).take n).2
  rw [Latch.snd_take_mk (by rwa [elements_ofList]), Pull.fst_take, Latch.elements_mk,
    elements_ofList, List.length_take, Nat.min_eq_left hn] at hgiven
  exact hgiven.trans (Nat.zero_add n)

end Streaming
