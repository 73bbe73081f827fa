import Streaming.Proofs.Source.Ahead

/-!
# What a source still reads

Over a finite input, the elements still to be read from a source are the pending ones and those of
its input. With those that it remembers, they make up the rest of the input from the place up to
which everything is forgotten: the source reads `xs` (`Reads`). Every reachable source reads the
elements of its input (`Reachable.rests`).
-/

namespace Streaming

universe u v w x

namespace Source

variable {σ : Type u} {α : Type v} {τ : Type w} {β : Type x} [FinitePull σ α]

/-- The elements still to be read. -/
def remaining (s : Source σ α) : List α := s.pending ++ Pull.elements s.input

@[simp] theorem remaining_pass (s : Source σ α) : s.pass.remaining = s.remaining := rfl

@[simp] theorem remaining_note (s : Source σ α) (n : Notice) :
    (s.note n).remaining = s.remaining := rfl

@[simp] theorem remaining_retain (s : Source σ α) (a : α) :
    (s.retain a).remaining = s.remaining := by
  unfold retain
  split <;> rfl

theorem remaining_of_fetch_some {s t : Source σ α} {a : α} (h : s.fetch = (some a, t)) :
    s.remaining = a :: t.remaining := by
  unfold fetch at h
  split at h
  · rename_i b pending hp
    cases h
    simp [remaining, hp]
  · rename_i hp
    simp only [Prod.mk.injEq] at h
    have hn : Pull.pull s.input = (some a, s.input.next.2) := Prod.ext h.1 rfl
    simp [remaining, ← h.2, hp, Pull.elements_of_some hn]

theorem remaining_of_fetch_none {s t : Source σ α} (h : s.fetch = (none, t)) :
    s.remaining = [] ∧ t.remaining = [] := by
  unfold fetch at h
  split at h
  · cases h
  · rename_i hp
    simp only [Prod.mk.injEq] at h
    have hn : s.input.next = (none, s.input.next.2) := Prod.ext h.1 rfl
    have h1 : Pull.elements s.input = [] := Pull.elements_of_none hn
    have h2 : Pull.elements s.input.next.2 = [] := Latch.elements_of_next_none hn
    simp [remaining, ← h.2, hp, h1, h2]

/-- Reading a source to its end gives the elements still to be read. -/
theorem elements_eq_remaining (s : Source σ α) : Pull.elements s = s.remaining := by
  induction s using Pull.collect.induct with
  | case1 s t h =>
    have hn : s.next = (none, t) := h
    unfold next at hn
    split at hn
    · rename_i r hf
      rw [Pull.elements_of_none h, (remaining_of_fetch_none hf).1]
    · cases hn
  | case2 s a t h ih =>
    have hn : s.next = (some a, t) := h
    unfold next at hn
    split at hn
    · cases hn
    · rename_i b r hf
      cases hn
      rw [Pull.elements_of_some h, ih, remaining_of_fetch_some hf, remaining_pass]

/-! ## Dropping -/

section Dropping

variable (p : α → Bool)

theorem remaining_dropWhile (s : Source σ α) :
    (s.dropWhile p).2.remaining = s.remaining.dropWhile p := by
  fun_induction dropWhile p s with
  | case1 s t h =>
    obtain ⟨hs, ht⟩ := remaining_of_fetch_none h
    rw [hs, ht]
    rfl
  | case2 s a t h hp dropped ih =>
    rw [remaining_of_fetch_some h, List.dropWhile_cons_of_pos hp, ← remaining_pass t]
    exact ih
  | case3 s a t h hp =>
    rw [remaining_of_fetch_some h, List.dropWhile_cons_of_neg hp]
    rfl

theorem elements_dropWhile (s : Source σ α) :
    Pull.elements (s.dropWhile p).2 = (Pull.elements s).dropWhile p := by
  rw [elements_eq_remaining, elements_eq_remaining, remaining_dropWhile]

/-- The number of elements dropped is that of the elements in front that satisfy the predicate. -/
theorem fst_dropWhile (s : Source σ α) :
    (s.dropWhile p).1 = ((Pull.elements s).takeWhile p).length := by
  rw [elements_eq_remaining]
  fun_induction dropWhile p s with
  | case1 s t h =>
    rw [(remaining_of_fetch_none h).1]
    rfl
  | case2 s a t h hp dropped ih =>
    rw [remaining_of_fetch_some h, List.takeWhile_cons_of_pos hp, List.length_cons,
      ← remaining_pass t]
    exact congrArg (· + 1) ih
  | case3 s a t h hp =>
    rw [remaining_of_fetch_some h, List.takeWhile_cons_of_neg hp]
    rfl

/-- Each element dropped is consumed. -/
theorem offset_dropWhile (s : Source σ α) :
    (s.dropWhile p).2.offset = s.offset + (s.dropWhile p).1 := by
  have hfetch {s t : Source σ α} {answer : Option α} (h : s.fetch = (answer, t)) :
      t.offset = s.offset := by
    have hoff := offset_fetch s
    rwa [h] at hoff
  fun_induction dropWhile p s with
  | case1 s t h => exact hfetch h
  | case2 s a t h hp dropped ih =>
    have hpass : t.pass.offset = t.offset + 1 := Nat.add_right_comm ..
    have hoff := hfetch h
    show (t.pass.dropWhile p).2.offset = s.offset + ((t.pass.dropWhile p).1 + 1)
    rw [ih, hpass]
    omega
  | case3 s a t h hp =>
    show t.offset = s.offset
    exact hfetch h

end Dropping

/-! ## Reading a list -/

/-- The source is on the line of `xs`, and has forgotten no more than its elements. -/
structure Reads (xs : List α) (s : Source σ α) : Prop where
  passed_le : s.passed ≤ xs.length
  along : Along (xs[·]?) s

theorem ahead_eq_getElem? (s : Source σ α) (i : Nat) : s.ahead i = s.remaining[i]? := by
  rw [ahead, Line.behind_congr (Pull.nth_eq_getElem? s.input), Line.behind_getElem?]
  rfl

namespace Reads

variable {xs : List α} {s t : Source σ α}

/-- It remembers the elements behind those that it has forgotten, and will read the others. -/
theorem drop_passed (h : Reads xs s) : xs.drop s.passed = s.recent ++ s.remaining := by
  refine List.ext_getElem? fun i => ?_
  rw [List.getElem?_drop, ← Line.behind_getElem?]
  exact (h.along i).trans (Line.behind_congr (ahead_eq_getElem? s) s.recent i)

theorem length_eq (h : Reads xs s) : xs.length = s.offset + s.remaining.length := by
  have h1 := congrArg List.length h.drop_passed
  have h2 := h.passed_le
  simp only [List.length_drop, List.length_append] at h1
  unfold offset
  omega

theorem offset_le (h : Reads xs s) : s.offset ≤ xs.length := by
  have := h.length_eq
  omega

theorem remaining_eq (h : Reads xs s) : s.remaining = xs.drop s.offset := by
  rw [offset, ← List.drop_drop, h.drop_passed, List.drop_left]

theorem elements_eq (h : Reads xs s) : Pull.elements s = xs.drop s.offset := by
  rw [elements_eq_remaining, h.remaining_eq]

theorem ofInput (input : σ) : Reads (Pull.elements input) (Source.ofInput input) where
  passed_le := Nat.zero_le _
  along i := by rw [← Along.ofInput input i, Pull.nth_eq_getElem?]

theorem settle (h : Reads xs s) : Reads xs s.settle := ⟨h.offset_le, h.along.settle⟩

theorem note (h : Reads xs s) (n : Notice) : Reads xs (s.note n) := ⟨h.passed_le, h.along.note n⟩

theorem passed_fetch_le (h : Reads xs s) {answer : Option α} (hf : s.fetch = (answer, t)) :
    t.passed ≤ xs.length := by
  have hpassed := passed_fetch s
  rw [hf] at hpassed
  exact Nat.le_trans (Nat.le_of_eq hpassed) h.passed_le

/-- What is fetched lies within the list. -/
theorem offset_fetch_lt (h : Reads xs s) {a : α} (hf : s.fetch = (some a, t)) :
    t.offset < xs.length := by
  have hoff := offset_fetch s
  have hlen := h.length_eq
  rw [hf] at hoff
  rw [remaining_of_fetch_some hf, List.length_cons] at hlen
  simp only at hoff
  omega

theorem fetch_none (h : Reads xs s) (hf : s.fetch = (none, t)) : Reads xs t :=
  ⟨h.passed_fetch_le hf, h.along.fetch_none hf⟩

theorem retain (h : Reads xs s) {a : α} (hf : s.fetch = (some a, t)) : Reads xs (t.retain a) := by
  refine ⟨?_, h.along.retain hf⟩
  have hlt := h.offset_fetch_lt hf
  have hoff := offset_retain t a
  unfold offset at hlt hoff
  omega

theorem pass (h : Reads xs s) (hs : s.recent = []) {a : α} (hf : s.fetch = (some a, t)) :
    Reads xs t.pass :=
  ⟨Nat.lt_of_le_of_lt (Nat.le_add_right ..) (h.offset_fetch_lt hf), h.along.pass hs hf⟩

theorem putBack (h : Reads xs s) {a : α} (hf : s.fetch = (some a, t)) :
    Reads xs { t with pending := a :: t.pending } where
  passed_le := (h.passed_fetch_le hf : t.passed ≤ xs.length)
  along := h.along.putBack hf

theorem handBack (h : Reads xs s) {n : Nat} (hb : s.handBack n = .ok t) : Reads xs t :=
  ⟨Nat.le_trans (Nat.le_of_eq (passed_handBack hb)) h.passed_le, h.along.handBack hb⟩

theorem kept (xs : List α) : Kept (Reads xs : Source σ α → Prop) where
  fetch_none h hf := h.fetch_none hf
  retain h hf := h.retain hf
  pass h hs hf := h.pass hs hf
  putBack h _ hf := h.putBack hf
  handBack h hb := h.handBack hb
  settle h := h.settle
  note h n := h.note n

end Reads

theorem Rests.reads {xs : List α} {s : Source σ α} (h : Rests (Reads xs) s) : Reads xs s :=
  h.holds

/-- Every reachable source reads the elements of its input and remembers nothing. -/
theorem Reachable.rests {input : σ} {s : Source σ α} (h : Reachable input s) :
    Rests (Reads (Pull.elements input)) s :=
  (Reads.kept _).reachable (.ofInput input) h

end Source

end Streaming
