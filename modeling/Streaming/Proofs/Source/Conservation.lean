import Streaming.Proofs.Source.Cursor

/-!
# What a source holds

Every element of an input has been consumed, is pending, or is still to be pulled, in this order and
once (`Balanced`). A run of a parser remembers the elements before its offset, none of them from
before it began (`Remembers`), so that nothing is handed back that it was not offered.

Remembered and pending elements together are never more than can be handed back at once: an element
is pulled only when none is pending, and the window has room for it or forgets another one
(`Stocked`). This bounds what is pending when a run is over.
-/

namespace Streaming.Source

universe u v w w' x

variable {σ : Type u} {α : Type v} {τ : Type w} {β : Type x} [FinitePull σ α]

/-! ## What has been pulled -/

/-- What is left of an input from which `n` elements have been pulled. If its end has been seen too,
these are all of them, and any request after that has come to nothing. -/
inductive Pulled (input : σ) : Nat → Latch σ → Prop where
  | elements {n : Nat} (hle : n ≤ (Pull.elements input).length) :
    Pulled input n ⟨(Pull.take n input).2, false⟩
  | ended : Pulled input (Pull.elements input).length ⟨(Pull.collect input).2, true⟩
  | past {n : Nat} {l : Latch σ} (h : Pulled input n l) (hl : l.ended = true) :
    Pulled input n l.past

namespace Pulled

variable {input : σ} {n : Nat} {l m : Latch σ}

theorem start (input : σ) : Pulled input 0 ⟨input, false⟩ :=
  .elements (Nat.zero_le _)

theorem length_eq (h : Pulled input n l) (hl : l.ended = true) :
    n = (Pull.elements input).length := by
  induction h with
  | elements hle => cases hl
  | ended => rfl
  | past _ hend ih => exact ih hend

theorem of_not_ended (h : Pulled input n l) (hl : l.ended = false) :
    n ≤ (Pull.elements input).length ∧ l = ⟨(Pull.take n input).2, false⟩ := by
  cases h with
  | elements hle => exact ⟨hle, rfl⟩
  | ended => cases hl
  | past _ hend =>
    rw [Latch.ended_past, hend] at hl
    cases hl

theorem le (h : Pulled input n l) : n ≤ (Pull.elements input).length := by
  cases hl : l.ended with
  | true => exact Nat.le_of_eq (h.length_eq hl)
  | false => exact (h.of_not_ended hl).1

theorem elements_eq (h : Pulled input n l) : Pull.elements l = (Pull.elements input).drop n := by
  cases hl : l.ended with
  | true => rw [Latch.elements_of_ended hl, h.length_eq hl, List.drop_length]
  | false =>
    obtain ⟨hle, rfl⟩ := h.of_not_ended hl
    rw [Latch.elements_mk, Pull.elements_take hle]

theorem next_some (h : Pulled input n l) {a : α} (hn : l.next = (some a, m)) :
    Pulled input (n + 1) m := by
  cases hl : l.ended with
  | true =>
    rw [Latch.next_of_ended hl] at hn
    cases hn
  | false =>
    obtain ⟨hle, rfl⟩ := h.of_not_ended hl
    cases hp : Pull.pull (Pull.take n input).2 with
    | mk answer rest =>
      cases answer with
      | none =>
        simp only [Latch.next, hp] at hn
        cases hn
      | some b =>
        simp only [Latch.next, hp] at hn
        cases hn
        have hlen := congrArg List.length (Pull.elements_take hle)
        rw [Pull.elements_of_some hp, List.length_cons, List.length_drop] at hlen
        have hrest : (Pull.take (n + 1) input).2 = rest := by
          rw [Pull.snd_take_add hle, Pull.take_of_some hp]
          rfl
        rw [← hrest]
        exact .elements (by omega)

theorem next_none (h : Pulled input n l) (hn : l.next = (none, m)) : Pulled input n m := by
  cases hl : l.ended with
  | true =>
    rw [Latch.next_of_ended hl] at hn
    cases hn
    exact .past h hl
  | false =>
    obtain ⟨hle, rfl⟩ := h.of_not_ended hl
    cases hp : Pull.pull (Pull.take n input).2 with
    | mk answer rest =>
      cases answer with
      | some b =>
        simp only [Latch.next, hp] at hn
        cases hn
      | none =>
        simp only [Latch.next, hp] at hn
        cases hn
        have hlen := congrArg List.length (Pull.elements_take hle)
        rw [Pull.elements_of_none hp, List.length_nil, List.length_drop] at hlen
        have hrest : (Pull.collect input).2 = rest := by
          rw [← Pull.snd_collect_take hle, Pull.collect_of_none hp]
        obtain rfl : n = (Pull.elements input).length := by omega
        rw [← hrest]
        exact .ended

end Pulled

/-! ## What is remembered and pending -/

@[simp] theorem pending_fetch (s : Source σ α) : s.fetch.2.pending = s.pending.tail := by
  unfold fetch
  split <;> rename_i hp <;> simp [hp]

theorem pulled_fetch {input : σ} {s : Source σ α} (h : ∃ n, Pulled input n s.input) :
    ∃ n, Pulled input n s.fetch.2.input := by
  obtain ⟨n, hn⟩ := h
  unfold fetch
  split
  · exact ⟨n, hn⟩
  · cases hnext : s.input.next with
    | mk answer l =>
      cases answer with
      | none => exact ⟨n, hn.next_none hnext⟩
      | some a => exact ⟨n + 1, hn.next_some hnext⟩

omit [FinitePull σ α] in
theorem length_recent_retain (s : Source σ α) (a : α) :
    (s.retain a).recent.length =
      min (s.recent.length + 1) (max s.recent.length backtrackLimit) := by
  unfold retain
  split
  · simp only [List.length_append, List.length_singleton]
    omega
  · simp only [List.length_append, List.length_tail, List.length_singleton]
    unfold backtrackLimit at *
    omega

omit [FinitePull σ α] in
theorem input_retain (s : Source σ α) (a : α) : (s.retain a).input = s.input := by
  unfold retain
  split <;> rfl

omit [FinitePull σ α] in
theorem pending_retain (s : Source σ α) (a : α) : (s.retain a).pending = s.pending := by
  unfold retain
  split <;> rfl

/-- The input has been pulled element by element, and what is remembered and pending could be handed
back at once. -/
structure Stocked (input : σ) (s : Source σ α) : Prop where
  pulled : ∃ n, Pulled input n s.input
  length_le : s.recent.length + s.pending.length ≤ backtrackLimit

namespace Stocked

variable {input : σ} {s t : Source σ α}

theorem ofInput (input : σ) : Stocked input (Source.ofInput input) :=
  ⟨⟨0, Pulled.start input⟩, Nat.zero_le _⟩

theorem fetch (h : Stocked input s) {answer : Option α} (hf : s.fetch = (answer, t)) :
    (∃ n, Pulled input n t.input) ∧ t.recent = s.recent ∧ t.pending = s.pending.tail := by
  have hin := pulled_fetch h.pulled
  have hrec := recent_fetch s
  have hpend := pending_fetch s
  rw [hf] at hin hrec hpend
  exact ⟨hin, hrec, hpend⟩

theorem fetched (h : Stocked input s) {answer : Option α} (hf : s.fetch = (answer, t)) :
    Stocked input t := by
  obtain ⟨hin, hrec, hpend⟩ := h.fetch hf
  have hle := h.length_le
  refine ⟨hin, ?_⟩
  rw [hrec, hpend, List.length_tail]
  omega

theorem retain (h : Stocked input s) {a : α} (hf : s.fetch = (some a, t)) :
    Stocked input (t.retain a) := by
  obtain ⟨hin, hrec, hpend⟩ := h.fetch hf
  have hle := h.length_le
  refine ⟨by rwa [input_retain], ?_⟩
  rw [pending_retain, length_recent_retain, hrec, hpend, List.length_tail]
  -- The window grows by an element that was pending, or when nothing is pending and it has room.
  omega

theorem putBack (h : Stocked input s) (hs : s.recent = []) {a : α} (hf : s.fetch = (some a, t)) :
    Stocked input { t with pending := a :: t.pending } := by
  obtain ⟨hin, hrec, hpend⟩ := h.fetch hf
  have hle := h.length_le
  refine ⟨hin, ?_⟩
  rw [hrec, hpend, hs, List.length_cons, List.length_tail, List.length_nil]
  unfold backtrackLimit at *
  omega

theorem handBack (h : Stocked input s) {n : Nat} (hb : s.handBack n = .ok t) : Stocked input t := by
  have hle := h.length_le
  obtain ⟨hn, rfl⟩ := handBack_eq_ok hb
  refine ⟨h.pulled, ?_⟩
  simp only [List.length_take, List.length_append, List.length_drop]
  omega

theorem settle (h : Stocked input s) : Stocked input s.settle := by
  have hle := h.length_le
  refine ⟨h.pulled, ?_⟩
  show 0 + s.pending.length ≤ _
  omega

theorem kept (input : σ) : Kept (Stocked input) where
  fetch_none h hf := h.fetched hf
  retain h hf := h.retain hf
  pass h _ hf := ⟨(h.fetched hf).pulled, (h.fetched hf).length_le⟩
  putBack h hs hf := h.putBack hs hf
  handBack h hb := h.handBack hb
  settle h := h.settle
  note h _ := ⟨h.pulled, h.length_le⟩

end Stocked

/-! ## Between operations -/

/-- Between operations a source remembers nothing; what is pending are the elements that were pulled
and not consumed; these and the unread elements are the input, no more of it being pending than can
be handed back at once. -/
structure Balanced (input : σ) (s : Source σ α) : Prop where
  recent_eq : s.recent = []
  pulled : ∃ n, Pulled input n s.input ∧ s.offset ≤ n ∧
    s.pending = ((Pull.elements input).take n).drop s.offset
  elements_eq : Pull.elements input =
    (Pull.elements input).take s.offset ++ s.pending ++ Pull.elements s.input
  length_pending_le : s.pending.length ≤ backtrackLimit

theorem Reachable.balanced {input : σ} {s : Source σ α} (h : Reachable input s) :
    Balanced input s := by
  have hr := h.rests
  have hs : Stocked input s := ((Stocked.kept input).reachable (.ofInput input) h).holds
  obtain ⟨n, hn⟩ := hs.pulled
  have hdrop : (Pull.elements input).drop s.offset = s.pending ++ Pull.elements s.input :=
    hr.reads.remaining_eq.symm
  have hlen := congrArg List.length hdrop
  rw [List.length_append, hn.elements_eq, List.length_drop, List.length_drop] at hlen
  have hoff := hr.reads.offset_le
  have hle := hn.le
  refine ⟨hr.recent_eq, ⟨n, hn, by omega, ?_⟩, ?_, ?_⟩
  · rw [List.drop_take, hdrop, List.take_left' (by omega)]
  · rw [List.append_assoc, ← hdrop, List.take_append_drop]
  · exact Nat.le_trans (Nat.le_add_left ..) hs.length_le

/-! ## Within a run -/

/-- The sources within a run of a parser: between its turns, after the last of them, and within a
turn, when an element has been offered and some of the elements asked for have been handed back. -/
inductive Within (p : Parser α τ β) (s : Source σ α) : Source σ α → Prop where
  | turn (n : Nat) : Within p s (s.turns p n).source
  | offered {n k : Nat} {state : τ} {q t r : Source σ α} {a : α}
    (ht : s.turns p n = .again state q) (hf : q.fetch = (some a, t))
    (hb : (t.retain a).handBack k = .ok r) : Within p s r

theorem Carried.turns {P : Source σ α → Prop} (hP : Carried P) {s : Source σ α} (h : P s.settle)
    (p : Parser α τ β) (n : Nat) : P (s.turns p n).source := by
  induction n with
  | zero =>
    rw [Source.turns, Turn.after, opening]
    split <;> exact h
  | succ n ih =>
    rw [turns_succ]
    cases ht : s.turns p n with
    | done state q | broken f q =>
      rw [ht] at ih
      exact ih
    | again state q =>
      rw [ht] at ih
      exact hP.turn ih p state

theorem Carried.within {P : Source σ α → Prop} (hP : Carried P) {p : Parser α τ β}
    {s q : Source σ α} (h : P s.settle) (hq : Within p s q) : P q := by
  cases hq with
  | turn n => exact hP.turns h p n
  | @offered n k state q t r a ht hf hb =>
    have hq := hP.turns h p n
    rw [ht] at hq
    exact hP.handBack (hP.retain hq hf) hb

/-- A run that began at `origin` remembers the elements before the offset, as many as can be handed
back at once and none from before `origin`. -/
structure Remembers (xs : List α) (origin : Nat) (s : Source σ α) : Prop where
  recent_eq : s.recent = (xs.take s.offset).drop (s.offset - s.recent.length)
  length_recent_le : s.recent.length ≤ backtrackLimit
  origin_le : origin + s.recent.length ≤ s.offset

theorem Reads.recent_eq {xs : List α} {s : Source σ α} (h : Reads xs s) :
    s.recent = (xs.take s.offset).drop (s.offset - s.recent.length) := by
  have hpassed : s.offset - s.recent.length = s.passed := Nat.add_sub_cancel ..
  rw [hpassed, List.drop_take, h.drop_passed, offset, Nat.add_sub_cancel_left, List.take_left]

/-- What a run has behind it for good is not before its beginning. -/
theorem carried_passed (origin : Nat) : Carried fun s : Source σ α => origin ≤ s.passed where
  fetch_none {s t} h hf := by
    have hp := passed_fetch s
    rw [hf] at hp
    exact Nat.le_trans h (Nat.le_of_eq hp.symm)
  retain {s t a} h hf := by
    have hp := passed_fetch s
    rw [hf] at hp
    exact Nat.le_trans h (Nat.le_trans (Nat.le_of_eq hp.symm) (passed_le_retain t a))
  handBack h hb := Nat.le_trans h (Nat.le_of_eq (passed_handBack hb).symm)

theorem Within.remembers {input : σ} {p : Parser α τ β} {s q : Source σ α}
    (h : Reachable input s) (hq : Within p s q) :
    Remembers (Pull.elements input) s.offset q := by
  have hs : Stocked input s := ((Stocked.kept input).reachable (.ofInput input) h).holds
  have hreads := (Reads.kept _).within h.rests.reads.settle hq
  have hstocked := (Stocked.kept input).within hs.settle hq
  have hpassed := (carried_passed s.offset).within (Nat.le_refl _) hq
  exact {
    recent_eq := hreads.recent_eq
    length_recent_le := Nat.le_trans (Nat.le_add_right ..) hstocked.length_le
    origin_le := Nat.add_le_add_right hpassed _ }

/-! ## The whole -/

/-- Dropping is looking ahead and consuming in turn, whatever the predicate remembers. -/
theorem Reachable.dropWith {input : σ} {s : Source σ α} (h : Reachable.{u, v, x} input s)
    {ρ : Type w'} (q : ρ → α → Bool × ρ) (memory : ρ) :
    Reachable.{u, v, x} input (s.dropWith q memory).2 := by
  fun_induction Source.dropWith q memory s with
  | case1 m s t hf =>
    have hp : s.perform (.next : Operation α) = some (.ok (.element none), t) := by
      simp [Source.perform, Source.next, hf]
    exact .perform h hp
  | case2 m s a t hf verdict hv dropped ih =>
    have hp : s.perform (.next : Operation α) = some (.ok (.element (some a)), t.pass) := by
      simp [Source.perform, Source.next, hf]
    exact ih (.perform h hp)
  | case3 m s a t hf verdict hv =>
    have hp : s.perform (.peek : Operation α) =
        some (.ok (.element (some a)), { t with pending := a :: t.pending }) := by
      simp [Source.perform, Source.peek, hf]
    exact .perform h hp

/-- **Nothing is lost, repeated or hoarded.** Between operations a source balances; dropping by a
predicate that remembers leads to no other sources than the operations do; and within a run of any
parser, the elements remembered are those before the offset, and none from before the run. -/
theorem conservation {input : σ} {s : Source σ α} (h : Reachable.{u, v, x} input s) :
    Balanced input s ∧
      (∀ {ρ : Type w'} (q : ρ → α → Bool × ρ) (memory : ρ),
        Reachable.{u, v, x} input (s.dropWith q memory).2) ∧
      ∀ {τ β : Type w} (p : Parser α τ β) {q : Source σ α}, Within p s q →
        Remembers (Pull.elements input) s.offset q :=
  ⟨h.balanced, h.dropWith, fun _ _ hq => hq.remembers h⟩

/-- After a run that hands two elements back, and within the next run, which is offered the first of
them again. -/
theorem conservation_beforeZero :
    ∃ s q : Source (Supply Nat) Nat,
      Reachable.{0, 0, 0} (Supply.ofList [5, 6, 7, 0, 8]) s ∧ s.offset = 2 ∧ s.pending = [7, 0] ∧
        Balanced (Supply.ofList [5, 6, 7, 0, 8]) s ∧
        s.turns beforeZero 1 = .again 1 q ∧ q.recent = [7] ∧ Remembers [5, 6, 7, 0, 8] 2 q := by
  have hd : (Source.ofInput (Supply.ofList [5, 6, 7, 0, 8])).settle.drive beforeZero 0 =
      some (.ok 2, ⟨⟨⟨[some 8], 4, 4, none⟩, false⟩, [7, 0], [5, 6], 0, []⟩) :=
    drive_of_after (n := 4) rfl
  have hp : (Source.ofInput (Supply.ofList [5, 6, 7, 0, 8])).perform (.parse beforeZero) =
      some (.ok (.outcome (.ok 2)), ⟨⟨⟨[some 8], 4, 4, none⟩, false⟩, [7, 0], [], 2, []⟩) :=
    congrArg (Option.map _) (congrArg (Option.map (conclude beforeZero)) hd)
  have hs := Reachable.perform.{0, 0, 0} .start hp
  obtain ⟨hbalanced, -, hremembers⟩ := conservation.{0, 0, 0, 0, 0} hs
  have hq := hremembers beforeZero (.turn 1)
  rw [Supply.elements_ofList] at hq
  exact ⟨_, _, hs, rfl, rfl, hbalanced, rfl, rfl, hq⟩

end Streaming.Source
