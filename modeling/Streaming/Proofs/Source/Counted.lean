import Mathlib.Data.List.Induction
import Streaming.Proofs.Source.Turns
import Streaming.Source.Counted

/-!
# The counter of a source

The counter stands at the offset: as far behind the elements that a run no longer remembers as there
are elements that it does (`Counted.Tallies`). An element is handed back only if it is remembered,
so the counter is above zero then, and it is never taken below (`Counted.Tallies.rewind`). What a
session sees of a source with a counter is therefore what it sees of one whose offset is made up
(`Counted.session_eq`).
-/

namespace Streaming

universe u v w x

/-- Two results are related if each has one whenever the other does. -/
theorem rel_of_some {A : Type u} {B : Type v} {R : A → B → Prop} {x : Option A} {y : Option B}
    (hx : ∀ a, x = some a → ∃ b, y = some b ∧ R a b) (hy : ∀ b, y = some b → ∃ a, x = some a) :
    Option.Rel R x y := by
  cases x with
  | some a =>
    obtain ⟨b, rfl, hab⟩ := hx a rfl
    exact .some hab
  | none =>
    cases y with
    | none => exact .none
    | some b =>
      obtain ⟨a, ha⟩ := hy b rfl
      cases ha

namespace Counted

variable {σ : Type u} {α : Type v} {τ : Type w} {β : Type x}

/-- The same source, with the counter at the offset. -/
structure Tallies (c : Counted σ α) (s : Source σ α) : Prop where
  input_eq : c.input = s.input
  pending_eq : c.pending = s.pending
  history_eq : c.history = s.recent
  offset_eq : c.offset = s.offset
  notices_eq : c.notices = s.notices
  length_le : s.recent.length ≤ backtrackLimit

/-- The same answer, with the counter at the offset. -/
structure Agrees {ε : Type x} (a : ε × Source σ α) (b : ε × Counted σ α) : Prop where
  answer_eq : b.1 = a.1
  tallies : b.2.Tallies a.2

namespace Tallies

theorem ofInput (input : σ) : (Counted.ofInput input : Counted σ α).Tallies (.ofInput input) :=
  ⟨rfl, rfl, rfl, rfl, rfl, Nat.zero_le _⟩

variable {c : Counted σ α} {s : Source σ α}

theorem eq_mk (h : c.Tallies s) : c = ⟨s.input, s.pending, s.recent, s.offset, s.notices⟩ := by
  obtain ⟨input, pending, history, offset, notices⟩ := c
  obtain ⟨hinput, hpending, hhistory, hoffset, hnotices, -⟩ := h
  simp only at hinput hpending hhistory hoffset hnotices
  rw [hinput, hpending, hhistory, hoffset, hnotices]

theorem clear (h : c.Tallies s) : c.clear.Tallies s.settle :=
  ⟨h.input_eq, h.pending_eq, rfl, h.offset_eq, h.notices_eq, Nat.zero_le _⟩

theorem note (h : c.Tallies s) (n : Notice) : (c.note n).Tallies (s.note n) :=
  ⟨h.input_eq, h.pending_eq, h.history_eq, h.offset_eq, congrArg (· ++ [n]) h.notices_eq,
    h.length_le⟩

/-- An element that was consumed can be remembered: the counter has moved on already. -/
theorem remember (h : c.Tallies s.pass) (a : α) : (c.remember a).Tallies (s.retain a) := by
  have hoff : c.offset = (s.retain a).offset := by
    rw [h.offset_eq, Source.offset_retain]
    simp only [Source.offset, Source.pass]
    omega
  have hlen : s.recent.length ≤ backtrackLimit := h.length_le
  have hhistory : c.history = s.recent := h.history_eq
  have hpending : c.pending = s.pending := h.pending_eq
  unfold Counted.remember
  rw [hhistory]
  unfold Source.retain at hoff ⊢
  by_cases hroom : s.recent.length < backtrackLimit
  · rw [if_neg (Nat.ne_of_lt hroom)]
    rw [if_pos hroom] at hoff ⊢
    refine ⟨h.input_eq, hpending, rfl, hoff, h.notices_eq, ?_⟩
    rw [List.length_append]
    exact hroom
  · rw [if_pos (Nat.le_antisymm hlen (Nat.not_lt.mp hroom))]
    rw [if_neg hroom] at hoff ⊢
    refine ⟨h.input_eq, hpending, rfl, hoff, h.notices_eq, ?_⟩
    rw [List.length_append, List.length_tail, List.length_singleton]
    have hpos : 0 < backtrackLimit := by decide
    omega

/-! ## Handing back -/

/-- The last element that is remembered is handed back: it was counted, so the counter is above
zero. -/
theorem stepBack (h : c.Tallies s) {kept : List α} {a : α} (ha : s.recent = kept ++ [a]) :
    ∃ d, c.stepBack = .ok d ∧ d.Tallies { s with pending := a :: s.pending, recent := kept } := by
  have hlen := h.length_le
  have hoff := h.offset_eq
  simp only [Source.offset, ha, List.length_append, List.length_singleton] at hlen hoff
  have hlast : c.history.getLast? = some a := by
    rw [h.history_eq, ha, List.getLast?_concat]
  unfold Counted.stepBack
  rw [hlast]
  simp only
  rw [if_neg (by omega)]
  refine ⟨_, rfl, h.input_eq, congrArg (a :: ·) h.pending_eq, ?_, ?_, h.notices_eq, ?_⟩
  · rw [h.history_eq, ha, List.dropLast_concat]
  · change c.offset - 1 = s.passed + kept.length
    omega
  · change kept.length ≤ backtrackLimit
    omega

theorem stepsBack (h : c.Tallies s) (kept back : List α) (hback : s.recent = kept ++ back) :
    ∃ d, c.stepsBack back.length = .ok d ∧
      d.Tallies { s with pending := back ++ s.pending, recent := kept } := by
  induction back using List.reverseRecOn generalizing c s with
  | nil =>
    rw [List.append_nil] at hback
    subst hback
    exact ⟨c, rfl, h⟩
  | append_singleton back a ih =>
    rw [← List.append_assoc] at hback
    obtain ⟨d, hd, hstep⟩ := h.stepBack hback
    obtain ⟨e, he, hsteps⟩ := ih hstep rfl
    refine ⟨e, ?_, ?_⟩
    · rw [List.length_append, List.length_singleton, Counted.stepsBack, hd]
      exact he
    · rw [List.append_assoc]
      exact hsteps

/-- Elements are handed back exactly if they are remembered, and no fault comes of the counter. -/
theorem rewind (h : c.Tallies s) (n : Nat) :
    (∃ f, s.handBack n = .error f ∧ c.rewind n = .error f) ∨
      ∃ t d, s.handBack n = .ok t ∧ c.rewind n = .ok d ∧ d.Tallies t := by
  unfold Source.handBack Counted.rewind
  rw [h.history_eq]
  by_cases hn : n ≤ s.recent.length
  · rw [if_pos hn, if_pos hn]
    have hsplit := (List.take_append_drop (s.recent.length - n) s.recent).symm
    obtain ⟨d, hd, htallies⟩ := h.stepsBack _ _ hsplit
    rw [List.length_drop, Nat.sub_sub_self hn] at hd
    exact .inr ⟨_, d, rfl, hd, htallies⟩
  · rw [if_neg hn, if_neg hn]
    exact .inl ⟨_, rfl, rfl⟩

/-- What is handed back has been counted. -/
theorem rewind_ne (h : c.Tallies s) (n : Nat) : c.rewind n ≠ .error .subtractionOverflow := by
  obtain ⟨f, hs, hc⟩ | ⟨t, d, -, hc, -⟩ := h.rewind n
  · obtain ⟨-, rfl⟩ := Source.handBack_eq_error hs
    rw [hc]
    exact nofun
  · rw [hc]
    exact nofun

section Requests

variable [Pull σ α]

/-! ## Requests -/

theorem next (h : c.Tallies s) :
    (∃ t d, s.fetch = (none, t) ∧ c.next = (none, d) ∧ d.Tallies t) ∨
      ∃ a t d, s.fetch = (some a, t) ∧ c.next = (some a, d) ∧ d.Tallies t.pass := by
  have hlen := h.length_le
  obtain rfl := h.eq_mk
  obtain ⟨input, pending, recent, passed, notices⟩ := s
  have hoff : passed + recent.length + 1 = passed + 1 + recent.length := by omega
  cases pending with
  | cons a pending => exact .inr ⟨a, _, _, rfl, rfl, rfl, rfl, rfl, hoff, rfl, hlen⟩
  | nil =>
    simp only [Source.fetch, Counted.next]
    cases input.next with
    | mk answer input =>
      cases answer with
      | none => exact .inl ⟨_, _, rfl, rfl, rfl, rfl, rfl, rfl, rfl, hlen⟩
      | some a => exact .inr ⟨a, _, _, rfl, rfl, rfl, rfl, rfl, hoff, rfl, hlen⟩

theorem agrees_next (h : c.Tallies s) : Agrees s.next c.next := by
  unfold Source.next
  obtain ⟨t, d, hs, hc, ht⟩ | ⟨a, t, d, hs, hc, ht⟩ := h.next
  · rw [hs, hc]
    exact ⟨rfl, ht⟩
  · rw [hs, hc]
    exact ⟨rfl, ht⟩

theorem peek (h : c.Tallies s) :
    (∃ t d, s.fetch = (none, t) ∧ c.peek = (none, d) ∧ d.Tallies t) ∨
      ∃ a t d, s.fetch = (some a, t) ∧ c.peek = (some a, d) ∧
        d.Tallies { t with pending := a :: t.pending } := by
  have hlen := h.length_le
  obtain rfl := h.eq_mk
  obtain ⟨input, pending, recent, passed, notices⟩ := s
  cases pending with
  | cons a pending => exact .inr ⟨a, _, _, rfl, rfl, rfl, rfl, rfl, rfl, rfl, hlen⟩
  | nil =>
    simp only [Source.fetch, Counted.peek]
    cases input.next with
    | mk answer input =>
      cases answer with
      | none => exact .inl ⟨_, _, rfl, rfl, rfl, rfl, rfl, rfl, rfl, hlen⟩
      | some a => exact .inr ⟨a, _, _, rfl, rfl, rfl, rfl, rfl, rfl, rfl, hlen⟩

theorem agrees_peek (h : c.Tallies s) : Agrees s.peek c.peek := by
  unfold Source.peek
  obtain ⟨t, d, hs, hc, ht⟩ | ⟨a, t, d, hs, hc, ht⟩ := h.peek
  · rw [hs, hc]
    exact ⟨rfl, ht⟩
  · rw [hs, hc]
    exact ⟨rfl, ht⟩

theorem agrees_atEnd (h : c.Tallies s) : Agrees s.atEnd c.atEnd :=
  ⟨congrArg Option.isNone h.agrees_peek.answer_eq, h.agrees_peek.tallies⟩

omit [Pull σ α] in
/-- An element that was looked at is dropped. -/
theorem drop {t : Source σ α} {a : α} (h : c.Tallies { t with pending := a :: t.pending }) :
    Tallies { c with pending := c.pending.tail, offset := c.offset + 1 } t.pass := by
  refine ⟨h.input_eq, congrArg List.tail h.pending_eq, h.history_eq, ?_, h.notices_eq, h.length_le⟩
  have hoff : c.offset = t.offset := h.offset_eq
  simp only [hoff, Source.offset, Source.pass]
  omega

theorem passIf (q : α → Bool) (h : c.Tallies s) :
    ∃ verdict t d, s.passIf q = (verdict, t) ∧ c.passIf q = (verdict, d) ∧ d.Tallies t := by
  unfold Source.passIf Counted.passIf
  obtain ⟨t, d, hs, hc, ht⟩ | ⟨a, t, d, hs, hc, ht⟩ := h.peek
  · rw [hs, hc]
    exact ⟨_, _, _, rfl, rfl, ht⟩
  · rw [hs, hc]
    simp only
    split
    · exact ⟨_, _, _, rfl, rfl, ht.drop⟩
    · exact ⟨_, _, _, rfl, rfl, ht⟩

theorem agrees_skip (q : α → Bool) (h : c.Tallies s) :
    Option.Rel Agrees (s.skip q) (c.skip q) := by
  refine rel_of_some (fun r hr => ?_) fun r hr => ?_
  · refine Source.skip.partial_correctness q (fun s r => ∀ c : Counted σ α, c.Tallies s →
      ∃ b, c.skip q = some b ∧ Agrees r b) ?_ s r hr c h
    intro skip ih s r hr c h
    obtain ⟨verdict, t, d, hs, hc, ht⟩ := h.passIf q
    rw [hs] at hr
    rw [Counted.skip, hc]
    cases verdict with
    | false =>
      cases hr
      exact ⟨_, rfl, rfl, ht⟩
    | true =>
      obtain ⟨dropped, hd, hr⟩ := Option.bind_eq_some_iff.mp hr
      obtain ⟨b, hb, hagrees⟩ := ih t dropped hd d ht
      cases hr
      simp only [hb]
      exact ⟨_, rfl, congrArg (· + 1) hagrees.answer_eq, hagrees.tallies⟩
  · refine Counted.skip.partial_correctness q (fun c _ => ∀ s : Source σ α, c.Tallies s →
      ∃ a, s.skip q = some a) ?_ c r hr s h
    intro skip ih c r hr s h
    obtain ⟨verdict, t, d, hs, hc, ht⟩ := h.passIf q
    rw [hc] at hr
    rw [Source.skip, hs]
    cases verdict with
    | false => exact ⟨_, rfl⟩
    | true =>
      obtain ⟨dropped, hd, -⟩ := Option.bind_eq_some_iff.mp hr
      obtain ⟨a, ha⟩ := ih d dropped hd t ht
      simp only [ha]
      exact ⟨_, rfl⟩

/-! ## Runs -/

/-- Turns that come to the same, with the counter at the offset. -/
inductive OfTurn : Source.Turn (Source σ α) τ → Source.Turn (Counted σ α) τ → Prop where
  | done (state : τ) {s : Source σ α} {c : Counted σ α} (h : c.Tallies s) :
    OfTurn (.done state s) (.done state c)
  | broken (f : Fault) {s : Source σ α} {c : Counted σ α} (h : c.Tallies s) :
    OfTurn (.broken f s) (.broken f c)
  | again (state : τ) {s : Source σ α} {c : Counted σ α} (h : c.Tallies s) :
    OfTurn (.again state s) (.again state c)

theorem turn (h : c.Tallies s) (p : Parser α τ β) (state : τ) :
    OfTurn (s.turn p state) (c.turn p state) := by
  unfold Source.turn Counted.turn
  obtain ⟨t, d, hs, hc, ht⟩ | ⟨a, t, d, hs, hc, ht⟩ := h.next
  · rw [hs, hc]
    exact .done state ht
  · rw [hs, hc]
    have hkept := ht.remember a
    simp only
    cases p.step state a with
    | error f => exact .broken f hkept
    | ok step =>
      obtain ⟨f, hb, hb'⟩ | ⟨r, e, hb, hb', hr⟩ := hkept.rewind step.back
      · simp only [hb, hb']
        exact .broken f hkept
      · simp only [hb, hb']
        split
        · exact .done step.state hr
        · exact .again step.state hr

theorem exists_step_of_turn (h : c.Tallies s) {p : Parser α τ β} {state : τ} {d : Counted σ α}
    (ht : c.turn p state = .broken .subtractionOverflow d) :
    ∃ state a, p.step state a = .error .subtractionOverflow := by
  unfold Counted.turn at ht
  obtain ⟨t, e, -, hc, -⟩ | ⟨a, t, e, -, hc, hkept⟩ := h.next
  · rw [hc] at ht
    cases ht
  · rw [hc] at ht
    simp only at ht
    split at ht
    · rename_i f hstep
      cases ht
      exact ⟨state, a, hstep⟩
    · rename_i step hstep
      split at ht
      · rename_i f hback
        cases ht
        exact absurd hback ((hkept.remember a).rewind_ne step.back)
      · split at ht <;> cases ht

theorem agrees_drive (h : c.Tallies s) (p : Parser α τ β) (state : τ) :
    Option.Rel Agrees (s.drive p state) (c.drive p state) := by
  refine rel_of_some (fun r hr => ?_) fun r hr => ?_
  · refine Source.drive.partial_correctness p (fun state s r => ∀ c : Counted σ α, c.Tallies s →
      ∃ b, c.drive p state = some b ∧ Agrees r b) ?_ state s r hr c h
    intro drive ih state s r hr c h
    have hturn := h.turn p state
    rw [Counted.drive]
    generalize s.turn p state = x at hr hturn
    generalize c.turn p state = y at hturn
    cases hturn with
    | done _ ht | broken _ ht =>
      cases hr
      exact ⟨_, rfl, rfl, ht⟩
    | again state ht => exact ih state _ r hr _ ht
  · refine Counted.drive.partial_correctness p (fun state c _ => ∀ s : Source σ α, c.Tallies s →
      ∃ a, s.drive p state = some a) ?_ state c r hr s h
    intro drive ih state c r hr s h
    have hturn := h.turn p state
    rw [Source.drive]
    generalize c.turn p state = y at hr hturn
    generalize s.turn p state = x at hturn
    cases hturn with
    | done _ ht | broken _ ht => exact ⟨_, rfl⟩
    | again state ht => exact ih state _ r hr _ ht

/-- The counter is never taken below zero: if a difference breaks a run off, it is one of the
parser's own. -/
theorem exists_step_of_drive (h : c.Tallies s) {p : Parser α τ β} {state : τ} {d : Counted σ α}
    (hd : c.drive p state = some (.error .subtractionOverflow, d)) :
    ∃ state a, p.step state a = .error .subtractionOverflow := by
  refine Counted.drive.partial_correctness p (fun _ c r => ∀ s : Source σ α, c.Tallies s →
    r.1 = .error .subtractionOverflow → ∃ state a, p.step state a = .error .subtractionOverflow)
    ?_ state c _ hd s h rfl
  intro drive ih state c r hr s h hfault
  have hturn := h.turn p state
  generalize hc : c.turn p state = y at hr hturn
  generalize s.turn p state = x at hturn
  cases hturn with
  | done _ _ =>
    cases hr
    cases hfault
  | broken f _ =>
    cases hr
    cases hfault
    exact h.exists_step_of_turn hc
  | again state ht => exact ih state _ r hr _ ht hfault

theorem agrees_run (h : c.Tallies s) (p : Parser α τ β) :
    Option.Rel Agrees (s.run p) (c.run p) := by
  unfold Source.run Counted.run
  cases p.start with
  | error f => exact .some ⟨rfl, h.clear⟩
  | ok state => exact h.clear.agrees_drive p state

end Requests

theorem agrees_conclude (p : Parser α τ β) {a : Except Fault τ × Source σ α}
    {b : Except Fault τ × Counted σ α} (h : Agrees a b) :
    Agrees (Source.conclude p a) (Counted.conclude p b) := by
  obtain ⟨outcome, s⟩ := a
  obtain ⟨outcome', c⟩ := b
  obtain ⟨rfl, h⟩ := h
  cases outcome' with
  | error f => exact ⟨rfl, h⟩
  | ok state =>
    have hoff : c.offset = s.offset := h.offset_eq
    simp only [Source.conclude, Counted.conclude, hoff]
    cases p.finish state with
    | error f => exact ⟨rfl, h.clear⟩
    | ok answer =>
      cases answer with
      | ok b => exact ⟨rfl, h.clear⟩
      | error e => exact ⟨rfl, h.clear.note _⟩

theorem agrees_parse [Pull σ α] (h : c.Tallies s) (p : Parser α τ β) :
    Option.Rel Agrees (s.parse p) (c.parse p) :=
  rel_map (h.agrees_run p) fun _ _ => agrees_conclude p

end Tallies

/-! ## Repetitions -/

namespace Repeated

/-- Repetitions that have come equally far, with the counter at the offset. -/
structure Tallies (q : Repeated σ α τ β) (r : Repetition σ α τ β) : Prop where
  source : q.source.Tallies r.source
  parser_eq : q.parser = r.parser
  done_eq : q.done = r.done
  fault_eq : q.fault = r.fault

/-- The same answer, with repetitions that have come equally far. -/
structure Agrees {ε : Type x} (a : ε × Repetition σ α τ β) (b : ε × Repeated σ α τ β) : Prop where
  answer_eq : b.1 = a.1
  tallies : b.2.Tallies a.2

namespace Tallies

variable {q : Repeated σ α τ β} {r : Repetition σ α τ β}

theorem keep (h : q.Tallies r) {a : Except Fault (Except ParseError β) × Source σ α}
    {b : Except Fault (Except ParseError β) × Counted σ α} (hab : Counted.Agrees a b) :
    Agrees (r.keep a) (q.keep b) := by
  obtain ⟨outcome, s⟩ := a
  obtain ⟨outcome', c⟩ := b
  obtain ⟨rfl, hcs⟩ := hab
  match outcome' with
  | .error f => exact ⟨rfl, hcs, h.parser_eq, rfl, rfl⟩
  | .ok (.error e) => exact ⟨rfl, hcs, h.parser_eq, rfl, h.fault_eq⟩
  | .ok (.ok b) =>
    have hoff := h.source.offset_eq
    have hoff' : c.offset = s.offset := hcs.offset_eq
    simp only [Repetition.keep, Repeated.keep, hoff, hoff']
    split
    · exact ⟨rfl, hcs.note _, h.parser_eq, rfl, h.fault_eq⟩
    · exact ⟨rfl, hcs, h.parser_eq, h.done_eq, h.fault_eq⟩

variable [Pull σ α]

theorem next (h : q.Tallies r) : Option.Rel Agrees r.next q.next := by
  unfold Repetition.next Repeated.next
  by_cases hdone : r.done = true
  · rw [if_pos hdone, if_pos (h.done_eq.trans hdone)]
    exact .some ⟨rfl, h⟩
  · rw [if_neg hdone, if_neg (h.done_eq ▸ hdone)]
    obtain ⟨hend, hlooked⟩ := h.source.agrees_atEnd
    generalize r.source.atEnd = a at hend hlooked
    generalize q.source.atEnd = b at hend hlooked
    obtain ⟨ended, s⟩ := a
    obtain ⟨ended', c⟩ := b
    obtain rfl : ended' = ended := hend
    have h' : Tallies { q with source := c } { r with source := s } :=
      ⟨hlooked, h.parser_eq, h.done_eq, h.fault_eq⟩
    cases ended' with
    | true => exact .some ⟨rfl, h'⟩
    | false =>
      have hparse : Option.Rel Counted.Agrees (s.parse r.parser) (c.parse q.parser) := by
        rw [h.parser_eq]
        exact hlooked.agrees_parse r.parser
      exact rel_map hparse fun _ _ => h'.keep

theorem answers (h : q.Tallies r) (n : Nat) : Option.Rel Agrees (r.answers n) (q.answers n) := by
  induction n generalizing r q with
  | zero => exact .some ⟨rfl, h⟩
  | succ n ih =>
    refine rel_bind h.next fun a b hfirst => ?_
    refine rel_map (ih hfirst.tallies) fun a b hrest => ?_
    exact ⟨by rw [hfirst.answer_eq, hrest.answer_eq], hrest.tallies⟩

end Tallies

end Repeated

/-! ## Sessions -/

section Sessions

variable [Pull σ α]

theorem Tallies.perform {c : Counted σ α} {s : Source σ α} (h : c.Tallies s) (op : Operation α) :
    Option.Rel Agrees (s.perform op) (c.perform op) := by
  cases op with
  | next => exact .some ⟨by rw [h.agrees_next.answer_eq], h.agrees_next.tallies⟩
  | peek => exact .some ⟨by rw [h.agrees_peek.answer_eq], h.agrees_peek.tallies⟩
  | atEnd => exact .some ⟨by rw [h.agrees_atEnd.answer_eq], h.agrees_atEnd.tallies⟩
  | dropWhile q =>
    refine rel_map (h.agrees_skip q) fun a b hab => ?_
    exact ⟨by rw [hab.answer_eq], hab.tallies⟩
  | parse p =>
    refine rel_map (h.agrees_parse p) fun a b hab => ?_
    exact ⟨by rw [hab.answer_eq], hab.tallies⟩
  | repeated p requests =>
    have hstart : Repeated.Tallies { source := c, parser := p } (.start p s) := ⟨h, rfl, rfl, rfl⟩
    refine rel_map (hstart.answers requests) fun a b hab => ?_
    rw [hab.tallies.fault_eq]
    cases a.2.fault with
    | none => exact ⟨by rw [hab.answer_eq], hab.tallies.source⟩
    | some f => exact ⟨rfl, hab.tallies.source⟩

theorem Tallies.session {c : Counted σ α} {s : Source σ α} (h : c.Tallies s)
    (ops : List (Operation.{v, w} α)) : c.session ops = s.session ops := by
  induction ops generalizing c s with
  | nil => rfl
  | cons op ops ih =>
    have hop := h.perform op
    unfold Source.session Counted.session
    revert hop
    generalize s.perform op = x
    generalize c.perform op = y
    intro hop
    cases hop with
    | none => rfl
    | @some a b hab =>
      obtain ⟨answer, s'⟩ := a
      obtain ⟨answer', c'⟩ := b
      obtain ⟨rfl, h'⟩ := hab
      have hoff : c'.offset = s'.offset := h'.offset_eq
      have hnotices : c'.notices = s'.notices := h'.notices_eq
      cases answer' with
      | error f => simp only [hoff, hnotices]
      | ok a => simp only [hoff, hnotices, ih h']

/-- **The counter is the offset.** A session sees the same of a source with a counter as of one
whose offset is made up. -/
theorem session_eq (input : σ) (ops : List (Operation.{v, w} α)) :
    (Counted.ofInput input).session ops = (Source.ofInput input).session ops :=
  (Tallies.ofInput input).session ops

end Sessions

end Counted

end Streaming
