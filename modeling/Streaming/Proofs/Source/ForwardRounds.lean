import Streaming.Proofs.Source.Forward

/-!
# Rounds of forward parsers

What a run of a forward parser comes to can be told from the elements to come: its answer, how many
of them it consumes, or the fault that breaks it off (`Parser.round`). So can the rounds of a
repetition: each is the parser's round on what the rounds before it have left (`Parser.Rounds`).
A repetition on a source goes through the rounds told from what the source reads, and ends
(`Parser.Rounds.course`, `Parser.Rounds.collect`).
-/

namespace Streaming

universe u v w x y

variable {σ : Type u} {α : Type v} {τ : Type w} {β : Type x}

section Map

theorem map_map_except {γ : Type w} (m : Except Fault α) (f : α → β) (g : β → γ) :
    (m.map f).map g = m.map fun a => g (f a) := by
  cases m <;> rfl

end Map

namespace Round

/-- The round with one more element consumed. -/
def further (r : Round β) : Round β := { r with consumed := r.consumed + 1 }

theorem consumed_eq_zero (r : Round β) {b : β} (hb : r.answer = .ok b) (h : ¬ r.Advances) :
    r.consumed = 0 := by
  apply Nat.eq_zero_of_not_pos
  intro hpos
  exact h ⟨⟨b, hb⟩, hpos⟩

end Round

namespace Parser

/-- What a run in the given state comes to that is offered the elements, each of them once. -/
def roundFrom (p : Parser α τ β) (state : τ) (as : List α) : Except Fault (Round β) :=
  (p.offerOnce state as).bind fun r => (p.finish r.2).map fun answer => ⟨answer, used r.1⟩

/-- What a run comes to that is offered the elements. -/
def round (p : Parser α τ β) (as : List α) : Except Fault (Round β) :=
  p.start.bind fun state => p.roundFrom state as

/-- The rounds of a repetition that reads the elements, and the fault that breaks its last run off,
if one does. -/
inductive Rounds (p : Parser α τ β) : List α → List (Round β) → Option Fault → Prop where
  /-- Nothing is left. -/
  | nil : Rounds p [] [] none
  /-- A fault breaks the run off. -/
  | broken {as : List α} {e : Fault} (hne : as ≠ []) (h : p.round as = .error e) :
    Rounds p as [] (some e)
  /-- The run has no result or consumes nothing, and no other follows. -/
  | last {as : List α} {r : Round β} (hne : as ≠ []) (h : p.round as = .ok r)
    (hstop : ¬ r.Advances) : Rounds p as [r] none
  /-- The others follow behind what the run has consumed. -/
  | cons {as : List α} {r : Round β} {rounds : List (Round β)} {fault : Option Fault}
    (hne : as ≠ []) (h : p.round as = .ok r) (hgo : r.Advances)
    (hrest : Rounds p (as.drop r.consumed) rounds fault) : Rounds p as (r :: rounds) fault

section Equations

variable (p : Parser α τ β) {state next : τ} {a : α}

theorem round_of_start (h : p.start = .ok state) (as : List α) :
    p.round as = p.roundFrom state as := by
  rw [round, h, Except.bind]

variable {answer : Except ParseError β}

theorem roundFrom_nil (h : p.finish state = .ok answer) :
    p.roundFrom state [] = .ok ⟨answer, 0⟩ := by
  rw [roundFrom, offerOnce, Except.bind, h]
  rfl

variable (as : List α)

theorem roundFrom_of_error {e : Fault} (h : p.step state a = .error e) :
    p.roundFrom state (a :: as) = .error e := by
  rw [roundFrom, offerOnce, h]
  rfl

theorem roundFrom_of_stop {n : Nat} (h : p.step state a = .ok (.stop n next))
    (hfinish : p.finish next = .ok answer) :
    p.roundFrom state (a :: as) = .ok ⟨answer, 1 - n⟩ := by
  have hoffer : p.offerOnce state (a :: as) = .ok ([.stop n next], next) := by
    rw [offerOnce, h]
    rfl
  rw [roundFrom, hoffer, Except.bind, hfinish]
  rfl

theorem roundFrom_of_goes_on {step : Step τ} (h : p.step state a = .ok step)
    (hstop : step.isStop = false) (hback : step.back = 0) :
    p.roundFrom state (a :: as) = (p.roundFrom step.state as).map Round.further := by
  rw [roundFrom, roundFrom, offerOnce, h]
  simp only [hstop, Bool.false_eq_true, if_false]
  cases p.offerOnce step.state as with
  | error e => rfl
  | ok r =>
    simp only [Except.map, Except.bind, used, hback]
    cases p.finish r.2 with
    | error e => rfl
    | ok answer =>
      simp only [Round.further]
      rw [Nat.sub_zero, Nat.add_comm]

end Equations

/-- A round is the offers of a run and the answer taken from the last state. -/
theorem exists_of_round_eq_ok {p : Parser α τ β} {as : List α} {r : Round β}
    (h : p.round as = .ok r) :
    ∃ steps last, p.offers as = .ok (steps, last) ∧ p.finish last = .ok r.answer ∧
      r.consumed = used steps := by
  obtain ⟨state, hstart, h⟩ := exists_of_bind_eq_ok h
  obtain ⟨⟨steps, last⟩, hoffer, h⟩ := exists_of_bind_eq_ok h
  obtain ⟨answer, hfinish, rfl⟩ := exists_of_map_eq_ok h
  refine ⟨steps, last, ?_, hfinish, rfl⟩
  rw [offers, hstart]
  exact hoffer

/-- It is broken off on starting, by a step, or on taking the answer. -/
theorem of_round_eq_error {p : Parser α τ β} {as : List α} {e : Fault}
    (h : p.round as = .error e) :
    p.start = .error e ∨
      (∃ state, p.start = .ok state ∧ p.offerOnce state as = .error e) ∨
      ∃ steps last, p.offers as = .ok (steps, last) ∧ p.finish last = .error e := by
  obtain hstart | ⟨state, hstart, h⟩ := eq_error_of_bind_eq_error h
  · exact .inl hstart
  · obtain hoffer | ⟨⟨steps, last⟩, hoffer, h⟩ := eq_error_of_bind_eq_error h
    · exact .inr (.inl ⟨state, hstart, hoffer⟩)
    · refine .inr (.inr ⟨steps, last, ?_, eq_error_of_map_eq_error h⟩)
      rw [offers, hstart]
      exact hoffer

/-- Any parser has rounds on any list. -/
theorem exists_rounds (p : Parser α τ β) (as : List α) :
    ∃ rounds fault, Rounds p as rounds fault := by
  induction hn : as.length using Nat.strongRecOn generalizing as with
  | _ n ih =>
    subst hn
    by_cases hne : as = []
    · subst hne
      exact ⟨[], none, .nil⟩
    · cases h : p.round as with
      | error e => exact ⟨[], some e, .broken hne h⟩
      | ok r =>
        by_cases hgo : r.Advances
        · have hlt : (as.drop r.consumed).length < as.length := by
            have hpos := List.length_pos_iff.mpr hne
            have hconsumed := hgo.2
            rw [List.length_drop]
            omega
          obtain ⟨rounds, fault, hrest⟩ := ih _ hlt _ rfl
          exact ⟨r :: rounds, fault, .cons hne h hgo hrest⟩
        · exact ⟨[r], none, .last hne h hgo⟩

end Parser

/-! ## One round -/

namespace Source

variable [FinitePull σ α]

/-- The second source is what is left of the first behind `n` more elements. -/
structure Consumes (s : Source σ α) (n : Nat) (t : Source σ α) : Prop where
  offset_eq : t.offset = s.offset + n
  elements_eq : Pull.elements t = (Pull.elements s).drop n

/-- A run of the parser on the source comes to the answer and, if it is not broken off, consumes `n`
elements. -/
def Outcome (s : Source σ α) (p : Parser α τ β) (answer : Except Fault (Except ParseError β))
    (n : Nat) : Prop :=
  ∃ t, s.parse p = some (answer, t) ∧ ∀ result, answer = .ok result → s.Consumes n t

end Source

namespace Parser

namespace Forward

variable [FinitePull σ α] {p : Parser α τ β} (hp : p.Forward) {s : Source σ α}

include hp

/-- A run breaks off where the parser does when it is offered the elements to come. -/
theorem drive_of_offerOnce_error {as : List α} {state : τ} {e : Fault} (hs : s.remaining = as)
    (h : p.offerOnce state as = .error e) : ∃ t, s.drive p state = some (.error e, t) := by
  induction as generalizing s state with
  | nil => cases h
  | cons a as ih =>
    obtain ⟨r, hf, hr⟩ := Source.exists_fetch_of_cons hs
    rw [offerOnce] at h
    cases hstep : p.step state a with
    | error f =>
      rw [hstep] at h
      cases h
      refine ⟨r.retain a, Source.drive_of_broken ?_⟩
      simp only [Source.turn, hf, hstep]
    | ok step =>
      simp only [hstep] at h
      by_cases hstop : step.isStop = true
      · rw [if_pos hstop] at h
        cases h
      · rw [if_neg hstop] at h
        obtain ⟨hback, hgoing⟩ := hp state a step hstep
        have hzero : step.back = 0 := hgoing (by simpa using hstop)
        obtain ⟨t, hb, -, hrem⟩ := Source.exists_handBack_retain r a hback
        have hturn := Source.turn_of_granted hf hstep hb
        rw [if_neg hstop] at hturn
        rw [hzero] at hrem
        obtain ⟨q, hd⟩ := ih (hrem.trans hr) (eq_error_of_map_eq_error h)
        exact ⟨q, (Source.drive_of_again hturn).trans hd⟩

/-- What a run pulls can be told from what it consumes and hands back. -/
theorem reach_of_round {n : Nat} (hn : n ≤ 1) (hback : p.HandsBack n) {r : Round β}
    (h : p.round (Pull.elements s) = .ok r) {t : Source σ α}
    {answer : Except Fault (Except ParseError β)} (ht : s.parse p = some (answer, t)) :
    t.reach = max s.reach (s.offset + min (r.consumed + n) (Pull.elements s).length) := by
  obtain ⟨steps, last, hoffers, hfinish, hused⟩ := exists_of_round_eq_ok h
  obtain ⟨q, hparse, -, -, -, hreach⟩ := hp.parse_of_offers hoffers hfinish
  obtain ⟨state, -, hoffer⟩ := exists_of_bind_eq_ok hoffers
  cases ht.symm.trans hparse
  rw [hreach, hused, hback.length_eq hn hoffer]

theorem parse_of_round {r : Round β} (h : p.round (Pull.elements s) = .ok r) :
    ∃ t, s.parse p = some (.ok r.answer, t) ∧ t.offset = s.offset + r.consumed ∧
      Pull.elements t = (Pull.elements s).drop r.consumed := by
  obtain ⟨steps, last, hoffers, hfinish, hused⟩ := exists_of_round_eq_ok h
  obtain ⟨t, hparse, hoff, helems, -⟩ := hp.parse_of_offers hoffers hfinish
  rw [← hused] at hoff helems
  exact ⟨t, hparse, hoff, helems⟩

theorem parse_of_round_error {e : Fault} (h : p.round (Pull.elements s) = .error e) :
    ∃ t, s.parse p = some (.error e, t) := by
  obtain hstart | ⟨state, hstart, hoffer⟩ | ⟨steps, last, hoffers, hfinish⟩ := of_round_eq_error h
  · refine ⟨s.settle, ?_⟩
    rw [Source.parse, Source.run_of_start_error hstart]
    rfl
  · rw [Source.elements_eq_remaining] at hoffer
    obtain ⟨t, hd⟩ := hp.drive_of_offerOnce_error (s := s.settle) rfl hoffer
    refine ⟨t, ?_⟩
    rw [Source.parse, Source.run_of_start hstart, hd]
    rfl
  · obtain ⟨t, hr, -⟩ := hp.run_of_offers hoffers
    refine ⟨(Source.conclude p (.ok last, t)).2, ?_⟩
    rw [Source.parse, hr]
    exact congrArg some (Prod.ext ((Source.answer_conclude p _).trans hfinish) rfl)

/-- A run whose answer is a matter of whether a fold is broken off. -/
theorem outcome_of_round {γ : Type y} {m : Except Fault γ} {g : γ → Except ParseError β} {n : Nat}
    (h : p.round (Pull.elements s) = m.map fun c => ⟨g c, n⟩) :
    s.Outcome p (m.map g) n := by
  cases m with
  | error e =>
    obtain ⟨t, hparse⟩ := hp.parse_of_round_error h
    exact ⟨t, hparse, nofun⟩
  | ok c =>
    obtain ⟨t, hparse, hoff, helems⟩ := hp.parse_of_round h
    exact ⟨t, hparse, fun _ _ => ⟨hoff, helems⟩⟩

variable (hleft : Pull.elements s ≠ [])

include hleft

theorem exists_behind_of_round {r : Round β}
    (h : p.round (Pull.elements s) = .ok r) :
    ∃ q t, s.atEnd = (false, q) ∧ q.parse p = some (.ok r.answer, t) ∧
      t.offset = q.offset + r.consumed ∧ Repetition.Behind s t r.consumed r.answer := by
  obtain ⟨q, he, hq⟩ := Repetition.exists_atEnd_of_ne_nil hleft
  rw [← hq] at h
  obtain ⟨t, hparse, hoff, -⟩ := hp.parse_of_round h
  obtain ⟨n, hb⟩ := Repetition.exists_behind_of_parse he hparse
  have hsame := (Source.indistinct_atEnd he).2.offset_eq
  obtain rfl : n = r.consumed := by
    have := hb.offset_eq
    omega
  exact ⟨q, t, he, hparse, hoff, hb⟩

/-- A run that advances is followed by the others. -/
theorem next_of_round {r : Round β} (h : p.round (Pull.elements s) = .ok r)
    (hgo : r.Advances) :
    ∃ q t, s.atEnd = (false, q) ∧ q.parse p = some (.ok r.answer, t) ∧
      (Repetition.start p s).next = some (some r.answer, .start p t) ∧
      Pull.elements t = (Pull.elements s).drop r.consumed := by
  obtain ⟨q, t, he, hparse, hoff, hb⟩ := hp.exists_behind_of_round hleft h
  obtain ⟨⟨b, hb'⟩, hpos⟩ := hgo
  have hnext := Repetition.next_of_parse he hparse
  have hne : t.offset ≠ (Repetition.start p q).source.offset := by
    change t.offset ≠ q.offset
    omega
  rw [hb', Repetition.keep_of_offset_ne hne, ← hb'] at hnext
  exact ⟨q, t, he, hparse, hnext, hb.elements_eq⟩

/-- One that does not is the last. -/
theorem next_of_last_round {r : Round β} (h : p.round (Pull.elements s) = .ok r)
    (hstop : ¬ r.Advances) :
    ∃ t, (Repetition.start p s).next = some (some r.answer, t) ∧ t.done = true ∧
      t.fault = none := by
  obtain ⟨q, t, he, hparse, hoff, -⟩ := hp.exists_behind_of_round hleft h
  cases hanswer : r.answer with
  | error e =>
    rw [hanswer] at hparse
    exact ⟨_, Repetition.next_of_parse he hparse, rfl, rfl⟩
  | ok b =>
    have hzero : r.consumed = 0 := r.consumed_eq_zero hanswer hstop
    rw [hanswer] at hparse
    have hnext := Repetition.next_of_parse he hparse
    have hsame : t.offset = (Repetition.start p q).source.offset := by
      change t.offset = q.offset
      omega
    rw [Repetition.keep_of_offset_eq hsame] at hnext
    exact ⟨_, hnext, rfl, rfl⟩

theorem next_of_broken_round {e : Fault} (h : p.round (Pull.elements s) = .error e) :
    ∃ t, (Repetition.start p s).next = some (none, t) ∧ t.fault = some e := by
  obtain ⟨q, he, hq⟩ := Repetition.exists_atEnd_of_ne_nil hleft
  rw [← hq] at h
  obtain ⟨t, hparse⟩ := hp.parse_of_round_error h
  exact ⟨_, Repetition.next_of_parse he hparse, rfl⟩

end Forward

/-! ## All rounds -/

namespace Rounds

variable [FinitePull σ α] {p : Parser α τ β} {s : Source σ α} {rounds : List (Round β)}
  {fault : Option Fault}

/-- The answers of a repetition are those of its rounds, and what breaks a round off breaks the
repetition off. -/
theorem collect (h : Rounds p (Pull.elements s) rounds fault) (hp : p.Forward) :
    ∃ t, (Repetition.start p s).collect = some (rounds.map Round.answer, t) ∧
      t.fault = fault := by
  generalize hs : Pull.elements s = as at h
  induction h generalizing s with
  | nil =>
    obtain ⟨t, ht⟩ := Repetition.exists_next_of_nil p hs
    exact ⟨_, Repetition.collect_of_next_none ht, rfl⟩
  | broken hne h =>
    subst hs
    obtain ⟨t, ht, hfault⟩ := hp.next_of_broken_round hne h
    exact ⟨t, Repetition.collect_of_next_none ht, hfault⟩
  | last hne h hstop =>
    subst hs
    obtain ⟨t, ht, hdone, hfault⟩ := hp.next_of_last_round hne h hstop
    have hend := Repetition.collect_of_next_none (Repetition.next_of_done hdone)
    refine ⟨t, ?_, hfault⟩
    rw [Repetition.collect_of_next_some ht, hend]
    rfl
  | cons hne h hgo _ ih =>
    subst hs
    obtain ⟨q, t, -, -, ht, helems⟩ := hp.next_of_round hne h hgo
    obtain ⟨u, hcollect, hfault⟩ := ih helems
    refine ⟨u, ?_, hfault⟩
    rw [Repetition.collect_of_next_some ht, hcollect]
    rfl

/-- A repetition goes through the rounds and ends, if no fault breaks it off. -/
theorem course (h : Rounds p (Pull.elements s) rounds none) (hp : p.Forward) :
    Repetition.Course p s rounds := by
  generalize hs : Pull.elements s = as at h
  generalize hfault : (none : Option Fault) = fault at h
  induction h generalizing s with
  | nil =>
    cases he : s.atEnd with
    | mk ended t =>
      obtain rfl : ended = true := (Source.indistinct_atEnd he).1.mpr hs
      exact .nil he
  | broken _ _ => cases hfault
  | @last as r hne h hstop =>
    subst hs
    obtain ⟨q, t, he, hparse, hoff, hb⟩ := hp.exists_behind_of_round hne h
    obtain ⟨answer, consumed⟩ := r
    cases answer with
    | error e => exact .of_error he hparse hb
    | ok b =>
      obtain rfl : consumed = 0 := Round.consumed_eq_zero _ rfl hstop
      exact .of_idle he hparse hb hoff
  | @cons as r rest fault hne h hgo _ ih =>
    subst hs
    obtain ⟨q, t, he, hparse, hoff, hb⟩ := hp.exists_behind_of_round hne h
    obtain ⟨answer, consumed⟩ := r
    obtain ⟨⟨b, rfl⟩, hpos⟩ := hgo
    have hne' : t.offset ≠ q.offset := by
      intro hsame
      exact Nat.ne_of_gt hpos (by omega)
    exact .of_advance he hparse hb hne' (ih hb.elements_eq hfault)

end Rounds

end Parser

/-! ## Where a course ends -/

namespace Repetition

variable [FinitePull σ α] {p : Parser α τ β} {s : Source σ α} {rounds : List (Round β)}

theorem collect_of_answers {r t : Repetition σ α τ β} {as : List (Except ParseError β)}
    (h : r.answers (as.length + 1) = some (Pull.served (as.length + 1) as, t)) :
    r.collect = some (as, t) := by
  induction as generalizing r with
  | nil =>
    rw [Pull.served_nil] at h
    rw [answers] at h
    obtain ⟨⟨a, q⟩, hn, hrest⟩ := Option.bind_eq_some_iff.mp h
    cases hrest
    exact collect_of_next_none hn
  | cons a as ih =>
    rw [List.length_cons, Pull.served_cons, answers] at h
    obtain ⟨⟨b, q⟩, hn, hrest⟩ := Option.bind_eq_some_iff.mp h
    obtain ⟨⟨rest, last⟩, hq, hcons⟩ := Option.map_eq_some_iff.mp hrest
    cases hcons
    rw [collect_of_next_some hn, ih hq]
    rfl

/-- Collecting the answers goes through the whole course. -/
theorem Course.collect (h : Course p s rounds) :
    ∃ t, (start p s).collect = some (rounds.map Round.answer, t) ∧
      Stands s rounds (rounds.length + 1) t := by
  obtain ⟨t, hanswers, hstands⟩ := h.answers (rounds.length + 1)
  refine ⟨t, collect_of_answers ?_, hstands⟩
  rw [List.length_map]
  exact hanswers

end Repetition

end Streaming
