import Streaming.Proofs.Source.Forward

/-!
# Parsers that keep in step

Two parsers keep in step if each answers an element with a step when the other does, and with the
same one but for its state: they hand back as many elements and stop together, and the states that
they go on with correspond (`Parser.Tracks`). What such forward parsers do to a source is the same.
They are never broken off, they leave the same source behind, and the one has the other's result,
translated (`Parser.Tracks.exists_parse`). So it is with each round when they are repeated
(`Parser.Tracks.answers`).
-/

namespace Streaming

universe u v w w' x x'

variable {σ : Type u} {α : Type v} {τ : Type w} {τ' : Type w'} {β : Type x} {γ : Type x'}

/-- Steps of one kind that hand back as many elements, with states that correspond. -/
inductive Step.Rel (R : τ → τ' → Prop) : Step τ → Step τ' → Prop where
  | yield {s : τ} {t : τ'} (n : Nat) (h : R s t) : Rel R (.yield n s) (.yield n t)
  | skip {s : τ} {t : τ'} (n : Nat) (h : R s t) : Rel R (.skip n s) (.skip n t)
  | stop {s : τ} {t : τ'} (n : Nat) (h : R s t) : Rel R (.stop n s) (.stop n t)

/-- Neither is broken off, and what they come to corresponds. -/
inductive Both (R : β → γ → Prop) : Except Fault β → Except Fault γ → Prop where
  | ok {a : β} {b : γ} (h : R a b) : Both R (.ok a) (.ok b)

/-- The second parser goes through corresponding states and gives the first one's result,
translated. -/
structure Parser.Tracks (R : τ → τ' → Prop) (g : β → γ) (p : Parser α τ β) (q : Parser α τ' γ) :
    Prop where
  start : Both R p.start q.start
  step : ∀ {s : τ} {t : τ'} (a : α), R s t → Both (Step.Rel R) (p.step s a) (q.step t a)
  finish : ∀ {s : τ} {t : τ'}, R s t → Both (fun r r' => r' = r.map g) (p.finish s) (q.finish t)

namespace Step.Rel

variable {R : τ → τ' → Prop} {a : Step τ} {b : Step τ'}

theorem back_eq (h : Step.Rel R a b) : b.back = a.back := by
  cases h <;> rfl

theorem isStop_eq (h : Step.Rel R a b) : b.isStop = a.isStop := by
  cases h <;> rfl

theorem state (h : Step.Rel R a b) : R a.state b.state := by
  cases h <;> assumption

end Step.Rel

theorem Both.exists_ok {R : β → γ → Prop} {x : Except Fault β} {y : Except Fault γ}
    (h : Both R x y) : ∃ a b, x = .ok a ∧ y = .ok b ∧ R a b := by
  cases h with
  | ok h => exact ⟨_, _, rfl, rfl, h⟩

namespace Source

variable [FinitePull σ α]

/-- Turns that neither run is broken off by, in corresponding states and on one source. -/
inductive Turn.Rel (R : τ → τ' → Prop) : Turn (Source σ α) τ → Turn (Source σ α) τ' → Prop where
  | done {a : τ} {b : τ'} (s : Source σ α) (h : R a b) : Rel R (.done a s) (.done b s)
  | again {a : τ} {b : τ'} (s : Source σ α) (h : R a b) : Rel R (.again a s) (.again b s)

end Source

namespace Parser.Tracks

variable [FinitePull σ α] {R : τ → τ' → Prop} {g : β → γ} {p : Parser α τ β} {q : Parser α τ' γ}
  (h : Tracks R g p q) (hp : p.Forward)

include h hp

theorem turn {a : τ} {b : τ'} (hab : R a b) (s : Source σ α) :
    Source.Turn.Rel R (s.turn p a) (s.turn q b) := by
  cases hf : s.fetch with
  | mk answer t =>
    cases answer with
    | none =>
      simp only [Source.turn, hf]
      exact .done t hab
    | some e =>
      obtain ⟨x, y, hps, hqs, hxy⟩ := (h.step e hab).exists_ok
      obtain ⟨r, hb, -, -⟩ := Source.exists_handBack_retain t e (hp a e x hps).1
      have hb' : (t.retain e).handBack y.back = .ok r := by rw [hxy.back_eq, hb]
      rw [Source.turn_of_granted hf hps hb, Source.turn_of_granted hf hqs hb', hxy.isStop_eq]
      split
      · exact .done r hxy.state
      · exact .again r hxy.state

/-- Neither run goes on for ever or is broken off. -/
theorem drive {a : τ} {b : τ'} (hab : R a b) (s : Source σ α) :
    ∃ a' b' t, s.drive p a = some (.ok a', t) ∧ s.drive q b = some (.ok b', t) ∧ R a' b' := by
  induction hn : s.left using Nat.strongRecOn generalizing a b s with
  | _ n ih =>
    subst hn
    have hturn := h.turn hp hab s
    generalize hps : s.turn p a = x at hturn
    generalize hqs : s.turn q b = y at hturn
    cases hturn with
    | done t hab' =>
      exact ⟨_, _, t, Source.drive_of_done hps, Source.drive_of_done hqs, hab'⟩
    | again t hab' =>
      obtain ⟨a', b', r, hpd, hqd, hr⟩ := ih t.left (hp.left_turn_lt hps) hab' t rfl
      exact ⟨a', b', r, (Source.drive_of_again hps).trans hpd,
        (Source.drive_of_again hqs).trans hqd, hr⟩

/-- Both runs come to an answer, and leave the same source behind. -/
theorem exists_parse (s : Source σ α) :
    ∃ r t, s.parse p = some (.ok r, t) ∧ s.parse q = some (.ok (r.map g), t) := by
  obtain ⟨start, start', hps, hqs, hrel⟩ := h.start.exists_ok
  obtain ⟨a, b, t, hpd, hqd, hab⟩ := h.drive hp hrel s.settle
  obtain ⟨r, -, hpf, hqf, rfl⟩ := (h.finish hab).exists_ok
  rw [Source.parse, Source.parse, Source.run_of_start hps, Source.run_of_start hqs, hpd, hqd]
  cases r with
  | error e =>
    refine ⟨.error e, t.settle.note (.failed t.offset e), ?_, ?_⟩
    · simp only [Option.map_some, Source.conclude, hpf]
    · simp only [Option.map_some, Source.conclude, hqf, Except.map]
  | ok c =>
    refine ⟨.ok c, t.settle, ?_, ?_⟩
    · simp only [Option.map_some, Source.conclude, hpf]
    · simp only [Option.map_some, Source.conclude, hqf, Except.map]

end Parser.Tracks

/-! ## Repetitions -/

namespace Repetition

/-- Repetitions of the two parsers that have come equally far and were not broken off. -/
inductive Abreast (p : Parser α τ β) (q : Parser α τ' γ) :
    Repetition σ α τ β → Repetition σ α τ' γ → Prop where
  | mk (s : Source σ α) (done : Bool) :
    Abreast p q { source := s, parser := p, done } { source := s, parser := q, done }

/-- What a run answered is kept in the same way. -/
theorem Abreast.keep (p : Parser α τ β) (q : Parser α τ' γ) (g : β → γ) (s t : Source σ α)
    (r : Except ParseError β) :
    ((start q s).keep (.ok (r.map g), t)).1 =
        ((start p s).keep (.ok r, t)).1.map (Except.map g) ∧
      Abreast p q ((start p s).keep (.ok r, t)).2 ((start q s).keep (.ok (r.map g), t)).2 := by
  cases r with
  | error e => exact ⟨rfl, .mk t true⟩
  | ok b =>
    rw [Except.map]
    by_cases hsame : t.offset = s.offset
    · rw [keep_of_offset_eq hsame, keep_of_offset_eq hsame]
      exact ⟨rfl, .mk _ true⟩
    · rw [keep_of_offset_ne hsame, keep_of_offset_ne hsame]
      exact ⟨rfl, .mk t false⟩

end Repetition

namespace Parser.Tracks

open Repetition (Abreast)

variable [FinitePull σ α] {R : τ → τ' → Prop} {g : β → γ} {p : Parser α τ β} {q : Parser α τ' γ}
  (h : Tracks R g p q) (hp : p.Forward)

include h hp

theorem next {r : Repetition σ α τ β} {r' : Repetition σ α τ' γ} (ha : Abreast p q r r') :
    ∃ a t t', r.next = some (a, t) ∧ r'.next = some (a.map (Except.map g), t') ∧
      Abreast p q t t' := by
  cases ha with
  | mk s done =>
    cases done with
    | true =>
      exact ⟨none, _, _, Repetition.next_of_done rfl, Repetition.next_of_done rfl, .mk s true⟩
    | false =>
      cases he : s.atEnd with
      | mk ended t =>
        cases ended with
        | true =>
          exact ⟨none, _, _, Repetition.next_of_atEnd p he, Repetition.next_of_atEnd q he,
            .mk t false⟩
        | false =>
          obtain ⟨r, t', hpr, hqr⟩ := h.exists_parse hp t
          obtain ⟨hkeep, hkept⟩ := Abreast.keep p q g t t' r
          exact ⟨_, _, _, Repetition.next_of_parse he hpr,
            (Repetition.next_of_parse he hqr).trans (congrArg some (Prod.ext hkeep rfl)), hkept⟩

/-- The answers of the one repetition are those of the other, translated. -/
theorem answers {r : Repetition σ α τ β} {r' : Repetition σ α τ' γ} (ha : Abreast p q r r')
    (n : Nat) :
    ∃ as t t', r.answers n = some (as, t) ∧
      r'.answers n = some (as.map (Option.map (Except.map g)), t') ∧ Abreast p q t t' := by
  induction n generalizing r r' with
  | zero => exact ⟨[], r, r', rfl, rfl, ha⟩
  | succ n ih =>
    obtain ⟨a, t, t', hn, hn', hnext⟩ := h.next hp ha
    obtain ⟨as, u, u', has, has', hrest⟩ := ih hnext
    exact ⟨a :: as, u, u', Repetition.answers_succ hn has, Repetition.answers_succ hn' has', hrest⟩

end Parser.Tracks

end Streaming
