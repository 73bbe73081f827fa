import Streaming.Parser.Stock
import Streaming.Source.Parse

/-!
# Parsers that only go forward

A forward parser hands nothing back while it goes on, and on stopping at most the element it was
just offered. Every run of such a parser ends (`Forward.isSome_parse`) without falling behind the
place where it started (`Forward.offset_le_drive`), and it consumes something if the first step
keeps its element (`Forward.left_parse_lt`).
-/

namespace Streaming

universe u v w x

variable {σ : Type u} {α : Type v} {τ : Type w} {β : Type x}

/-- A parser that hands back at most the last element, and only on stopping. -/
def Parser.Forward (p : Parser α τ β) : Prop :=
  ∀ s a step, p.step s a = .ok step → step.back ≤ 1 ∧ (step.isStop = false → step.back = 0)

namespace Parser.Forward

variable [FinitePull σ α] {p : Parser α τ β}

theorem offset_le_turn (hp : p.Forward) (state : τ) (s : Source σ α) :
    s.offset ≤ (s.turn p state).source.offset := by
  unfold Source.turn
  have h0 := Source.offset_fetch s
  split
  · rename_i t hf
    rw [hf] at h0
    simpa [Source.Turn.source] using Nat.le_of_eq h0.symm
  · rename_i a t hf
    rw [hf] at h0
    simp only at h0
    have h1 := Source.offset_retain t a
    split
    · simp only [Source.Turn.source]
      omega
    · rename_i step hs
      have h2 := (hp state a step hs).1
      split
      · simp only [Source.Turn.source]
        omega
      · rename_i r hb
        have h3 := Source.offset_handBack hb
        split <;> simp only [Source.Turn.source] <;> omega

/-- A turn after which the run of a forward parser goes on has used an element up. -/
theorem left_turn_lt (hp : p.Forward) {state next : τ} {s t : Source σ α}
    (h : s.turn p state = .again next t) : t.left < s.left := by
  unfold Source.turn at h
  split at h
  · cases h
  · rename_i a r hf
    split at h
    · cases h
    · rename_i step hs
      split at h
      · cases h
      · rename_i q hb
        split at h
        · cases h
        · rename_i hstop
          cases h
          have h1 := Source.left_fetch_lt hf
          have h2 := Source.left_retain r a
          have h3 := Source.left_handBack hb
          have h4 := (hp state a step hs).2 (by simpa using hstop)
          omega

theorem isSome_drive (hp : p.Forward) (state : τ) (s : Source σ α) :
    (s.drive p state).isSome := by
  induction hn : s.left using Nat.strongRecOn generalizing state s with
  | _ n ih =>
    subst hn
    cases ht : s.turn p state with
    | done next t => simp [Source.drive_of_done ht]
    | broken f t => simp [Source.drive_of_broken ht]
    | again next t =>
      rw [Source.drive_of_again ht]
      exact ih t.left (hp.left_turn_lt ht) next t rfl

theorem isSome_run (hp : p.Forward) (s : Source σ α) : (s.run p).isSome := by
  unfold Source.run
  split
  · rfl
  · exact hp.isSome_drive _ _

/-- Every run of a forward parser ends. -/
theorem isSome_parse (hp : p.Forward) (s : Source σ α) : (s.parse p).isSome := by
  simp [Source.parse, hp.isSome_run]

theorem offset_le_drive (hp : p.Forward) {state : τ} {s : Source σ α}
    {r : Except Fault τ × Source σ α} (h : s.drive p state = some r) :
    s.offset ≤ r.2.offset := by
  refine Source.drive_induct (p := p) (motive := fun _ s r => s.offset ≤ r.2.offset) ?_ ?_ ?_ h
  · intro state next s t ht
    have h1 := hp.offset_le_turn state s
    rwa [ht] at h1
  · intro state f s t ht
    have h1 := hp.offset_le_turn state s
    rwa [ht] at h1
  · intro state next s t r ht ih
    have h1 := hp.offset_le_turn state s
    rw [ht] at h1
    exact Nat.le_trans h1 ih

/-- A step that keeps its element makes the run end further on. -/
theorem offset_lt_drive (hp : p.Forward) {state : τ} {s t : Source σ α} {a : α}
    {r : Except Fault τ × Source σ α} (h : s.drive p state = some r) (hf : s.fetch = (some a, t))
    (hk : ∀ step, p.step state a = .ok step → step.back = 0) : s.offset < r.2.offset := by
  have h0 := Source.offset_fetch s
  rw [hf] at h0
  simp only at h0
  have h1 := Source.offset_retain t a
  have key : s.offset < (s.turn p state).source.offset := by
    unfold Source.turn
    simp only [hf]
    split
    · simp only [Source.Turn.source]
      omega
    · rename_i step hs
      have h2 := hk step hs
      split
      · simp only [Source.Turn.source]
        omega
      · rename_i q hb
        have h3 := Source.offset_handBack hb
        split <;> simp only [Source.Turn.source] <;> omega
  cases ht : s.turn p state with
  | done next q =>
    rw [Source.drive_of_done ht] at h
    rw [ht] at key
    cases h
    exact key
  | broken f q =>
    rw [Source.drive_of_broken ht] at h
    rw [ht] at key
    cases h
    exact key
  | again next q =>
    rw [Source.drive_of_again ht] at h
    rw [ht] at key
    exact Nat.lt_of_lt_of_le key (hp.offset_le_drive h)

/-- A run of a parser whose first step keeps its element consumes something, if there is
something. -/
theorem left_parse_lt (hp : p.Forward) {s t : Source σ α} {a : α} {state : τ}
    {r : Except Fault (Except ParseError β) × Source σ α} (h : s.parse p = some r)
    (hf : s.fetch = (some a, t)) (hstart : p.start = .ok state)
    (hk : ∀ step, p.step state a = .ok step → step.back = 0) : r.2.left < s.left := by
  have hs : s.settle.fetch = (some a, t.settle) := by
    unfold Source.fetch at hf ⊢
    simp only [Source.settle]
    split at hf <;> rename_i hp' <;> simp only [hp', Prod.mk.injEq] at hf ⊢
    · exact ⟨hf.1, by rw [← hf.2]⟩
    · exact ⟨hf.1, by rw [← hf.2]⟩
  obtain ⟨q, hq, hr⟩ := Source.run_of_parse h
  have hoff := Source.offset_conclude p q
  rw [hr] at hoff
  rw [Source.run_of_start hstart] at hq
  have hlt := hp.offset_lt_drive hq hs hk
  rw [Source.offset_settle, ← hoff] at hlt
  exact Source.left_parse_lt h (Nat.ne_of_gt hlt)

end Parser.Forward

/-- The outcome of a run of a forward parser. -/
def Source.parseForward [FinitePull σ α] (p : Parser α τ β) (hp : p.Forward) (s : Source σ α) :
    Except Fault (Except ParseError β) × Source σ α :=
  (s.parse p).get (hp.isSome_parse s)

theorem Source.parse_eq_parseForward [FinitePull σ α] {p : Parser α τ β} (hp : p.Forward)
    (s : Source σ α) : s.parse p = some (s.parseForward p hp) :=
  (Option.some_get _).symm

namespace Parser

/-- A parser of the elements before a separator goes forward. -/
theorem upTo_forward (sep : α → Bool) (f : Fold α τ β) : (upTo sep f).Forward := by
  intro s a step h
  simp only [upTo, Fold.thenStep] at h
  split at h
  · cases h
    simp [Step.back, Step.isStop]
  · cases hs : f.step s a <;> rw [hs] at h <;> cases h
    simp [Step.back]

/-- A word parser goes forward. -/
theorem word_forward (sep : α → Bool) (f : Fold α τ β) : (word sep f).Forward := by
  intro s a step h
  obtain ⟨part, s⟩ := s
  simp only [word, Fold.thenStep] at h
  split at h
  · cases h; simp [Step.back]
  · cases h; simp [Step.back]
  · cases h; simp [Step.back]
  · cases h; simp [Step.back, Step.isStop]
  · cases hs : f.step s a <;> rw [hs] at h <;> cases h
    simp [Step.back]
  · cases hs : f.step s a <;> rw [hs] at h <;> cases h
    simp [Step.back]

/-- A word parser keeps the first element that it is offered. -/
theorem back_word_before {sep : α → Bool} {f : Fold α τ β} {a : α}
    {step : Step (WordPart × τ)} (h : (word sep f).step (.before, f.start) a = .ok step) :
    step.back = 0 := by
  simp only [word, Fold.thenStep] at h
  cases hsep : sep a <;> simp only [hsep] at h
  · cases hs : f.step f.start a <;> rw [hs] at h <;> cases h
    rfl
  · cases h
    rfl

end Parser

end Streaming
