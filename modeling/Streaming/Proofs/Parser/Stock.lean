import Streaming.Proofs.Parser.Tracks

/-!
# Stock parsers and their folds

A stock parser that carries a fold decides from the elements alone what it passes to the fold, what
it drops, and when it stops. So with any fold it keeps in step with itself collecting a list: what
the fold has been given is what has been collected (`Fold.Given`).

Hence a stock parser with a total fold is safe on every source, and its result is what the fold
makes of the list that the same parser collects (`Stock.safe_and_generic`).
-/

namespace Streaming

universe u v w x x'

namespace Fold

variable {α : Type u} {σ : Type v} {β : Type w} {f : Fold α σ β}

theorem stepAll_append (f : Fold α σ β) (s : σ) (as bs : List α) :
    f.stepAll s (as ++ bs) = (f.stepAll s as).bind (f.stepAll · bs) := by
  induction as generalizing s with
  | nil => rfl
  | cons a as ih =>
    rw [List.cons_append, stepAll, stepAll]
    cases f.step s a with
    | error e => rfl
    | ok t => exact ih t

/-- The state of the fold once it has been given the elements. -/
def Given (f : Fold α σ β) (as : List α) (s : σ) : Prop := f.stepAll f.start as = .ok s

theorem Given.start (f : Fold α σ β) : f.Given [] f.start := rfl

theorem Given.step {as : List α} {a : α} {s t : σ} (h : f.Given as s) (ht : f.step s a = .ok t) :
    f.Given (as ++ [a]) t := by
  rw [Given, stepAll_append, h]
  simp only [Except.bind, stepAll, ht]

namespace Total

variable (hf : f.Total)

include hf

theorem exists_given (as : List α) : ∃ s, f.Given as s := by
  have hall : ∀ s, ∃ t, f.stepAll s as = .ok t := by
    induction as with
    | nil => exact fun s => ⟨s, rfl⟩
    | cons a as ih =>
      intro s
      obtain ⟨t, ht⟩ := hf s a
      simp only [stepAll, ht]
      exact ih t
  exact hall f.start

theorem run_ne_error (as : List α) (e : Fault) : f.run as ≠ .error e := by
  obtain ⟨s, hs⟩ := hf.exists_given as
  rw [run, hs]
  exact nofun

/-- What a total fold makes of a list of elements. -/
def output (as : List α) : β :=
  match h : f.run as with
  | .ok b => b
  | .error e => absurd h (hf.run_ne_error as e)

theorem run_eq_output (as : List α) : f.run as = .ok (hf.output as) := by
  unfold output
  split
  · assumption
  · rename_i e he
    exact absurd he (hf.run_ne_error as e)

theorem output_eq {as : List α} {s : σ} (h : f.Given as s) : hf.output as = f.finish s := by
  have hrun := hf.run_eq_output as
  rw [run, h] at hrun
  exact (Except.ok.inj hrun).symm

end Total

/-- Whatever a step makes of the state, it does to the list what it does to the fold. -/
theorem Given.thenStep {τ : Type x} {τ' : Type x'} {R : τ → τ' → Prop} {as : List α} {s : σ}
    {answer : List α → Step τ} {answer' : σ → Step τ'} (hf : f.Total) (h : f.Given as s) (a : α)
    (hanswer : ∀ t, f.Given (as ++ [a]) t → Step.Rel R (answer (as ++ [a])) (answer' t)) :
    Both (Step.Rel R) (toList.thenStep as a answer) (f.thenStep s a answer') := by
  obtain ⟨t, ht⟩ := hf s a
  rw [Fold.thenStep, Fold.thenStep, ht]
  exact .ok (hanswer t (h.step ht))

/-- A step that uses its element hands nothing back. -/
theorem back_thenStep {τ : Type x} {s : σ} {a : α} {answer : σ → Step τ} {step : Step τ}
    (h : f.thenStep s a answer = .ok step) (hanswer : ∀ t, (answer t).back = 0) :
    step.back ≤ 1 ∧ (step.isStop = false → step.back = 0) := by
  unfold Fold.thenStep at h
  cases hs : f.step s a with
  | error e =>
    rw [hs] at h
    cases h
  | ok t =>
    rw [hs] at h
    cases h
    have hback := hanswer t
    exact ⟨by omega, fun _ => hback⟩

end Fold

/-- States with the same part beside what corresponds. -/
inductive Beside {γ : Type u} {τ : Type v} {τ' : Type w} (R : τ → τ' → Prop) :
    γ × τ → γ × τ' → Prop where
  | mk (c : γ) {s : τ} {t : τ'} (h : R s t) : Beside R (c, s) (c, t)

/-! ## The stock, one by one -/

namespace Parser

open Fold (Given)

section Tracks

variable {α : Type u} {σ : Type v} {β : Type w} {f : Fold α σ β} (hf : f.Total)

theorem ofFold_tracks : Tracks f.Given hf.output (ofFold .toList) (ofFold f) where
  start := .ok (.start f)
  step a h := h.thenStep hf a fun _ ht => .yield 0 ht
  finish h := .ok (congrArg Except.ok (hf.output_eq h).symm)

theorem exactly_tracks (count : Nat) :
    Tracks (Beside f.Given) hf.output (exactly count .toList) (exactly count f) where
  start := .ok (.mk 0 (.start f))
  step := by
    rintro _ _ a ⟨taken, h⟩
    simp only [exactly]
    by_cases hfull : count ≤ taken
    · rw [if_pos hfull, if_pos hfull]
      exact .ok (.stop 1 (.mk taken h))
    · rw [if_neg hfull, if_neg hfull]
      apply h.thenStep hf
      intro t ht
      split
      · exact .stop 0 (.mk _ ht)
      · exact .yield 0 (.mk _ ht)
  finish := by
    rintro _ _ ⟨taken, h⟩
    simp only [exactly, ← hf.output_eq h]
    refine .ok ?_
    split <;> rfl

theorem atLeast_tracks (count : Nat) :
    Tracks (Beside f.Given) hf.output (atLeast count .toList) (atLeast count f) where
  start := .ok (.mk 0 (.start f))
  step := by
    rintro _ _ a ⟨taken, h⟩
    simp only [atLeast]
    apply h.thenStep hf
    intro t ht
    exact .yield 0 (.mk _ ht)
  finish := by
    rintro _ _ ⟨taken, h⟩
    simp only [atLeast, ← hf.output_eq h]
    refine .ok ?_
    split <;> rfl

theorem takeWhile_tracks (p : α → Bool) :
    Tracks f.Given hf.output (takeWhile p .toList) (takeWhile p f) where
  start := .ok (.start f)
  step := by
    intro as s a h
    simp only [takeWhile]
    by_cases hp : p a
    · rw [if_pos hp, if_pos hp]
      exact h.thenStep hf a fun _ ht => .yield 0 ht
    · rw [if_neg hp, if_neg hp]
      exact .ok (.stop 1 h)
  finish h := .ok (congrArg Except.ok (hf.output_eq h).symm)

theorem upTo_tracks (sep : α → Bool) :
    Tracks f.Given hf.output (upTo sep .toList) (upTo sep f) where
  start := .ok (.start f)
  step := by
    intro as s a h
    simp only [upTo]
    by_cases hsep : sep a
    · rw [if_pos hsep, if_pos hsep]
      exact .ok (.stop 0 h)
    · rw [if_neg hsep, if_neg hsep]
      exact h.thenStep hf a fun _ ht => .yield 0 ht
  finish h := .ok (congrArg Except.ok (hf.output_eq h).symm)

theorem upToAtMost_tracks (sep : α → Bool) (max : Nat) :
    Tracks (Beside f.Given) hf.output (upToAtMost sep max .toList) (upToAtMost sep max f) where
  start := .ok (.mk 0 (.start f))
  step := by
    rintro _ _ a ⟨taken, h⟩
    simp only [upToAtMost]
    by_cases hfull : max ≤ taken
    · rw [if_pos hfull, if_pos hfull]
      exact .ok (.stop 1 (.mk taken h))
    · rw [if_neg hfull, if_neg hfull]
      by_cases hsep : sep a
      · rw [if_pos hsep, if_pos hsep]
        exact .ok (.stop 0 (.mk taken h))
      · rw [if_neg hsep, if_neg hsep]
        apply h.thenStep hf
        intro t ht
        split
        · exact .stop 0 (.mk _ ht)
        · exact .yield 0 (.mk _ ht)
  finish := by
    rintro _ _ ⟨taken, h⟩
    exact .ok (congrArg Except.ok (hf.output_eq h).symm)

theorem through_tracks (sep : α → Bool) :
    Tracks f.Given hf.output (through sep .toList) (through sep f) where
  start := .ok (.start f)
  step := by
    intro as s a h
    apply h.thenStep hf
    intro t ht
    split
    · exact .stop 0 ht
    · exact .yield 0 ht
  finish h := .ok (congrArg Except.ok (hf.output_eq h).symm)

theorem headed_tracks (sep : α → Bool) :
    Tracks (Beside f.Given) hf.output (headed sep .toList) (headed sep f) where
  start := .ok (.mk false (.start f))
  step := by
    rintro _ _ a ⟨started, h⟩
    simp only [headed]
    by_cases hstop : (started && sep a) = true
    · rw [if_pos hstop, if_pos hstop]
      exact .ok (.stop 1 (.mk started h))
    · rw [if_neg hstop, if_neg hstop]
      exact h.thenStep hf a fun _ ht => .yield 0 (.mk true ht)
  finish := by
    rintro _ _ ⟨started, h⟩
    exact .ok (congrArg Except.ok (hf.output_eq h).symm)

theorem word_tracks (sep : α → Bool) :
    Tracks (Beside f.Given) hf.output (word sep .toList) (word sep f) where
  start := .ok (.mk WordPart.before (.start f))
  step := by
    rintro _ _ a ⟨part, h⟩
    simp only [word]
    cases part with
    | before =>
      cases sep a with
      | true => exact .ok (.skip 0 (.mk WordPart.before h))
      | false => exact h.thenStep hf a fun _ ht => .yield 0 (.mk WordPart.inside ht)
    | inside =>
      cases sep a with
      | true => exact .ok (.skip 0 (.mk WordPart.behind h))
      | false => exact h.thenStep hf a fun _ ht => .yield 0 (.mk WordPart.inside ht)
    | behind =>
      cases sep a with
      | true => exact .ok (.skip 0 (.mk WordPart.behind h))
      | false => exact .ok (.stop 1 (.mk WordPart.behind h))
  finish := by
    rintro _ _ ⟨part, h⟩
    exact .ok (congrArg Except.ok (hf.output_eq h).symm)

theorem runOf_tracks (same : α → α → Bool) :
    Tracks (Beside f.Given) hf.output (runOf same .toList) (runOf same f) where
  start := .ok (.mk none (.start f))
  step := by
    rintro _ _ a ⟨first, h⟩
    simp only [runOf]
    cases first with
    | none => exact h.thenStep hf a fun _ ht => .yield 0 (.mk (some a) ht)
    | some first =>
      simp only
      by_cases hsame : same first a
      · rw [if_pos hsame, if_pos hsame]
        exact h.thenStep hf a fun _ ht => .yield 0 (.mk (some first) ht)
      · rw [if_neg hsame, if_neg hsame]
        exact .ok (.stop 1 (.mk (some first) h))
  finish := by
    rintro _ _ ⟨first, h⟩
    exact .ok (congrArg Except.ok (hf.output_eq h).symm)

end Tracks

section Forward

variable {α : Type u} {σ : Type v} {β : Type w} (f : Fold α σ β)

theorem ofFold_forward : (ofFold f).Forward :=
  fun _ _ _ h => Fold.back_thenStep h fun _ => rfl

theorem exactly_forward (count : Nat) : (exactly count f).Forward := by
  rintro ⟨taken, s⟩ a step h
  simp only [exactly] at h
  split at h
  · cases h
    exact ⟨Nat.le_refl 1, nofun⟩
  · apply Fold.back_thenStep h
    intro t
    split <;> rfl

theorem atLeast_forward (count : Nat) : (atLeast count f).Forward := by
  rintro ⟨taken, s⟩ a step h
  exact Fold.back_thenStep h fun _ => rfl

theorem takeWhile_forward (p : α → Bool) : (takeWhile p f).Forward := by
  intro s a step h
  simp only [takeWhile] at h
  split at h
  · exact Fold.back_thenStep h fun _ => rfl
  · cases h
    exact ⟨Nat.le_refl 1, nofun⟩

theorem upToAtMost_forward (sep : α → Bool) (max : Nat) : (upToAtMost sep max f).Forward := by
  rintro ⟨taken, s⟩ a step h
  simp only [upToAtMost] at h
  split at h
  · cases h
    exact ⟨Nat.le_refl 1, nofun⟩
  · split at h
    · cases h
      exact ⟨Nat.zero_le 1, nofun⟩
    · apply Fold.back_thenStep h
      intro t
      split <;> rfl

theorem through_forward (sep : α → Bool) : (through sep f).Forward := by
  intro s a step h
  apply Fold.back_thenStep h
  intro t
  split <;> rfl

theorem headed_forward (sep : α → Bool) : (headed sep f).Forward := by
  rintro ⟨started, s⟩ a step h
  simp only [headed] at h
  split at h
  · cases h
    exact ⟨Nat.le_refl 1, nofun⟩
  · exact Fold.back_thenStep h fun _ => rfl

theorem runOf_forward (same : α → α → Bool) : (runOf same f).Forward := by
  rintro ⟨first, s⟩ a step h
  simp only [runOf] at h
  cases first with
  | none => exact Fold.back_thenStep h fun _ => rfl
  | some first =>
    simp only at h
    split at h
    · exact Fold.back_thenStep h fun _ => rfl
    · cases h
      exact ⟨Nat.le_refl 1, nofun⟩

end Forward

end Parser

/-! ## The stock as a whole -/

/-- The stock parsers that carry a fold, with everything but the fold. -/
inductive Stock (α : Type u) : Type u where
  | ofFold
  | exactly (count : Nat)
  | atLeast (count : Nat)
  | takeWhile (p : α → Bool)
  | upTo (sep : α → Bool)
  | upToAtMost (sep : α → Bool) (max : Nat)
  | through (sep : α → Bool)
  | headed (sep : α → Bool)
  | word (sep : α → Bool)
  | runOf (same : α → α → Bool)

namespace Stock

open Repetition (Abreast)
open Source (Asks)

variable {α σ : Type u} {β : Type v}

/-- The states of the parser with a fold that has the states `σ`. -/
def State (σ : Type u) : Stock α → Type u
  | .ofFold | .takeWhile _ | .upTo _ | .through _ => σ
  | .exactly _ | .atLeast _ | .upToAtMost _ _ => Nat × σ
  | .headed _ => Bool × σ
  | .word _ => WordPart × σ
  | .runOf _ => Option α × σ

/-- The parser with a fold. -/
def parser (f : Fold α σ β) : (k : Stock α) → Parser α (k.State σ) β
  | .ofFold => .ofFold f
  | .exactly count => .exactly count f
  | .atLeast count => .atLeast count f
  | .takeWhile p => .takeWhile p f
  | .upTo sep => .upTo sep f
  | .upToAtMost sep max => .upToAtMost sep max f
  | .through sep => .through sep f
  | .headed sep => .headed sep f
  | .word sep => .word sep f
  | .runOf same => .runOf same f

theorem forward (f : Fold α σ β) (k : Stock α) : (k.parser f).Forward := by
  cases k with
  | ofFold => exact Parser.ofFold_forward f
  | exactly count => exact Parser.exactly_forward f count
  | atLeast count => exact Parser.atLeast_forward f count
  | takeWhile p => exact Parser.takeWhile_forward f p
  | upTo sep => exact Parser.upTo_forward sep f
  | upToAtMost sep max => exact Parser.upToAtMost_forward f sep max
  | through sep => exact Parser.through_forward f sep
  | headed sep => exact Parser.headed_forward f sep
  | word sep => exact Parser.word_forward sep f
  | runOf same => exact Parser.runOf_forward f same

theorem exists_tracks {f : Fold α σ β} (hf : f.Total) (k : Stock α) :
    ∃ R, Parser.Tracks R hf.output (k.parser .toList) (k.parser f) := by
  cases k with
  | ofFold => exact ⟨_, Parser.ofFold_tracks hf⟩
  | exactly count => exact ⟨_, Parser.exactly_tracks hf count⟩
  | atLeast count => exact ⟨_, Parser.atLeast_tracks hf count⟩
  | takeWhile p => exact ⟨_, Parser.takeWhile_tracks hf p⟩
  | upTo sep => exact ⟨_, Parser.upTo_tracks hf sep⟩
  | upToAtMost sep max => exact ⟨_, Parser.upToAtMost_tracks hf sep max⟩
  | through sep => exact ⟨_, Parser.through_tracks hf sep⟩
  | headed sep => exact ⟨_, Parser.headed_tracks hf sep⟩
  | word sep => exact ⟨_, Parser.word_tracks hf sep⟩
  | runOf same => exact ⟨_, Parser.runOf_tracks hf same⟩

variable {ρ : Type w} [FinitePull ρ α]

/-- A run on the source comes to an answer. On the way each element to come is offered once at most,
and none is handed back but the last one offered, by the step that stops. -/
structure Safe {τ : Type x} (p : Parser α τ β) (s : Source ρ α) : Prop where
  returns : Repetition.Returns p s
  once : ∀ {n now : Nat} {step : Step τ}, Asks p s n now step →
    n < (Pull.elements s).length ∧ now = s.offset + (n + 1)
  back_le : ∀ {n now : Nat} {step : Step τ}, Asks p s n now step →
    step.back ≤ 1 ∧ (step.isStop = false → step.back = 0)

theorem Safe.of_forward {τ : Type x} {p : Parser α τ β} (hp : p.Forward) {s : Source ρ α}
    (h : Repetition.Returns p s) : Safe p s where
  returns := h
  once ha := ⟨(hp.asks ha).1, (hp.asks ha).2.1⟩
  back_le ha := (hp.asks ha).2.2

/-- **Stock parsers are safe, and generic in their fold.** With any total fold, a stock parser does
to a source what it does when it collects a list, and its result is what the fold makes of the
list. Repeating it gives what the fold makes of the lists that it gives when it collects. -/
theorem safe_and_generic {f : Fold α σ β} (hf : f.Total) (k : Stock α) (s : Source ρ α) :
    (∀ as, f.run as = .ok (hf.output as)) ∧
      Safe (k.parser f) s ∧
      (∃ r t, s.parse (k.parser .toList) = some (.ok r, t) ∧
        s.parse (k.parser f) = some (.ok (r.map hf.output), t)) ∧
      ∀ n, ∃ as t t', (Repetition.start (k.parser .toList) s).answers n = some (as, t) ∧
        (Repetition.start (k.parser f) s).answers n =
          some (as.map (Option.map (Except.map hf.output)), t') ∧
        t'.source = t.source ∧ t.fault = none ∧ t'.fault = none := by
  obtain ⟨R, htracks⟩ := k.exists_tracks hf
  obtain ⟨r, t, hlist, hfold⟩ := htracks.exists_parse (k.forward .toList) s
  refine ⟨hf.run_eq_output, .of_forward (k.forward f) ⟨_, t, hfold⟩, ⟨r, t, hlist, hfold⟩, ?_⟩
  intro n
  obtain ⟨as, t, t', hlist, hfold, habreast⟩ :=
    htracks.answers (k.forward .toList) (.mk s false) n
  refine ⟨as, t, t', hlist, hfold, ?_⟩
  cases habreast with
  | mk s done => exact ⟨rfl, rfl, rfl⟩

/-- Taking two elements of three and counting them. -/
theorem safe_and_generic_two :
    let s : Source (Supply Nat) Nat := .ofInput (.ofList [7, 8, 9])
    (Fold.length : Fold Nat Nat Nat).Total ∧ Safe (Parser.exactly 2 .length) s ∧
      ∃ t, s.parse (.exactly 2 .toList) = some (.ok (.ok [7, 8]), t) ∧
        s.parse (.exactly 2 .length) = some (.ok (.ok 2), t) := by
  intro s
  have htotal : (Fold.length : Fold Nat Nat Nat).Total :=
    Fold.ofFn_total 0 (fun n _ => n + 1) id
  obtain ⟨hrun, hsafe, ⟨r, t, hlist, hlength⟩, -⟩ := safe_and_generic htotal (.exactly 2) s
  have hd : s.settle.drive (.exactly 2 .toList) (0, []) =
      some (.ok (2, [7, 8]), ⟨⟨⟨[some 9], 2, 2, none⟩, false⟩, [], [7, 8], 0, []⟩) :=
    Source.drive_of_after (n := 2) rfl
  have hparse : s.parse (.exactly 2 .toList) =
      some (.ok (.ok [7, 8]), ⟨⟨⟨[some 9], 2, 2, none⟩, false⟩, [], [], 2, []⟩) :=
    congrArg (Option.map (Source.conclude (.exactly 2 .toList))) hd
  cases hlist.symm.trans hparse
  have htwo : htotal.output [7, 8] = 2 := Except.ok.inj (hrun [7, 8]).symm
  rw [Except.map, htwo] at hlength
  exact ⟨htotal, hsafe, _, hlist, hlength⟩

end Stock

end Streaming
