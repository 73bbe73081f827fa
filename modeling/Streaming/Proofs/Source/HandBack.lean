import Streaming.Proofs.Source.Cursor

/-!
# How far a request can reach

A parser asks for elements back after being offered one. Three things can stand in the way: it asks
for more than the limit, for more than the run has been offered and not handed back, or for elements
that the window has forgotten. The window forgets when the run goes on to a place it has not been at
before, and takes nothing up again when elements are handed back; so it reaches the limit behind the
furthest place of the run (`furthest`), wherever the run is now.

As long as nothing has been handed back, the run is at its furthest place, and the third obstacle is
the first one. After that a request may be refused that respects the limit and the start of the run
(`refused_within_limits`).
-/

namespace Streaming.Source

open Cursor (floor)

universe u v w x

variable {σ : Type u} {α : Type v} {τ : Type w} {β : Type x} [Pull σ α]

/-! ## A turn whose step is known -/

omit [Pull σ α] in
theorem handBack_of_le {s : Source σ α} {n : Nat} (h : n ≤ s.recent.length) :
    ∃ t, s.handBack n = .ok t := by
  unfold handBack
  rw [if_pos h]
  exact ⟨_, rfl⟩

omit [Pull σ α] in
theorem handBack_of_lt {s : Source σ α} {n : Nat} (h : s.recent.length < n) :
    s.handBack n = .error (.tooFarBack n s.recent.length) := by
  unfold handBack
  rw [if_neg (Nat.not_le.mpr h)]

theorem turn_of_granted {p : Parser α τ β} {state : τ} {s t r : Source σ α} {a : α} {step : Step τ}
    (hf : s.fetch = (some a, t)) (hs : p.step state a = .ok step)
    (hb : (t.retain a).handBack step.back = .ok r) :
    s.turn p state = if step.isStop then .done step.state r else .again step.state r := by
  unfold turn
  simp only [hf, hs, hb]

theorem turn_of_refused {p : Parser α τ β} {state : τ} {s t : Source σ α} {a : α} {step : Step τ}
    {f : Fault} (hf : s.fetch = (some a, t)) (hs : p.step state a = .ok step)
    (hb : (t.retain a).handBack step.back = .error f) :
    s.turn p state = .broken f (t.retain a) := by
  unfold turn
  simp only [hf, hs, hb]

theorem turn_eq_again {p : Parser α τ β} {state next : τ} {s r : Source σ α}
    (h : s.turn p state = .again next r) :
    ∃ a t, ∃ step : Step τ, s.fetch = (some a, t) ∧
      (t.retain a).handBack step.back = .ok r ∧ step.state = next := by
  unfold turn at h
  split at h
  · cases h
  · rename_i a t hf
    split at h
    · cases h
    · rename_i step hs
      split at h
      · cases h
      · rename_i r' hb
        split at h <;> cases h
        exact ⟨a, t, step, hf, hb, rfl⟩

/-! ## The furthest place -/

/-- The offset once the next element of the run, if there is one, has been offered. -/
def Turn.reach : Turn (Source σ α) τ → Nat
  | .again _ q => q.offset + q.fetch.1.toList.length
  | t => t.source.offset

/-- The greatest offset of a run in its first `n` turns. -/
def furthest (p : Parser α τ β) (s : Source σ α) : Nat → Nat
  | 0 => s.offset
  | n + 1 => max (furthest p s n) (s.turns p n).reach

theorem furthest_succ {p : Parser α τ β} {s q t : Source σ α} {n : Nat} {state : τ} {a : α}
    (ht : s.turns p n = .again state q) (hf : q.fetch = (some a, t)) :
    furthest p s (n + 1) = max (furthest p s n) (q.offset + 1) := by
  rw [furthest, ht, Turn.reach, hf]
  rfl

theorem turns_succ_of_again {p : Parser α τ β} {s q : Source σ α} {n : Nat} {state : τ}
    (ht : s.turns p n = .again state q) : s.turns p (n + 1) = q.turn p state := by
  rw [turns_succ, ht]
  rfl

theorem turns_succ_eq_again {p : Parser α τ β} {s r : Source σ α} {n : Nat} {next : τ}
    (ht : s.turns p (n + 1) = .again next r) :
    ∃ state q a t, ∃ step : Step τ, s.turns p n = .again state q ∧ q.fetch = (some a, t) ∧
      (t.retain a).handBack step.back = .ok r ∧ step.state = next := by
  cases ht' : s.turns p n with
  | done state q | broken f q =>
    rw [turns_succ, ht'] at ht
    cases ht
  | again state q =>
    rw [turns_succ_of_again ht'] at ht
    obtain ⟨a, t, step, hf, hb, hstate⟩ := turn_eq_again ht
    exact ⟨state, q, a, t, step, rfl, hf, hb, hstate⟩

theorem parse_of_turns_broken {p : Parser α τ β} {s t : Source σ α} {n : Nat} {f : Fault}
    (h : s.turns p n = .broken f t) : s.parse p = some (.error f, t) := by
  have hr : s.run p = some (.error f, t) := run_of_turns (n := n) (by rw [h]; rfl)
  rw [parse, hr]
  rfl

theorem turns_zero_eq_again {p : Parser α τ β} {s q : Source σ α} {state : τ}
    (ht : s.turns p 0 = .again state q) : q = s.settle := by
  rw [turns, Turn.after, opening] at ht
  split at ht <;> cases ht
  rfl

/-- A run is where the cursor is that has been as far as the run. -/
theorem follows_turns {line : Line α} {s : Source σ α} (h : Along line s) (p : Parser α τ β)
    {n : Nat} {state : τ} {q : Source σ α} (ht : s.turns p n = .again state q) :
    Follows line s.offset s.notices ⟨q.offset, furthest p s n, state⟩ q := by
  induction n generalizing state q with
  | zero =>
    obtain rfl := turns_zero_eq_again ht
    exact Follows.start h state
  | succ n ih =>
    obtain ⟨state', q', a, t, step, ht', hf, hb, rfl⟩ := turns_succ_eq_again ht
    obtain ⟨halong, hoff, hpassed, hle, hnotes⟩ :=
      (((ih ht').retain hf).2 step.state).handBack hb step.state
    rw [furthest_succ ht' hf]
    exact ⟨halong, rfl, hpassed, hoff ▸ hle, hnotes⟩

/-- Without handing back, a run gets one place on in each turn. -/
theorem furthest_le {line : Line α} {s : Source σ α} (h : Along line s) (p : Parser α τ β) {n : Nat}
    {state : τ} {q : Source σ α} (ht : s.turns p n = .again state q) :
    furthest p s n ≤ s.offset + n := by
  induction n generalizing state q with
  | zero => exact Nat.le_refl _
  | succ n ih =>
    obtain ⟨state', q', a, t, step, ht', hf, -, -⟩ := turns_succ_eq_again ht
    have hpos := (follows_turns h p ht').pos_le
    have hle := ih ht'
    rw [furthest_succ ht' hf]
    simp only at hpos
    omega

/-! ## Requests -/

/-- After `n` turns, a run offers the element that takes the offset to `now`, and the parser answers
it with a step. -/
inductive Asks (p : Parser α τ β) (s : Source σ α) (n now : Nat) (step : Step τ) : Prop where
  | offered {state : τ} {q t : Source σ α} {a : α} (ht : s.turns p n = .again state q)
    (hf : q.fetch = (some a, t)) (hnow : q.offset + 1 = now) (hs : p.step state a = .ok step)

/-- What a run that began at `origin` cannot hand back at the offset `now`, having been at `high`:
more than the limit, more than it has been offered, and anything further behind `high` than the
limit. -/
def OutOfReach (origin now high back : Nat) : Prop :=
  backtrackLimit < back ∨ now < origin + back ∨ now + backtrackLimit < high + back

instance (origin now high back : Nat) : Decidable (OutOfReach origin now high back) :=
  inferInstanceAs (Decidable (_ ∨ _ ∨ _))

/-- How a run takes the request that the step after `n` turns makes. -/
structure Takes (line : Line α) (p : Parser α τ β) (s : Source σ α) (n now : Nat)
    (step : Step τ) : Prop where
  /-- The run is broken off exactly by a request out of reach. -/
  refused_iff : (∃ m t, s.turns p (n + 1) = .broken (.tooFarBack step.back m) t) ↔
    OutOfReach s.offset now (furthest p s (n + 1)) step.back
  /-- Nothing comes after a refused request. The fault names what could have been handed back. -/
  refused : OutOfReach s.offset now (furthest p s (n + 1)) step.back →
    ∃ t, s.parse p = some (.error (.tooFarBack step.back
      (now - floor s.offset (furthest p s (n + 1)))), t)
  /-- The elements of any other request are the next ones to be read. -/
  granted : ¬ OutOfReach s.offset now (furthest p s (n + 1)) step.back →
    ∃ t, s.turns p (n + 1) = (if step.isStop then .done step.state t else .again step.state t) ∧
      t.offset + step.back = now ∧ ∀ i, Pull.nth t i = line (t.offset + i)
  /-- A run that has handed nothing back has been nowhere else. -/
  furthest_eq : now = s.offset + (n + 1) → furthest p s (n + 1) = now

theorem Follows.outOfReach_iff {line : Line α} {origin : Nat} {notes : List Notice} {c : Cursor τ}
    {s : Source σ α} (h : Follows line origin notes c s) (back : Nat) :
    OutOfReach origin c.pos c.high back ↔ s.recent.length < back := by
  have hlen := h.length_recent
  have hle := h.pos_le
  unfold floor at hlen
  unfold OutOfReach
  omega

section Takes

variable {line : Line α} {p : Parser α τ β} {s q t : Source σ α} {n : Nat} {state : τ} {a : α}
  {step : Step τ}

/-- Once its next element has been offered, a run is where the cursor is that has gone one place
on. -/
theorem follows_offered (h : Along line s) (ht : s.turns p n = .again state q)
    (hf : q.fetch = (some a, t)) :
    Follows line s.offset s.notices ⟨q.offset + 1, furthest p s (n + 1), state⟩ (t.retain a) := by
  rw [furthest_succ ht hf]
  exact ((follows_turns h p ht).retain hf).2 state

theorem furthest_eq_of_offset (h : Along line s) (ht : s.turns p n = .again state q)
    (hf : q.fetch = (some a, t)) (hoff : q.offset + 1 = s.offset + (n + 1)) :
    furthest p s (n + 1) = q.offset + 1 := by
  have hle := furthest_le h p ht
  rw [furthest_succ ht hf]
  omega

theorem Takes.of_lt (h : Along line s) (ht : s.turns p n = .again state q)
    (hf : q.fetch = (some a, t)) (hs : p.step state a = .ok step)
    (hback : (t.retain a).recent.length < step.back) : Takes line p s n (q.offset + 1) step := by
  have hq := follows_offered h ht hf
  have hout := (hq.outOfReach_iff step.back).mpr hback
  have hturn := (turns_succ_of_again ht).trans (turn_of_refused hf hs (handBack_of_lt hback))
  have hparse := parse_of_turns_broken hturn
  have hlen := hq.length_recent
  have havail : (t.retain a).recent.length =
      q.offset + 1 - floor s.offset (furthest p s (n + 1)) := by
    simp only at hlen
    omega
  rw [havail] at hparse
  exact {
    refused_iff := ⟨fun _ => hout, fun _ => ⟨_, _, hturn⟩⟩
    refused := fun _ => ⟨_, hparse⟩
    granted := fun hin => absurd hout hin
    furthest_eq := furthest_eq_of_offset h ht hf }

theorem Takes.of_le (h : Along line s) (ht : s.turns p n = .again state q)
    (hf : q.fetch = (some a, t)) (hs : p.step state a = .ok step)
    (hback : step.back ≤ (t.retain a).recent.length) : Takes line p s n (q.offset + 1) step := by
  have hq := follows_offered h ht hf
  have hin : ¬ OutOfReach s.offset (q.offset + 1) (furthest p s (n + 1)) step.back :=
    fun hout => Nat.not_lt.mpr hback ((hq.outOfReach_iff step.back).mp hout)
  obtain ⟨r, hb⟩ := handBack_of_le hback
  have hturn := (turns_succ_of_again ht).trans (turn_of_granted hf hs hb)
  have hoff := (offset_handBack hb).trans hq.offset_eq
  have hr' := hq.handBack hb state
  have hnot : ¬ ∃ m t, s.turns p (n + 1) = .broken (.tooFarBack step.back m) t := by
    rintro ⟨m, t, hbroken⟩
    rw [hturn] at hbroken
    split at hbroken <;> cases hbroken
  exact {
    refused_iff := ⟨fun hbroken => absurd hbroken hnot, fun hout => absurd hout hin⟩
    refused := fun hout => absurd hout hin
    granted := fun _ => ⟨r, hturn, hoff, fun i => by rw [hr'.nth_eq, hr'.offset_eq]⟩
    furthest_eq := furthest_eq_of_offset h ht hf }

end Takes

/-- **A request is refused exactly when it is out of reach**, be it that of a step that goes on or
of one that stops, and whether or not the input has an end. -/
theorem handBack_limits {input : σ} {s : Source σ α} (h : Reachable input s) (p : Parser α τ β)
    {n now : Nat} {step : Step τ} (ha : Asks p s n now step) :
    Takes (Pull.nth input) p s n now step := by
  cases ha with
  | @offered state q t a ht hf hnow hs =>
    subst hnow
    by_cases hback : step.back ≤ (t.retain a).recent.length
    · exact .of_le h.along ht hf hs hback
    · exact .of_lt h.along ht hf hs (Nat.not_le.mp hback)

/-- Hands four elements back when it is offered the fifth, and `k` when it is offered the next. -/
def fourBackThen (k : Nat) : Parser Nat Nat Nat where
  start := .ok 0
  step n _ := .ok (if n < 4 then .yield 0 (n + 1) else if n = 4 then .yield 4 5 else .stop k n)
  finish n := .ok (.ok n)

/-- A source of five elements. -/
def upToFive : Source (Supply Nat) Nat := ofInput (.ofList [1, 2, 3, 4, 5])

/-- Having gone back from 5 to 1 and on to 2, a run can go back to 1 again. -/
theorem handBack_limits_fourBackThen :
    Reachable.{0, 0, 0} (Supply.ofList [1, 2, 3, 4, 5]) upToFive ∧
      Asks (fourBackThen 1) upToFive 5 2 (.stop 1 5) ∧
      ∃ t, upToFive.turns (fourBackThen 1) 6 = .done 5 t ∧ t.offset + 1 = 2 ∧
        Pull.elements t = [1, 2, 3, 4, 5].drop t.offset := by
  have hasks : Asks (fourBackThen 1) upToFive 5 2 (.stop 1 5) := .offered rfl rfl rfl rfl
  have htakes := handBack_limits.{0, 0, 0, 0, 0} .start (fourBackThen 1) hasks
  obtain ⟨t, hturns, hoff, hnth⟩ := htakes.granted (by decide)
  refine ⟨.start, hasks, t, hturns, hoff, List.ext_getElem? fun i => ?_⟩
  rw [← Pull.nth_eq_getElem?, hnth, Pull.nth_eq_getElem?, Supply.elements_ofList,
    List.getElem?_drop]

/-- From 2 it cannot go back to the start of the run, though this is within the limit: the window
reaches behind 5, where the run has been. -/
theorem refused_within_limits :
    Reachable.{0, 0, 0} (Supply.ofList [1, 2, 3, 4, 5]) upToFive ∧
      Asks (fourBackThen 2) upToFive 5 2 (.stop 2 5) ∧
      2 ≤ backtrackLimit ∧ upToFive.offset + 2 ≤ 2 ∧
      ∃ t, upToFive.parse (fourBackThen 2) = some (.error (.tooFarBack 2 1), t) :=
  ⟨.start, .offered rfl rfl rfl rfl, by decide, by decide, _, parse_of_turns_broken (n := 6) rfl⟩

end Streaming.Source
