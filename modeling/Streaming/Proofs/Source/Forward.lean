import Streaming.Proofs.Source.HandBack
import Streaming.Proofs.Source.Reach
import Streaming.Proofs.Source.Rounds

/-!
# Runs of forward parsers

A run of a forward parser offers the elements to come one after the other: having taken `n` turns
it is `n` places on, and it is about to offer the element there (`Parser.Forward.asks`). So the run
comes to what the parser makes of these elements when each of them is offered once, it gets as far
as the steps use them up, and it pulls those that it offers and no others
(`Parser.Forward.parse_of_offers`).
-/

namespace Streaming

universe u v w x

variable {σ : Type u} {α : Type v} {τ : Type w} {β : Type x}

section Except

variable {ε : Type u} {m : Except ε α}

theorem exists_of_map_eq_ok {f : α → β} {b : β} (h : m.map f = .ok b) :
    ∃ a, m = .ok a ∧ f a = b := by
  cases m with
  | error e => cases h
  | ok a => exact ⟨a, rfl, Except.ok.inj h⟩

theorem eq_error_of_map_eq_error {f : α → β} {e : ε} (h : m.map f = .error e) : m = .error e := by
  cases m with
  | ok a => cases h
  | error e => exact congrArg Except.error (Except.error.inj h)

theorem exists_of_bind_eq_ok {f : α → Except ε β} {b : β} (h : m.bind f = .ok b) :
    ∃ a, m = .ok a ∧ f a = .ok b := by
  cases m with
  | error e => cases h
  | ok a => exact ⟨a, rfl, h⟩

theorem eq_error_of_bind_eq_error {f : α → Except ε β} {e : ε} (h : m.bind f = .error e) :
    m = .error e ∨ ∃ a, m = .ok a ∧ f a = .error e := by
  cases m with
  | error e => exact .inl (congrArg Except.error (Except.error.inj h))
  | ok a => exact .inr ⟨a, rfl, h⟩

end Except

/-- The parser stops on the first element, or it is offered the others behind its first step. -/
theorem Parser.exists_step_of_offerOnce {p : Parser α τ β} {a : α} {as : List α} {state last : τ}
    {steps : List (Step τ)} (h : p.offerOnce state (a :: as) = .ok (steps, last)) :
    ∃ step, p.step state a = .ok step ∧
      ((step.isStop = true ∧ steps = [step] ∧ last = step.state) ∨
        step.isStop = false ∧ ∃ rest, p.offerOnce step.state as = .ok (rest, last) ∧
          steps = step :: rest) := by
  rw [offerOnce] at h
  split at h
  · cases h
  · rename_i step hstep
    refine ⟨step, hstep, ?_⟩
    split at h
    · rename_i hstop
      cases h
      exact .inl ⟨hstop, rfl, rfl⟩
    · rename_i hstop
      obtain ⟨⟨rest, last⟩, hrest, hr⟩ := exists_of_map_eq_ok h
      cases hr
      exact .inr ⟨Bool.eq_false_iff.mpr hstop, rest, hrest, rfl⟩

/-- How many elements the steps of a forward parser use up. -/
def Parser.used : List (Step τ) → Nat
  | [] => 0
  | step :: rest => 1 - step.back + used rest

/-- On stopping, the parser hands back so many elements, and before it stops it hands back none. -/
def Parser.HandsBack (n : Nat) (p : Parser α τ β) : Prop :=
  ∀ s a step, p.step s a = .ok step → step.back = if step.isStop then n else 0

/-- If so, what is not used up of the elements offered is what the last step hands back. -/
theorem Parser.HandsBack.length_eq {n : Nat} (hn : n ≤ 1) {p : Parser α τ β} (hp : p.HandsBack n)
    {as : List α} {state last : τ} {steps : List (Step τ)}
    (h : p.offerOnce state as = .ok (steps, last)) :
    steps.length = min (used steps + n) as.length := by
  induction as generalizing state steps with
  | nil =>
    cases h
    exact (Nat.min_zero _).symm
  | cons a as ih =>
    obtain ⟨step, hstep, hsteps⟩ := exists_step_of_offerOnce h
    have hback := hp state a step hstep
    rcases hsteps with ⟨hstop, rfl, -⟩ | ⟨hstop, rest, hrest, rfl⟩
    · rw [if_pos hstop] at hback
      simp only [used, List.length_cons, List.length_nil]
      omega
    · rw [if_neg (Bool.eq_false_iff.mp hstop)] at hback
      have hlen := ih hrest
      simp only [used, List.length_cons]
      omega

namespace Source

theorem handBack_zero (s : Source σ α) : s.handBack 0 = .ok s := by
  simp [handBack]

theorem settle_of_recent_eq {s : Source σ α} (h : s.recent = []) : s.settle = s := by
  obtain ⟨input, pending, recent, passed, notices⟩ := s
  cases h
  rfl

/-- An element that is retained is consumed for good once the run is over. -/
theorem settle_retain (s : Source σ α) (a : α) : (s.retain a).settle = s.settle.pass := by
  unfold retain
  split
  · simp [settle, pass, Nat.add_assoc]
  · rename_i hfull
    have hlen : 0 < s.recent.length := by
      unfold backtrackLimit at hfull
      omega
    simp only [settle, pass, List.length_append, List.length_tail, List.length_singleton, mk.injEq,
      true_and, and_true]
    omega

theorem exists_recent_retain (s : Source σ α) (a : α) :
    ∃ kept, (s.retain a).recent = kept ++ [a] := by
  unfold retain
  split <;> exact ⟨_, rfl⟩

/-- One that is handed back on stopping is pending, as if it had been looked at. -/
theorem settle_of_handBack_retain {s t : Source σ α} {a : α} (h : (s.retain a).handBack 1 = .ok t) :
    t.settle = { s.settle with pending := a :: s.pending } := by
  obtain ⟨kept, hkept⟩ := exists_recent_retain s a
  obtain ⟨-, rfl⟩ := handBack_eq_ok h
  have hoff := offset_retain s a
  rw [offset, hkept, List.length_append, List.length_singleton] at hoff
  have hpassed : (s.retain a).passed + kept.length = s.passed + s.recent.length :=
    Nat.succ_inj.mp hoff
  simp [settle, hkept, hpassed, input_retain, pending_retain, notices_retain]

variable [FinitePull σ α]

theorem fetch_settle (s : Source σ α) : s.settle.fetch = (s.fetch.1, s.fetch.2.settle) := by
  unfold fetch
  simp only [settle]
  split <;> rfl

/-- The result of a run that is over, and the source without what the run remembers. -/
theorem parse_of_run {p : Parser α τ β} {s t : Source σ α} {state : τ} {b : β}
    (hr : s.run p = some (.ok state, t)) (hb : p.finish state = .ok (.ok b)) :
    s.parse p = some (.ok (.ok b), t.settle) := by
  rw [parse, hr]
  simp only [Option.map_some, conclude, hb]

theorem exists_fetch_of_nil {s : Source σ α} (h : s.remaining = []) :
    ∃ t, s.fetch = (none, t) := by
  cases hf : s.fetch with
  | mk answer t =>
    cases answer with
    | none => exact ⟨t, rfl⟩
    | some a =>
      rw [remaining_of_fetch_some hf] at h
      cases h

theorem exists_fetch_of_cons {s : Source σ α} {a : α} {as : List α} (h : s.remaining = a :: as) :
    ∃ t, s.fetch = (some a, t) ∧ t.remaining = as := by
  cases hf : s.fetch with
  | mk answer t =>
    cases answer with
    | none =>
      rw [(remaining_of_fetch_none hf).1] at h
      cases h
    | some b =>
      rw [remaining_of_fetch_some hf] at h
      cases h
      exact ⟨t, rfl, rfl⟩

/-- The element that was just retained can be handed back. -/
theorem exists_handBack_retain (s : Source σ α) (a : α) {n : Nat} (hn : n ≤ 1) :
    ∃ t, (s.retain a).handBack n = .ok t ∧ t.offset + n = s.offset + 1 ∧
      t.remaining = (a :: s.remaining).drop (1 - n) := by
  obtain ⟨kept, hkept⟩ := exists_recent_retain s a
  have hlen : n ≤ (s.retain a).recent.length := by
    rw [hkept, List.length_append]
    exact Nat.le_trans hn (Nat.le_add_left 1 _)
  obtain ⟨t, ht⟩ := handBack_of_le hlen
  refine ⟨t, ht, (offset_handBack ht).trans (offset_retain s a), ?_⟩
  rcases Nat.le_one_iff_eq_zero_or_eq_one.mp hn with rfl | rfl
  · rw [handBack_zero] at ht
    cases ht
    exact remaining_retain s a
  · obtain ⟨-, rfl⟩ := handBack_eq_ok ht
    simp [remaining, hkept, input_retain, pending_retain]

end Source

namespace Parser.Forward

variable [FinitePull σ α] {p : Parser α τ β} (hp : p.Forward) {s t q : Source σ α} {state next : τ}

include hp

/-! ## The places of a run -/

/-- A run goes on behind the element that it has offered. -/
theorem turn_eq_again (h : s.turn p state = .again next t) :
    ∃ a, s.remaining = a :: t.remaining ∧ t.offset = s.offset + 1 := by
  unfold Source.turn at h
  split at h
  · cases h
  · rename_i a r hf
    have hoff := Source.offset_fetch s
    rw [hf] at hoff
    split at h
    · cases h
    · rename_i step hs
      split at h
      · cases h
      · rename_i q hb
        split at h
        · cases h
        · rename_i hstop
          cases h
          rw [(hp state a step hs).2 (by simpa using hstop), Source.handBack_zero] at hb
          cases hb
          refine ⟨a, ?_, ?_⟩
          · rw [Source.remaining_of_fetch_some hf, Source.remaining_retain]
          · rw [Source.offset_retain, hoff]

/-- After `n` turns a run is `n` places on. -/
theorem turns_eq_again {n : Nat} (h : s.turns p n = .again state q) :
    q.offset = s.offset + n ∧ q.remaining = s.remaining.drop n := by
  induction n generalizing state q with
  | zero =>
    change s.opening p = _ at h
    unfold Source.opening at h
    split at h <;> cases h
    exact ⟨rfl, rfl⟩
  | succ n ih =>
    rw [Source.turns_succ] at h
    cases hn : s.turns p n with
    | done state q | broken f q =>
      rw [hn] at h
      cases h
    | again before r =>
      rw [hn] at h
      obtain ⟨hoff, hrem⟩ := ih hn
      obtain ⟨a, hcons, hstep⟩ := hp.turn_eq_again h
      refine ⟨by omega, ?_⟩
      rw [← List.drop_drop, ← hrem, hcons, List.drop_one, List.tail_cons]

/-- The element that is offered after `n` turns is the one `n` places on. -/
theorem asks {n now : Nat} {step : Step τ} (h : Source.Asks p s n now step) :
    n < (Pull.elements s).length ∧ now = s.offset + (n + 1) ∧
      step.back ≤ 1 ∧ (step.isStop = false → step.back = 0) := by
  cases h with
  | @offered state q t a ht hf hnow hs =>
    obtain ⟨hoff, hrem⟩ := hp.turns_eq_again ht
    rw [Source.remaining_of_fetch_some hf] at hrem
    have hlen := congrArg List.length hrem
    rw [List.length_cons, List.length_drop] at hlen
    rw [Source.elements_eq_remaining]
    exact ⟨by omega, by omega, hp state a step hs⟩

/-! ## A run and the elements it offers -/

theorem drive_of_offerOnce {as : List α} {steps : List (Step τ)} {last : τ}
    (hs : s.remaining = as) (h : p.offerOnce state as = .ok (steps, last)) :
    ∃ t, s.drive p state = some (.ok last, t) ∧ t.offset = s.offset + used steps ∧
      t.remaining = as.drop (used steps) ∧ t.reach = max s.reach (s.offset + steps.length) := by
  induction as generalizing s state steps with
  | nil =>
    cases h
    obtain ⟨t, hf⟩ := Source.exists_fetch_of_nil hs
    have hoff := Source.offset_fetch s
    rw [hf] at hoff
    refine ⟨t, Source.drive_of_done ?_, hoff, (Source.remaining_of_fetch_none hf).2, ?_⟩
    · simp only [Source.turn, hf]
    · rw [Source.reach_of_fetch_none hf]
      exact (Nat.max_eq_left (Nat.le_add_right ..)).symm
  | cons a as ih =>
    obtain ⟨r, hf, hr⟩ := Source.exists_fetch_of_cons hs
    have hoff := Source.offset_fetch s
    have hreach := Source.reach_of_fetch_some hf
    obtain ⟨step, hstep, hsteps⟩ := exists_step_of_offerOnce h
    obtain ⟨hback, hgoing⟩ := hp state a step hstep
    obtain ⟨t, hb, hoff', hrem⟩ := Source.exists_handBack_retain r a hback
    have hreach' := Source.reach_handBack hb
    have hturn := Source.turn_of_granted hf hstep hb
    rw [hf] at hoff
    rw [Source.reach_retain, hreach] at hreach'
    simp only at hoff
    rcases hsteps with ⟨hstop, rfl, rfl⟩ | ⟨hstop, rest, hrest, rfl⟩
    · rw [if_pos hstop] at hturn
      refine ⟨t, Source.drive_of_done hturn, ?_, ?_, hreach'⟩
      · simp only [used]
        omega
      · rw [hrem, hr]
        rfl
    · rw [if_neg (Bool.eq_false_iff.mp hstop)] at hturn
      rw [hgoing hstop] at hrem hoff'
      obtain ⟨q, hd, hq, hleft, hfar⟩ := ih (hrem.trans hr) hrest
      refine ⟨q, (Source.drive_of_again hturn).trans hd, ?_, ?_, ?_⟩
      · simp only [used, hgoing hstop]
        omega
      · rw [hleft, used, hgoing hstop, Nat.add_comm, List.drop_succ_cons]
      · rw [List.length_cons]
        omega

/-- The parser gets as far as the elements to come take it, and the run pulls those it offers. -/
theorem run_of_offers {steps : List (Step τ)} {last : τ}
    (h : p.offers (Pull.elements s) = .ok (steps, last)) :
    ∃ t, s.run p = some (.ok last, t) ∧ t.offset = s.offset + used steps ∧
      t.remaining = (Pull.elements s).drop (used steps) ∧
      t.reach = max s.reach (s.offset + steps.length) := by
  rw [Source.elements_eq_remaining] at h ⊢
  obtain ⟨state, hstart, hoffer⟩ := exists_of_bind_eq_ok h
  rw [Source.run_of_start hstart]
  exact hp.drive_of_offerOnce (s := s.settle) rfl hoffer

/-- A run of a forward parser comes to what the parser makes of the elements to come, goes on as far
as it has used them up, and pulls what it offers. -/
theorem parse_of_offers {steps : List (Step τ)} {last : τ} {answer : Except ParseError β}
    (h : p.offers (Pull.elements s) = .ok (steps, last)) (hfinish : p.finish last = .ok answer) :
    ∃ t, s.parse p = some (.ok answer, t) ∧ t.offset = s.offset + used steps ∧
      Pull.elements t = (Pull.elements s).drop (used steps) ∧
      t.notices = s.notices ++ Source.failure t.offset (.ok answer) ∧
      t.reach = max s.reach (s.offset + steps.length) := by
  obtain ⟨q, hr, hoff, hrem, hreach⟩ := hp.run_of_offers h
  have hparse : s.parse p = some (.ok answer, (Source.conclude p (.ok last, q)).2) := by
    rw [Source.parse, hr]
    exact congrArg some (Prod.ext ((Source.answer_conclude p _).trans hfinish) rfl)
  refine ⟨_, hparse, ?_, ?_, Source.notices_parse hparse, ?_⟩
  · rw [Source.offset_conclude, hoff]
  · rw [Source.elements_eq_remaining, Source.remaining_conclude, hrem]
  · rw [Source.reach_conclude, hreach]

end Parser.Forward

end Streaming
