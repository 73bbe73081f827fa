import Streaming.Proofs.Source.Reads

/-!
# Runs turn by turn

The turns of a run, counted (`turns`). A run has an outcome exactly when some number of turns ends
it (`run_eq_some_iff`), so two runs that agree after every number of turns are one.

Two sources are alike if they remember the same elements and still read the same ones, however many
of these are pending. A parser cannot tell them apart (`Alike.answer_parse`).
-/

namespace Streaming

universe u u' v w x

section Rel

variable {A : Type u} {B : Type v} {A' : Type w} {B' : Type x} {R : A → B → Prop}
  {S : A' → B' → Prop} {x : Option A} {y : Option B}

theorem map_eq_of_rel {f : A → A'} {g : B → A'} (h : Option.Rel R x y)
    (hfg : ∀ a b, R a b → g b = f a) : y.map g = x.map f := by
  cases h with
  | some h => exact congrArg some (hfg _ _ h)
  | none => rfl

theorem rel_imp {S : A → B → Prop} (h : Option.Rel R x y)
    (hRS : ∀ a b, x = some a → y = some b → R a b → S a b) : Option.Rel S x y := by
  cases h with
  | some h => exact .some (hRS _ _ rfl rfl h)
  | none => exact .none

theorem rel_map {f : A → A'} {g : B → B'} (h : Option.Rel R x y)
    (hfg : ∀ a b, R a b → S (f a) (g b)) : Option.Rel S (x.map f) (y.map g) := by
  cases h with
  | some h => exact .some (hfg _ _ h)
  | none => exact .none

theorem rel_bind {f : A → Option A'} {g : B → Option B'} (h : Option.Rel R x y)
    (hfg : ∀ a b, R a b → Option.Rel S (f a) (g b)) : Option.Rel S (x.bind f) (y.bind g) := by
  cases h with
  | some h => exact hfg _ _ h
  | none => exact .none

end Rel

namespace Source

section Turns

variable {σ : Type u} {α : Type v} {τ : Type w} {β : Type x} [Pull σ α]

/-- What a run that is over comes to. -/
def Turn.outcome? : Turn (Source σ α) τ → Option (Except Fault τ × Source σ α)
  | .done state s => some (.ok state, s)
  | .broken f s => some (.error f, s)
  | .again _ _ => none

/-- One more turn, if the run goes on. -/
def Turn.next (p : Parser α τ β) : Turn (Source σ α) τ → Turn (Source σ α) τ
  | .again state s => s.turn p state
  | t => t

/-- At most `n` more turns. -/
def Turn.after (p : Parser α τ β) : Nat → Turn (Source σ α) τ → Turn (Source σ α) τ
  | 0, t => t
  | n + 1, t => (t.next p).after p n

/-- Where a run on the source is before its first turn. -/
def opening (p : Parser α τ β) (s : Source σ α) : Turn (Source σ α) τ :=
  match p.start with
  | .error f => .broken f s.settle
  | .ok state => .again state s.settle

/-- Where a run on the source is after `n` turns, or after fewer if these end it. -/
def turns (p : Parser α τ β) (s : Source σ α) (n : Nat) : Turn (Source σ α) τ :=
  (s.opening p).after p n

omit [Pull σ α] in
theorem opening_of_start {p : Parser α τ β} {state : τ} (h : p.start = .ok state)
    (s : Source σ α) : s.opening p = .again state s.settle := by
  rw [opening, h]

omit [Pull σ α] in
theorem opening_of_start_error {p : Parser α τ β} {f : Fault} (h : p.start = .error f)
    (s : Source σ α) : s.opening p = .broken f s.settle := by
  rw [opening, h]

theorem Turn.next_of_outcome {p : Parser α τ β} {t : Turn (Source σ α) τ}
    {r : Except Fault τ × Source σ α} (h : t.outcome? = some r) : t.next p = t := by
  cases t with
  | done | broken => rfl
  | again => cases h

theorem Turn.after_of_outcome {p : Parser α τ β} {t : Turn (Source σ α) τ}
    {r : Except Fault τ × Source σ α} (h : t.outcome? = some r) (n : Nat) : t.after p n = t := by
  induction n with
  | zero => rfl
  | succ n ih => rw [after, next_of_outcome h, ih]

theorem Turn.after_succ (p : Parser α τ β) (n : Nat) (t : Turn (Source σ α) τ) :
    t.after p (n + 1) = (t.after p n).next p := by
  induction n generalizing t with
  | zero => rfl
  | succ n ih => rw [after, ih, ← after]

theorem drive_of_after {p : Parser α τ β} {n : Nat} {state : τ} {s : Source σ α}
    {r : Except Fault τ × Source σ α} (h : ((Turn.again state s).after p n).outcome? = some r) :
    s.drive p state = some r := by
  induction n generalizing state s with
  | zero => cases h
  | succ n ih =>
    rw [Turn.after, Turn.next] at h
    cases ht : s.turn p state with
    | done next t =>
      rw [ht, Turn.after_of_outcome rfl] at h
      rw [drive_of_done ht]
      exact h
    | broken f t =>
      rw [ht, Turn.after_of_outcome rfl] at h
      rw [drive_of_broken ht]
      exact h
    | again next t =>
      rw [ht] at h
      rw [drive_of_again ht]
      exact ih h

/-- A run has an outcome exactly when some number of turns ends it. -/
theorem drive_eq_some_iff {p : Parser α τ β} {state : τ} {s : Source σ α}
    {r : Except Fault τ × Source σ α} :
    s.drive p state = some r ↔ ∃ n, ((Turn.again state s).after p n).outcome? = some r := by
  refine ⟨fun h => ?_, fun ⟨n, h⟩ => drive_of_after h⟩
  refine drive_induct (p := p) (motive := fun state s r =>
    ∃ n, ((Turn.again state s).after p n).outcome? = some r) ?_ ?_ ?_ h
  · intro state next s t ht
    exact ⟨1, by rw [Turn.after, Turn.next, ht]; rfl⟩
  · intro state f s t ht
    exact ⟨1, by rw [Turn.after, Turn.next, ht]; rfl⟩
  · intro state next s t r ht ⟨n, hn⟩
    exact ⟨n + 1, by rw [Turn.after, Turn.next, ht]; exact hn⟩

theorem turns_succ (p : Parser α τ β) (s : Source σ α) (n : Nat) :
    s.turns p (n + 1) = (s.turns p n).next p :=
  Turn.after_succ p n _

theorem run_eq_some_iff {p : Parser α τ β} {s : Source σ α} {r : Except Fault τ × Source σ α} :
    s.run p = some r ↔ ∃ n, (s.turns p n).outcome? = some r := by
  cases hstart : p.start with
  | error f =>
    have hturns : ∀ n, s.turns p n = .broken f s.settle := by
      intro n
      rw [turns, opening_of_start_error hstart, Turn.after_of_outcome rfl]
    simp only [run_of_start_error hstart, hturns, Turn.outcome?, exists_const]
  | ok state =>
    simp only [run_of_start hstart, turns, opening_of_start hstart]
    exact drive_eq_some_iff

theorem run_of_turns {p : Parser α τ β} {n : Nat} {s : Source σ α}
    {r : Except Fault τ × Source σ α} (h : (s.turns p n).outcome? = some r) : s.run p = some r :=
  run_eq_some_iff.mpr ⟨n, h⟩

theorem run_congr {p q : Parser α τ β} {s : Source σ α} (h : ∀ n, s.turns q n = s.turns p n) :
    s.run q = s.run p := by
  apply Option.ext
  intro r
  rw [run_eq_some_iff, run_eq_some_iff]
  exact exists_congr fun n => by rw [h n]

theorem map_fst_parse (p : Parser α τ β) (s : Source σ α) :
    (s.parse p).map Prod.fst = ((s.run p).map Prod.fst).map (Except.bind · p.finish) := by
  rw [parse, Option.map_map, Option.map_map]
  exact congrArg (Option.map · _) (funext fun r => answer_conclude p r)

omit [Pull σ α] in
@[simp] theorem notices_retain (s : Source σ α) (a : α) :
    (s.retain a).notices = s.notices := by
  unfold retain
  split <;> rfl

omit [Pull σ α] in
theorem notices_handBack {s t : Source σ α} {n : Nat} (h : s.handBack n = .ok t) :
    t.notices = s.notices := by
  obtain ⟨-, rfl⟩ := handBack_eq_ok h
  rfl

theorem carried_notices (notes : List Notice) :
    Carried fun s : Source σ α => s.notices = notes where
  fetch_none {s t} h hf := by
    have hn := notices_fetch s
    rw [hf] at hn
    exact hn.trans h
  retain {s t a} h hf := by
    have hn := notices_fetch s
    rw [hf] at hn
    exact (notices_retain t a).trans (hn.trans h)
  handBack h hb := (notices_handBack hb).trans h

theorem notices_run {p : Parser α τ β} {s : Source σ α} {r : Except Fault τ × Source σ α}
    (h : s.run p = some r) : r.2.notices = s.notices :=
  (carried_notices s.notices).run rfl h

end Turns

/-! ## Alike sources -/

section Alike

variable {σ : Type u} {ρ : Type u'} {α : Type v} {τ : Type w} {β : Type x} [FinitePull σ α]
  [FinitePull ρ α]

/-- Two sources that remember the same elements and still read the same ones; `d` tells how much
further the second has got. -/
structure Alike (d : Int) (s : Source σ α) (t : Source ρ α) : Prop where
  recent_eq : t.recent = s.recent
  remaining_eq : t.remaining = s.remaining
  passed_eq : (t.passed : Int) = s.passed + d

/-- Turns that come to the same, on sources that are alike. -/
inductive Turn.Alike (d : Int) : Turn (Source σ α) τ → Turn (Source ρ α) τ → Prop where
  | done {state : τ} {s : Source σ α} {t : Source ρ α} (h : s.Alike d t) :
    Turn.Alike d (.done state s) (.done state t)
  | broken {f : Fault} {s : Source σ α} {t : Source ρ α} (h : s.Alike d t) :
    Turn.Alike d (.broken f s) (.broken f t)
  | again {state : τ} {s : Source σ α} {t : Source ρ α} (h : s.Alike d t) :
    Turn.Alike d (.again state s) (.again state t)

namespace Alike

variable {d : Int} {s : Source σ α} {t : Source ρ α}

theorem offset_eq (h : s.Alike d t) : (t.offset : Int) = s.offset + d := by
  have := h.passed_eq
  simp only [offset, h.recent_eq]
  omega

theorem fetch (h : s.Alike d t) :
    t.fetch.1 = s.fetch.1 ∧ s.fetch.2.Alike d t.fetch.2 := by
  have hp : (t.fetch.2.passed : Int) = s.fetch.2.passed + d := by
    rw [passed_fetch, passed_fetch, h.passed_eq]
  have hr : t.fetch.2.recent = s.fetch.2.recent := by
    rw [recent_fetch, recent_fetch, h.recent_eq]
  have hm := h.remaining_eq
  cases hs : s.fetch with
  | mk a s' =>
    cases ht : t.fetch with
    | mk b t' =>
      rw [hs, ht] at hp hr
      cases a with
      | none =>
        have h1 := remaining_of_fetch_none hs
        cases b with
        | none =>
          have h2 := remaining_of_fetch_none ht
          exact ⟨rfl, hr, by rw [h1.2, h2.2], hp⟩
        | some b =>
          have h2 := remaining_of_fetch_some ht
          rw [hm, h1.1] at h2
          cases h2
      | some a =>
        have h1 := remaining_of_fetch_some hs
        cases b with
        | none =>
          have h2 := remaining_of_fetch_none ht
          rw [hm, h1] at h2
          cases h2.1
        | some b =>
          have h2 := remaining_of_fetch_some ht
          rw [hm, h1, List.cons.injEq] at h2
          exact ⟨by rw [h2.1], hr, h2.2.symm, hp⟩

theorem retain (h : s.Alike d t) (a : α) : (s.retain a).Alike d (t.retain a) := by
  have hp := h.passed_eq
  refine ⟨?_, by simpa using h.remaining_eq, ?_⟩
  · simp only [Source.retain, h.recent_eq]
    split <;> rfl
  · simp only [Source.retain, h.recent_eq]
    split
    · exact hp
    · simp only [Int.natCast_add, hp]
      omega

theorem handBack (h : s.Alike d t) (n : Nat) :
    (∃ f, s.handBack n = .error f ∧ t.handBack n = .error f) ∨
      ∃ s' t', s.handBack n = .ok s' ∧ t.handBack n = .ok t' ∧ s'.Alike d t' := by
  unfold Source.handBack
  rw [h.recent_eq]
  split
  · refine .inr ⟨_, _, rfl, rfl, rfl, ?_, h.passed_eq⟩
    have hm := h.remaining_eq
    simp only [remaining, List.append_assoc] at hm ⊢
    rw [hm]
  · exact .inl ⟨_, rfl, rfl⟩

theorem turn (h : s.Alike d t) (p : Parser α τ β) (state : τ) :
    Turn.Alike d (s.turn p state) (t.turn p state) := by
  obtain ⟨hf, ha⟩ := h.fetch
  cases hs : s.fetch with
  | mk a s' =>
    cases ht : t.fetch with
    | mk b t' =>
      rw [hs, ht] at hf ha
      cases hf
      unfold Source.turn
      rw [hs, ht]
      cases a with
      | none => exact .done ha
      | some a =>
        simp only
        cases p.step state a with
        | error f => exact .broken (ha.retain a)
        | ok step =>
          obtain ⟨f, h1, h2⟩ | ⟨s'', t'', h1, h2, h3⟩ := (ha.retain a).handBack step.back
          · simp only [h1, h2]
            exact .broken (ha.retain a)
          · simp only [h1, h2]
            split
            · exact .done h3
            · exact .again h3

theorem symm (h : s.Alike d t) : t.Alike (-d) s := by
  have := h.passed_eq
  exact ⟨h.recent_eq.symm, h.remaining_eq.symm, by omega⟩

theorem after {a : Turn (Source σ α) τ} {b : Turn (Source ρ α) τ} (h : Turn.Alike d a b)
    (p : Parser α τ β) (n : Nat) : Turn.Alike d (a.after p n) (b.after p n) := by
  induction n generalizing a b with
  | zero => exact h
  | succ n ih =>
    apply ih
    cases h with
    | done h => exact .done h
    | broken h => exact .broken h
    | again h => exact h.turn p _

theorem drive (h : s.Alike d t) {p : Parser α τ β} {state : τ}
    {r : Except Fault τ × Source σ α} (hd : s.drive p state = some r) :
    ∃ t', t.drive p state = some (r.1, t') ∧ r.2.Alike d t' := by
  obtain ⟨n, hn⟩ := drive_eq_some_iff.mp hd
  have hagain : Turn.Alike d (.again state s) (.again state t) := .again h
  have ha := after hagain p n
  have hd' := @drive_of_after ρ α τ β _ p n state t
  revert hn ha hd'
  generalize (Turn.again state s).after p n = a
  generalize (Turn.again state t).after p n = b
  intro hn ha hd'
  cases ha with
  | done h =>
    cases hn
    exact ⟨_, hd' rfl, h⟩
  | broken h =>
    cases hn
    exact ⟨_, hd' rfl, h⟩
  | again h => cases hn

theorem of_settle (h : t.remaining = s.remaining) :
    s.settle.Alike (t.offset - s.offset) t.settle := by
  refine ⟨rfl, h, ?_⟩
  show (t.offset : Int) = s.offset + (t.offset - s.offset)
  omega

/-- Runs on sources that are alike both have an outcome or both have none. -/
theorem drive_rel (h : s.Alike d t) (p : Parser α τ β) (state : τ) :
    Option.Rel (fun a b => b.1 = a.1 ∧ a.2.Alike d b.2) (s.drive p state) (t.drive p state) := by
  cases hs : s.drive p state with
  | some r =>
    obtain ⟨t', ht, halike⟩ := h.drive hs
    rw [ht]
    exact .some ⟨rfl, halike⟩
  | none =>
    cases ht : t.drive p state with
    | none => exact .none
    | some r =>
      obtain ⟨s', hs', -⟩ := h.symm.drive ht
      rw [hs'] at hs
      cases hs

theorem run_rel (h : s.settle.Alike d t.settle) (p : Parser α τ β) :
    Option.Rel (fun a b => b.1 = a.1 ∧ a.2.Alike d b.2) (s.run p) (t.run p) := by
  cases hstart : p.start with
  | error f =>
    rw [run_of_start_error hstart, run_of_start_error hstart]
    exact .some ⟨rfl, h⟩
  | ok state =>
    rw [run_of_start hstart, run_of_start hstart]
    exact h.drive_rel p state

theorem run (h : s.settle.Alike d t.settle) {p : Parser α τ β}
    {r : Except Fault τ × Source σ α} (hr : s.run p = some r) :
    ∃ t', t.run p = some (r.1, t') ∧ r.2.Alike d t' := by
  have hrel := h.run_rel p
  rw [hr] at hrel
  generalize hq : t.run p = y at hrel
  cases hrel with
  | @some _ q hab => exact ⟨q.2, congrArg some (Prod.ext hab.1 rfl), hab.2⟩

/-- A run's answer depends only on the elements still to be read. -/
theorem answer_parse {s : Source σ α} {t : Source ρ α} (h : t.remaining = s.remaining)
    (p : Parser α τ β) : (t.parse p).map Prod.fst = (s.parse p).map Prod.fst := by
  rw [map_fst_parse, map_fst_parse, map_eq_of_rel ((of_settle h).run_rel p) fun _ _ hab => hab.1]

end Alike

end Alike

end Source

end Streaming
