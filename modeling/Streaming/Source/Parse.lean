import Streaming.Source

/-!
# Running a parser on a source

A run offers elements until the parser stops or the source is exhausted; elements handed back are
offered again before any other. Each turn of the run consumes one element and gives back as many as
the parser asks for, which must be among the last `backtrackLimit` of the run.

What a parser hands back on stopping stays in the source. A parser that hands elements back without
stopping may go on for ever, as may one that reads an endless input, so a run need not have an
outcome; what every outcome satisfies is shown turn by turn (`drive_induct`).
-/

namespace Streaming.Source

universe u v w x

variable {σ : Type u} {α : Type v} {τ : Type w} {β : Type x}

/-- What one turn of a run comes to. -/
inductive Turn (ς : Type u) (τ : Type w) where
  /-- The run is over, in this state of the parser. -/
  | done (state : τ) (source : ς)
  /-- The run is broken off. -/
  | broken (fault : Fault) (source : ς)
  /-- The run goes on. -/
  | again (state : τ) (source : ς)

/-- The answer of a run that is over: that of the parser's last state, unless a fault broke the run
off. An error is noted. -/
def conclude (p : Parser α τ β) :
    Except Fault τ × Source σ α → Except Fault (Except ParseError β) × Source σ α
  | (.error f, t) => (.error f, t)
  | (.ok state, t) =>
    match p.finish state with
    | .error f => (.error f, t.settle)
    | .ok (.ok b) => (.ok (.ok b), t.settle)
    | .ok (.error e) => (.ok (.error e), t.settle.note (.failed t.offset e))

section Requests

variable [Pull σ α]

/-- Offers the next element to a parser in the given state. -/
def turn (p : Parser α τ β) (state : τ) (s : Source σ α) : Turn (Source σ α) τ :=
  match s.fetch with
  | (none, s) => .done state s
  | (some a, s) =>
    match p.step state a with
    | .error f => .broken f (s.retain a)
    | .ok step =>
      match (s.retain a).handBack step.back with
      | .error f => .broken f (s.retain a)
      | .ok t => if step.isStop then .done step.state t else .again step.state t

/-- Takes turns until the run is over. A run that goes on for ever has no outcome. -/
def drive (p : Parser α τ β) (state : τ) (s : Source σ α) :
    Option (Except Fault τ × Source σ α) :=
  match s.turn p state with
  | .done state t => some (.ok state, t)
  | .broken f t => some (.error f, t)
  | .again state t => t |>.drive p state
partial_fixpoint

/-- Runs a parser from its first state, with no element to hand back. -/
def run (p : Parser α τ β) (s : Source σ α) : Option (Except Fault τ × Source σ α) :=
  match p.start with
  | .error f => some (.error f, s.settle)
  | .ok state => s.settle.drive p state

/-- Runs a parser on the source. -/
def parse (p : Parser α τ β) (s : Source σ α) :
    Option (Except Fault (Except ParseError β) × Source σ α) :=
  (s.run p).map (conclude p)

theorem run_of_start {p : Parser α τ β} {state : τ} (h : p.start = .ok state) (s : Source σ α) :
    s.run p = s.settle.drive p state := by
  rw [run, h]

theorem run_of_start_error {p : Parser α τ β} {f : Fault} (h : p.start = .error f)
    (s : Source σ α) : s.run p = some (.error f, s.settle) := by
  rw [run, h]

/-- A run is broken off before its first turn, or takes turns from the parser's first state. -/
theorem run_eq_some {p : Parser α τ β} {s : Source σ α} {r : Except Fault τ × Source σ α}
    (h : s.run p = some r) :
    (∃ f, p.start = .error f ∧ r = (.error f, s.settle)) ∨
      ∃ state, p.start = .ok state ∧ s.settle.drive p state = some r := by
  unfold run at h
  split at h
  · rename_i f hstart
    cases h
    exact .inl ⟨f, hstart, rfl⟩
  · rename_i state hstart
    exact .inr ⟨state, hstart, h⟩

end Requests

/-! ## What a turn does to the counts -/

theorem offset_retain (s : Source σ α) (a : α) : (s.retain a).offset = s.offset + 1 := by
  unfold retain
  split
  · simp [offset]
    omega
  · rename_i h
    have : 0 < s.recent.length := by unfold backtrackLimit at h; omega
    simp [offset]
    omega

theorem passed_le_retain (s : Source σ α) (a : α) : s.passed ≤ (s.retain a).passed := by
  unfold retain
  split <;> simp

theorem offset_handBack {s t : Source σ α} {n : Nat} (h : s.handBack n = .ok t) :
    t.offset + n = s.offset := by
  obtain ⟨hn, rfl⟩ := handBack_eq_ok h
  simp only [offset, List.length_take]
  omega

theorem passed_handBack {s t : Source σ α} {n : Nat} (h : s.handBack n = .ok t) :
    t.passed = s.passed := by
  obtain ⟨-, rfl⟩ := handBack_eq_ok h
  rfl

theorem offset_settle (s : Source σ α) : s.settle.offset = s.offset := rfl

/-- The source after a turn. -/
def Turn.source {ς : Type u} : Turn ς τ → ς
  | .done _ s | .broken _ s | .again _ s => s

section Requests

variable [Pull σ α]

theorem offset_fetch (s : Source σ α) : s.fetch.2.offset = s.offset := by
  unfold fetch
  split <;> rfl

theorem passed_fetch (s : Source σ α) : s.fetch.2.passed = s.passed := by
  unfold fetch
  split <;> rfl

theorem passed_le_turn (p : Parser α τ β) (state : τ) (s : Source σ α) :
    s.passed ≤ (s.turn p state).source.passed := by
  unfold turn
  split
  · rename_i t hf
    have h := passed_fetch s
    rw [hf] at h
    simp only [Turn.source] at *
    omega
  · rename_i a t hf
    have h1 := passed_fetch s
    rw [hf] at h1
    simp only at h1
    have h2 := passed_le_retain t a
    split
    · simp only [Turn.source]
      omega
    · split
      · simp only [Turn.source]
        omega
      · rename_i r hb
        have h3 := passed_handBack hb
        split <;> simp only [Turn.source] <;> omega

/-! ## Induction on a run -/

theorem drive_of_done {p : Parser α τ β} {state next : τ} {s t : Source σ α}
    (h : s.turn p state = .done next t) : s.drive p state = some (.ok next, t) := by
  rw [drive, h]

theorem drive_of_broken {p : Parser α τ β} {state : τ} {s t : Source σ α} {f : Fault}
    (h : s.turn p state = .broken f t) : s.drive p state = some (.error f, t) := by
  rw [drive, h]

theorem drive_of_again {p : Parser α τ β} {state next : τ} {s t : Source σ α}
    (h : s.turn p state = .again next t) : s.drive p state = t.drive p next := by
  rw [drive, h]

/-- What holds of the outcome of a last turn, and of a turn's run if it holds of the run that goes
on after it, holds of every run that has an outcome. -/
theorem drive_induct {p : Parser α τ β}
    {motive : τ → Source σ α → Except Fault τ × Source σ α → Prop}
    (done : ∀ {state next s t}, s.turn p state = .done next t → motive state s (.ok next, t))
    (broken : ∀ {state f s t}, s.turn p state = .broken f t → motive state s (.error f, t))
    (again : ∀ {state next s t r}, s.turn p state = .again next t → motive next t r →
      motive state s r)
    {state : τ} {s : Source σ α} {r : Except Fault τ × Source σ α}
    (h : s.drive p state = some r) : motive state s r := by
  refine drive.partial_correctness p motive ?_ state s r h
  intro run ih state s r hr
  split at hr
  · rename_i next t ht
    cases hr
    exact done ht
  · rename_i f t ht
    cases hr
    exact broken ht
  · rename_i next t ht
    exact again ht (ih next t r hr)

theorem passed_le_drive {p : Parser α τ β} {state : τ} {s : Source σ α}
    {r : Except Fault τ × Source σ α} (h : s.drive p state = some r) : s.passed ≤ r.2.passed := by
  refine drive_induct (p := p) (motive := fun _ s r => s.passed ≤ r.2.passed) ?_ ?_ ?_ h
  · intro state next s t ht
    have hturn := passed_le_turn p state s
    rwa [ht] at hturn
  · intro state f s t ht
    have hturn := passed_le_turn p state s
    rwa [ht] at hturn
  · intro state next s t r ht ih
    have hturn := passed_le_turn p state s
    rw [ht] at hturn
    exact Nat.le_trans hturn ih

end Requests

@[simp] theorem answer_conclude (p : Parser α τ β) (r : Except Fault τ × Source σ α) :
    (conclude p r).1 = r.1.bind p.finish := by
  obtain ⟨outcome, t⟩ := r
  cases outcome with
  | error f => rfl
  | ok state =>
    unfold conclude
    simp only [Except.bind]
    split <;> rename_i h <;> simp [h]

@[simp] theorem offset_conclude (p : Parser α τ β) (r : Except Fault τ × Source σ α) :
    (conclude p r).2.offset = r.2.offset := by
  unfold conclude
  split
  · rfl
  · split <;> rfl

section Requests

variable [Pull σ α]

/-- An outcome of `parse` is the outcome of a run. -/
theorem run_of_parse {p : Parser α τ β} {s t : Source σ α}
    {r : Except Fault (Except ParseError β)} (h : s.parse p = some (r, t)) :
    ∃ q, s.run p = some q ∧ conclude p q = (r, t) :=
  Option.map_eq_some_iff.mp h

theorem passed_le_run {p : Parser α τ β} {s : Source σ α} {r : Except Fault τ × Source σ α}
    (h : s.run p = some r) : s.offset ≤ r.2.passed := by
  obtain ⟨f, -, rfl⟩ | ⟨state, -, hd⟩ := run_eq_some h
  · exact Nat.le_refl _
  · exact passed_le_drive hd

/-- A run does not reach back beyond its start. -/
theorem offset_le_parse {p : Parser α τ β} {s t : Source σ α}
    {r : Except Fault (Except ParseError β)} (h : s.parse p = some (r, t)) :
    s.offset ≤ t.offset := by
  obtain ⟨q, hq, hr⟩ := run_of_parse h
  have hoff := offset_conclude p q
  rw [hr] at hoff
  rw [hoff]
  exact Nat.le_trans (passed_le_run hq) (Nat.le_add_right ..)

end Requests

/-! ## Runs over a finite input -/

section Finite

variable [FinitePull σ α]

theorem left_retain (s : Source σ α) (a : α) : (s.retain a).left = s.left := by
  unfold retain
  split <;> rfl

theorem left_handBack {s t : Source σ α} {n : Nat} (h : s.handBack n = .ok t) :
    t.left = s.left + n := by
  obtain ⟨hn, rfl⟩ := handBack_eq_ok h
  simp only [left, List.length_append, List.length_drop]
  omega

theorem left_settle (s : Source σ α) : s.settle.left = s.left := rfl

theorem left_note (s : Source σ α) (n : Notice) : (s.note n).left = s.left := rfl

theorem left_fetch_le (s : Source σ α) : s.fetch.2.left ≤ s.left := by
  cases h : s.fetch.1 with
  | none => simp [left_fetch_of_none (Prod.ext h rfl : s.fetch = (none, s.fetch.2))]
  | some a => exact Nat.le_of_lt (left_fetch_lt (Prod.ext h rfl : s.fetch = (some a, s.fetch.2)))

/-- A turn consumes before it hands back, so it cannot win elements. -/
theorem left_add_offset_turn_le (p : Parser α τ β) (state : τ) (s : Source σ α) :
    (s.turn p state).source.left + (s.turn p state).source.offset ≤ s.left + s.offset := by
  unfold turn
  split
  · rename_i t hf
    have h1 := left_fetch_le s
    have h2 := offset_fetch s
    rw [hf] at h1 h2
    simp only [Turn.source] at *
    omega
  · rename_i a t hf
    have h1 := left_fetch_lt hf
    have h2 := offset_fetch s
    rw [hf] at h2
    simp only at h2
    have h3 := offset_retain t a
    have h4 := left_retain t a
    split
    · simp only [Turn.source]
      omega
    · split
      · simp only [Turn.source]
        omega
      · rename_i r hb
        have h5 := offset_handBack hb
        have h6 := left_handBack hb
        split <;> simp only [Turn.source] <;> omega

theorem left_add_offset_drive_le {p : Parser α τ β} {state : τ} {s : Source σ α}
    {r : Except Fault τ × Source σ α} (h : s.drive p state = some r) :
    r.2.left + r.2.offset ≤ s.left + s.offset := by
  refine drive_induct (p := p)
    (motive := fun _ s r => r.2.left + r.2.offset ≤ s.left + s.offset) ?_ ?_ ?_ h
  · intro state next s t ht
    have hturn := left_add_offset_turn_le p state s
    rwa [ht] at hturn
  · intro state f s t ht
    have hturn := left_add_offset_turn_le p state s
    rwa [ht] at hturn
  · intro state next s t r ht ih
    have hturn := left_add_offset_turn_le p state s
    rw [ht] at hturn
    exact Nat.le_trans ih hturn

@[simp] theorem left_conclude (p : Parser α τ β) (r : Except Fault τ × Source σ α) :
    (conclude p r).2.left = r.2.left := by
  unfold conclude
  split
  · rfl
  · split <;> rfl

/-- A run cannot win elements. -/
theorem left_add_offset_parse_le {p : Parser α τ β} {s t : Source σ α}
    {r : Except Fault (Except ParseError β)} (h : s.parse p = some (r, t)) :
    t.left + t.offset ≤ s.left + s.offset := by
  obtain ⟨q, hq, hr⟩ := run_of_parse h
  have hleft := left_conclude p q
  have hoff := offset_conclude p q
  rw [hr] at hleft hoff
  rw [hleft, hoff]
  obtain ⟨f, -, rfl⟩ | ⟨state, -, hd⟩ := run_eq_some hq
  · exact Nat.le_refl _
  · have hle := left_add_offset_drive_le hd
    rwa [left_settle, offset_settle] at hle

theorem left_parse_le {p : Parser α τ β} {s t : Source σ α}
    {r : Except Fault (Except ParseError β)} (h : s.parse p = some (r, t)) : t.left ≤ s.left := by
  have h1 := left_add_offset_parse_le h
  have h2 := offset_le_parse h
  omega

/-- A run that ends at another offset than it started at has consumed elements. -/
theorem left_parse_lt {p : Parser α τ β} {s t : Source σ α}
    {r : Except Fault (Except ParseError β)} (h : s.parse p = some (r, t))
    (hne : t.offset ≠ s.offset) : t.left < s.left := by
  have h1 := left_add_offset_parse_le h
  have h2 := offset_le_parse h
  omega

end Finite

end Streaming.Source
