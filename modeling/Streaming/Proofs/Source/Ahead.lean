import Streaming.Proofs.Pull
import Streaming.Source.Session

/-!
# What lies ahead of a source

An input need not end, so the elements that a source is still to be asked for are told place by
place: the pending ones, and behind them those of its input (`Source.ahead`). Consuming an element,
remembering it and handing it back move it between three places, so the elements that were
remembered and those ahead make up a line from the place up to which everything is forgotten: the
source is on this line (`Along`).

What these moves keep is kept by every operation (`Kept.perform`), and so every reachable source is
on the line of its input (`Reachable.along`).
-/

namespace Streaming

universe u v w x

/-- What there is at every place; behind a place that is empty there is nothing. -/
abbrev Line (α : Type u) := Nat → Option α

/-- A list, and a line behind it. -/
def Line.behind {α : Type u} : List α → Line α → Line α
  | [], line, i => line i
  | a :: _, _, 0 => some a
  | _ :: as, line, i + 1 => behind as line i

namespace Line

variable {α : Type u}

theorem behind_append (as bs : List α) (line : Line α) (i : Nat) :
    behind (as ++ bs) line i = behind as (behind bs line) i := by
  induction as generalizing i with
  | nil => rfl
  | cons a as ih =>
    cases i with
    | zero => rfl
    | succ i => exact ih i

theorem behind_length_add (as : List α) (line : Line α) (i : Nat) :
    behind as line (as.length + i) = line i := by
  induction as with
  | nil => rw [List.length_nil, Nat.zero_add, behind]
  | cons a as ih => rw [List.length_cons, Nat.add_right_comm, behind, ih]

theorem behind_congr {line other : Line α} (h : ∀ i, line i = other i) (as : List α) (i : Nat) :
    behind as line i = behind as other i := by
  rw [funext h]

theorem behind_getElem? (as bs : List α) (i : Nat) :
    behind as (bs[·]?) i = (as ++ bs)[i]? := by
  induction as generalizing i with
  | nil => rfl
  | cons a as ih =>
    cases i with
    | zero => rfl
    | succ i => exact ih i

end Line

namespace Repetition

variable {σ : Type u} {α : Type v} {τ : Type w} {β : Type x} [Pull σ α]

theorem fault_of_next {r : Repetition σ α τ β}
    {a : Option (Except ParseError β) × Repetition σ α τ β} (h : r.next = some a)
    (hf : a.2.fault = none) : r.fault = none := by
  unfold next at h
  split at h
  · cases h
    exact hf
  · split at h
    · cases h
      exact hf
    · obtain ⟨⟨outcome, t⟩, -, hk⟩ := Option.map_eq_some_iff.mp h
      unfold keep at hk
      split at hk
      · cases hk
        cases hf
      · cases hk
        exact hf
      · split at hk <;> cases hk <;> exact hf

theorem fault_of_answers {n : Nat} {r : Repetition σ α τ β}
    {a : List (Option (Except ParseError β)) × Repetition σ α τ β} (h : r.answers n = some a)
    (hf : a.2.fault = none) : r.fault = none := by
  induction n generalizing r a with
  | zero =>
    cases h
    exact hf
  | succ n ih =>
    obtain ⟨first, hn, hm⟩ := Option.bind_eq_some_iff.mp h
    obtain ⟨rest, hr, rfl⟩ := Option.map_eq_some_iff.mp hm
    exact fault_of_next hn (ih hr hf)

end Repetition

namespace Source

variable {σ : Type u} {α : Type v} {τ : Type w} {β : Type x} [Pull σ α]

/-! ## The frame of fetching -/

@[simp] theorem recent_fetch (s : Source σ α) : s.fetch.2.recent = s.recent := by
  unfold fetch
  split <;> rfl

@[simp] theorem notices_fetch (s : Source σ α) : s.fetch.2.notices = s.notices := by
  unfold fetch
  split <;> rfl

/-! ## What the elementary moves keep -/

/-- A property of sources that every turn of a run keeps. -/
structure Carried (P : Source σ α → Prop) : Prop where
  fetch_none : ∀ {s t}, P s → s.fetch = (none, t) → P t
  retain : ∀ {s t a}, P s → s.fetch = (some a, t) → P (t.retain a)
  handBack : ∀ {s t n}, P s → s.handBack n = .ok t → P t

/-- A property of sources that is kept also between runs and outside of them. -/
structure Kept (P : Source σ α → Prop) : Prop extends Carried P where
  pass : ∀ {s t a}, P s → s.recent = [] → s.fetch = (some a, t) → P t.pass
  putBack : ∀ {s t a}, P s → s.recent = [] → s.fetch = (some a, t) →
    P { t with pending := a :: t.pending }
  settle : ∀ {s}, P s → P s.settle
  note : ∀ {s}, P s → ∀ n, P (s.note n)

/-- A source between operations has the property and remembers nothing. -/
structure Rests (P : Source σ α → Prop) (s : Source σ α) : Prop where
  holds : P s
  recent_eq : s.recent = []

namespace Carried

variable {P : Source σ α → Prop} (hP : Carried P) {s t : Source σ α}

include hP

theorem turn (h : P s) (p : Parser α τ β) (state : τ) : P (s.turn p state).source := by
  unfold Source.turn
  split
  · rename_i t hf
    exact hP.fetch_none h hf
  · rename_i a t hf
    have hr := hP.retain h hf
    split
    · exact hr
    · split
      · exact hr
      · rename_i q hb
        split <;> exact hP.handBack hr hb

theorem drive {p : Parser α τ β} {state : τ} {r : Except Fault τ × Source σ α} (h : P s)
    (hd : s.drive p state = some r) : P r.2 := by
  refine drive_induct (p := p) (motive := fun _ s r => P s → P r.2) ?_ ?_ ?_ hd h
  · intro state next s t ht h
    have := hP.turn h p state
    rwa [ht] at this
  · intro state f s t ht h
    have := hP.turn h p state
    rwa [ht] at this
  · intro state next s t r ht ih h
    have := hP.turn h p state
    rw [ht] at this
    exact ih this

theorem run {p : Parser α τ β} {r : Except Fault τ × Source σ α} (h : P s.settle)
    (hr : s.run p = some r) : P r.2 := by
  obtain ⟨f, -, rfl⟩ | ⟨state, -, hd⟩ := run_eq_some hr
  · exact h
  · exact hP.drive h hd

end Carried

namespace Kept

variable {P : Source σ α → Prop} (hP : Kept P) {s t : Source σ α}

include hP

theorem rests_fetch_none (h : Rests P s) (hf : s.fetch = (none, t)) : Rests P t := by
  have hr := recent_fetch s
  rw [hf] at hr
  exact ⟨hP.fetch_none h.holds hf, hr.trans h.recent_eq⟩

theorem rests_pass (h : Rests P s) {a : α} (hf : s.fetch = (some a, t)) : Rests P t.pass := by
  have hr := recent_fetch s
  rw [hf] at hr
  exact ⟨hP.pass h.holds h.recent_eq hf, hr.trans h.recent_eq⟩

theorem rests_putBack (h : Rests P s) {a : α} (hf : s.fetch = (some a, t)) :
    Rests P { t with pending := a :: t.pending } := by
  have hr := recent_fetch s
  rw [hf] at hr
  exact ⟨hP.putBack h.holds h.recent_eq hf, hr.trans h.recent_eq⟩

theorem rests_note (h : Rests P s) (n : Notice) : Rests P (s.note n) :=
  ⟨hP.note h.holds n, h.recent_eq⟩

theorem next (h : Rests P s) : Rests P s.next.2 := by
  unfold Source.next
  split
  · rename_i t hf
    exact hP.rests_fetch_none h hf
  · rename_i a t hf
    exact hP.rests_pass h hf

theorem peek (h : Rests P s) : Rests P s.peek.2 := by
  unfold Source.peek
  split
  · rename_i t hf
    exact hP.rests_fetch_none h hf
  · rename_i a t hf
    exact hP.rests_putBack h hf

theorem passIf (h : Rests P s) (q : α → Bool) : Rests P (s.passIf q).2 := by
  unfold Source.passIf
  split
  · rename_i t hf
    exact hP.rests_fetch_none h hf
  · rename_i a t hf
    split
    · exact hP.rests_pass h hf
    · exact hP.rests_putBack h hf

theorem skip {q : α → Bool} {r : Nat × Source σ α} (h : Rests P s) (hs : s.skip q = some r) :
    Rests P r.2 := by
  refine skip.partial_correctness q (fun s r => Rests P s → Rests P r.2) ?_ s r hs h
  intro run ih s r hr h
  have hpass := hP.passIf h q
  split at hr
  · rename_i t hq
    cases hr
    rwa [hq] at hpass
  · rename_i t hq
    rw [hq] at hpass
    obtain ⟨dropped, hd, hr⟩ := Option.bind_eq_some_iff.mp hr
    cases hr
    exact ih t dropped hd hpass

theorem parse {p : Parser α τ β} {r : Except ParseError β} (h : Rests P s)
    (hp : s.parse p = some (.ok r, t)) : Rests P t := by
  obtain ⟨⟨outcome, q⟩, hd, hr⟩ := run_of_parse hp
  have hq : Rests P q.settle := ⟨hP.settle (hP.run (hP.settle h.holds) hd), rfl⟩
  unfold conclude at hr
  split at hr
  · cases hr
  · rename_i heq
    cases heq
    split at hr <;> cases hr
    · exact hq
    · exact hP.rests_note hq _

theorem repetition_next {r : Repetition σ α τ β}
    {a : Option (Except ParseError β) × Repetition σ α τ β} (h : Rests P r.source)
    (hn : r.next = some a) (hf : a.2.fault = none) : Rests P a.2.source := by
  unfold Repetition.next at hn
  split at hn
  · cases hn
    exact h
  · have hs : Rests P r.source.atEnd.2 := hP.peek h
    split at hn
    · rename_i source he
      cases hn
      rw [he] at hs
      exact hs
    · rename_i source he
      rw [he] at hs
      obtain ⟨⟨outcome, t⟩, hp, hk⟩ := Option.map_eq_some_iff.mp hn
      unfold Repetition.keep at hk
      split at hk
      · cases hk
        cases hf
      · rename_i heq
        cases heq
        cases hk
        exact hP.parse hs hp
      · rename_i heq
        cases heq
        split at hk <;> cases hk
        · exact hP.rests_note (hP.parse hs hp) _
        · exact hP.parse hs hp

theorem repetition_answers {n : Nat} {r : Repetition σ α τ β}
    {a : List (Option (Except ParseError β)) × Repetition σ α τ β} (h : Rests P r.source)
    (ha : r.answers n = some a) (hf : a.2.fault = none) : Rests P a.2.source := by
  induction n generalizing r a with
  | zero =>
    cases ha
    exact h
  | succ n ih =>
    obtain ⟨first, hn, hm⟩ := Option.bind_eq_some_iff.mp ha
    obtain ⟨rest, hr, rfl⟩ := Option.map_eq_some_iff.mp hm
    have hfirst : first.2.fault = none := Repetition.fault_of_answers hr hf
    exact ih (a := rest) (hP.repetition_next h hn hfirst) hr hf

theorem perform {op : Operation α} {a : Answer α} (h : Rests P s)
    (hp : s.perform op = some (.ok a, t)) : Rests P t := by
  cases op with
  | next =>
    cases hp
    exact hP.next h
  | peek =>
    cases hp
    exact hP.peek h
  | atEnd =>
    cases hp
    exact hP.peek h
  | dropWhile q =>
    obtain ⟨r, hs, hr⟩ := Option.map_eq_some_iff.mp hp
    cases hr
    exact hP.skip h hs
  | parse p =>
    obtain ⟨⟨outcome, q⟩, hd, hr⟩ := Option.map_eq_some_iff.mp hp
    cases outcome with
    | error f => cases hr
    | ok r =>
      cases hr
      exact hP.parse h hd
  | repeated p requests =>
    obtain ⟨r, ha, hr⟩ := Option.map_eq_some_iff.mp hp
    split at hr
    · rename_i hf
      cases hr
      exact hP.repetition_answers (r := Repetition.start p s) h ha hf
    · cases hr

/-- Every reachable source has a property that is kept, if the source of everything has it. -/
theorem reachable {input : σ} (h₀ : P (.ofInput input)) (h : Reachable input s) : Rests P s := by
  induction h with
  | start => exact ⟨h₀, rfl⟩
  | perform _ hp ih => exact hP.perform ih hp

end Kept

/-! ## What is ahead -/

/-- The elements to come: the pending ones, and those of the input. -/
def ahead (s : Source σ α) : Line α := .behind s.pending (Pull.nth s.input)

theorem ahead_of_fetch_none {s t : Source σ α} (h : s.fetch = (none, t)) (i : Nat) :
    s.ahead i = none ∧ t.ahead i = none := by
  unfold fetch at h
  split at h
  · cases h
  · rename_i hp
    simp only [Prod.mk.injEq] at h
    have hn : s.input.next = (none, s.input.next.2) := Prod.ext h.1 rfl
    have hended := Latch.ended_of_next_none hn
    rw [← h.2]
    simp only [ahead, hp, Line.behind]
    exact ⟨Pull.nth_of_none hn i, Latch.nth_of_ended hended i⟩

theorem ahead_of_fetch_some {s t : Source σ α} {a : α} (h : s.fetch = (some a, t)) (i : Nat) :
    s.ahead i = Line.behind [a] t.ahead i := by
  unfold fetch at h
  split at h
  · rename_i b pending hp
    cases h
    rw [ahead, hp]
    exact Line.behind_append [a] pending _ i
  · rename_i hp
    simp only [Prod.mk.injEq] at h
    have hn : Pull.pull s.input = (some a, s.input.next.2) := Prod.ext h.1 rfl
    rw [ahead, hp, ← h.2]
    cases i with
    | zero => simp [Line.behind, Pull.nth, hn]
    | succ i =>
      simp only [Line.behind, ahead, hp]
      exact Pull.nth_succ_of_some hn i

theorem ahead_retain (s : Source σ α) (a : α) : (s.retain a).ahead = s.ahead := by
  unfold retain
  split <;> rfl

theorem pull_of_fetch_none {s t : Source σ α} (h : s.fetch = (none, t)) :
    Pull.pull s = (none, t) := by
  show s.next = _
  rw [next, h]

theorem pull_of_fetch_some {s t : Source σ α} {a : α} (h : s.fetch = (some a, t)) :
    Pull.pull s = (some a, t.pass) := by
  show s.next = _
  rw [next, h]

/-- Reading a source goes along the elements ahead of it. -/
theorem nth_eq_ahead (s : Source σ α) (i : Nat) : Pull.nth s i = s.ahead i := by
  induction i generalizing s with
  | zero =>
    cases hf : s.fetch with
    | mk answer t =>
      cases answer with
      | none => rw [Pull.nth_of_none (pull_of_fetch_none hf), (ahead_of_fetch_none hf 0).1]
      | some a =>
        rw [ahead_of_fetch_some hf, Pull.nth, pull_of_fetch_some hf]
        rfl
  | succ i ih =>
    cases hf : s.fetch with
    | mk answer t =>
      cases answer with
      | none => rw [Pull.nth_of_none (pull_of_fetch_none hf), (ahead_of_fetch_none hf _).1]
      | some a =>
        rw [ahead_of_fetch_some hf, Pull.nth_succ_of_some (pull_of_fetch_some hf), ih]
        rfl

/-! ## Along a line -/

/-- The source has forgotten the first places of the line, remembers those after them, and has the
others ahead. -/
def Along (line : Line α) (s : Source σ α) : Prop :=
  ∀ i, line (s.passed + i) = Line.behind s.recent s.ahead i

namespace Along

variable {line : Line α} {s t : Source σ α}

theorem ahead_eq (h : Along line s) (i : Nat) : s.ahead i = line (s.offset + i) := by
  rw [offset, Nat.add_assoc, h, Line.behind_length_add]

theorem ofInput (input : σ) : Along (Pull.nth input) (Source.ofInput input : Source σ α) := by
  intro i
  rw [← Latch.nth_mk]
  exact congrArg _ (Nat.zero_add i)

theorem settle (h : Along line s) : Along line s.settle := fun i => (h.ahead_eq i).symm

theorem note (h : Along line s) (n : Notice) : Along line (s.note n) := h

theorem fetch_none (h : Along line s) (hf : s.fetch = (none, t)) : Along line t := by
  intro i
  have hrecent := recent_fetch s
  have hpassed := passed_fetch s
  rw [hf] at hrecent hpassed
  rw [hpassed, hrecent, h]
  refine Line.behind_congr (fun j => ?_) s.recent i
  obtain ⟨hs, ht⟩ := ahead_of_fetch_none hf j
  rw [hs, ht]

/-- What is ahead after a fetch follows the element fetched, which follows what is remembered. -/
theorem fetch_some (h : Along line s) {a : α} (hf : s.fetch = (some a, t)) (i : Nat) :
    line (t.passed + i) = Line.behind (t.recent ++ [a]) t.ahead i := by
  have hrecent := recent_fetch s
  have hpassed := passed_fetch s
  rw [hf] at hrecent hpassed
  rw [hpassed, hrecent, h, Line.behind_append]
  exact Line.behind_congr (ahead_of_fetch_some hf) s.recent i

theorem retain (h : Along line s) {a : α} (hf : s.fetch = (some a, t)) :
    Along line (t.retain a) := by
  intro i
  rw [ahead_retain]
  unfold Source.retain
  split
  · exact h.fetch_some hf i
  · rename_i hfull
    cases hr : t.recent with
    | nil => simp [hr, backtrackLimit] at hfull
    | cons b rest =>
      have hline := h.fetch_some hf (i + 1)
      rw [hr] at hline
      rw [← Nat.add_assoc, Nat.add_right_comm] at hline
      exact hline

theorem pass (h : Along line s) (hs : s.recent = []) {a : α} (hf : s.fetch = (some a, t)) :
    Along line t.pass := by
  intro i
  have hrecent := recent_fetch s
  rw [hf] at hrecent
  have hline := h.fetch_some hf (i + 1)
  have ht : t.pass.recent = [] := hrecent.trans hs
  rw [hrecent.trans hs, ← Nat.add_assoc, Nat.add_right_comm] at hline
  rw [ht]
  exact hline

theorem putBack (h : Along line s) {a : α} (hf : s.fetch = (some a, t)) :
    Along line { t with pending := a :: t.pending } := by
  intro i
  rw [h.fetch_some hf, Line.behind_append]
  refine Line.behind_congr (fun j => ?_) t.recent i
  exact (Line.behind_append [a] t.pending _ j).symm

theorem handBack (h : Along line s) {n : Nat} (hb : s.handBack n = .ok t) : Along line t := by
  obtain ⟨-, rfl⟩ := handBack_eq_ok hb
  intro i
  rw [h]
  simp only [ahead]
  rw [← Line.behind_append, ← Line.behind_append, ← List.append_assoc, List.take_append_drop]

theorem kept (line : Line α) : Kept (Along line : Source σ α → Prop) where
  fetch_none h hf := h.fetch_none hf
  retain h hf := h.retain hf
  pass h hs hf := h.pass hs hf
  putBack h _ hf := h.putBack hf
  handBack h hb := h.handBack hb
  settle h := h.settle
  note h n := h.note n

end Along

/-- Every reachable source is on the line of its input. -/
theorem Reachable.along {input : σ} {s : Source σ α} (h : Reachable input s) :
    Along (Pull.nth input) s :=
  ((Along.kept _).reachable (.ofInput input) h).holds

end Source

end Streaming
