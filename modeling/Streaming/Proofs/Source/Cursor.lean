import Streaming.Proofs.Source.Turns
import Streaming.Supply

/-!
# A run as a cursor over a line

A cursor moves over a line of elements that stays where it is: it offers the element before it and
goes one place on, and as many places back as the parser asks for. The furthest it can be handed
back to is four places behind the furthest place it has reached, and never before the place where it
began. Nothing is moved about; what a source forgets, remembers and has ahead can all be told from
the place of the cursor and the furthest place it has reached (`Follows`).

The run of any parser on a source goes as the cursor's does, turn by turn (`agrees_turns`), whether
or not the input has an end. On a reachable source of a finite input, the cursor goes over the list
of its elements (`parse_refines`).
-/

namespace Streaming

universe u u' v w x

/-- A run over a line: how many elements are behind it, how many have been at most, and the parser's
state. -/
structure Cursor (τ : Type w) where
  pos : Nat
  high : Nat
  state : τ

namespace Cursor

variable {α : Type v} {τ : Type w} {β : Type x}

/-- What one move of a cursor comes to. -/
inductive Move (τ : Type w) where
  /-- The run is over. -/
  | left (c : Cursor τ)
  /-- The run is broken off. -/
  | broken (fault : Fault)
  /-- The run goes on. -/
  | again (c : Cursor τ)

/-- The first place that a cursor can be handed back to. -/
def floor (origin high : Nat) : Nat := max origin (high - backtrackLimit)

/-- Offers the element at the cursor. -/
def move (p : Parser α τ β) (line : Line α) (origin : Nat) (c : Cursor τ) : Move τ :=
  match line c.pos with
  | none => .left c
  | some a =>
    match p.step c.state a with
    | .error f => .broken f
    | .ok step =>
      let high := max c.high (c.pos + 1)
      if c.pos + 1 < floor origin high + step.back then
        .broken (.tooFarBack step.back (c.pos + 1 - floor origin high))
      else if step.isStop then .left ⟨c.pos + 1 - step.back, high, step.state⟩
      else .again ⟨c.pos + 1 - step.back, high, step.state⟩

/-- One more move, if the run goes on. -/
def Move.next (p : Parser α τ β) (line : Line α) (origin : Nat) : Move τ → Move τ
  | .again c => c.move p line origin
  | m => m

/-- Where a run that began at `origin` is after `n` moves, or after fewer if these end it. -/
def moves (p : Parser α τ β) (line : Line α) (origin : Nat) : Nat → Move τ
  | 0 =>
    match p.start with
    | .error f => .broken f
    | .ok state => .again ⟨origin, origin, state⟩
  | n + 1 => (moves p line origin n).next p line origin

end Cursor

namespace Source

open Cursor (floor)

section Turns

variable {σ : Type u} {α : Type v} {τ : Type w} {β : Type x} [Pull σ α]

/-- A source in the middle of a run is where the cursor is. -/
structure Follows (line : Line α) (origin : Nat) (notes : List Notice) (c : Cursor τ)
    (s : Source σ α) : Prop where
  along : Along line s
  offset_eq : s.offset = c.pos
  passed_eq : s.passed = floor origin c.high
  pos_le : c.pos ≤ c.high
  notices_eq : s.notices = notes

/-- A turn on a source comes to what a cursor's move comes to. -/
inductive Agrees (line : Line α) (origin : Nat) (notes : List Notice) :
    Turn (Source σ α) τ → Cursor.Move τ → Prop where
  | left {c : Cursor τ} {s : Source σ α} (h : Follows line origin notes c s) :
    Agrees line origin notes (.done c.state s) (.left c)
  | broken {f : Fault} {s : Source σ α} (h : s.notices = notes) :
    Agrees line origin notes (.broken f s) (.broken f)
  | again {c : Cursor τ} {s : Source σ α} (h : Follows line origin notes c s) :
    Agrees line origin notes (.again c.state s) (.again c)

namespace Follows

variable {line : Line α} {origin : Nat} {notes : List Notice} {c : Cursor τ} {s t : Source σ α}

/-- The source reads on from the place of the cursor. -/
theorem nth_eq (h : Follows line origin notes c s) (i : Nat) :
    Pull.nth s i = line (c.pos + i) := by
  rw [nth_eq_ahead, h.along.ahead_eq, h.offset_eq]

theorem length_recent (h : Follows line origin notes c s) :
    floor origin c.high + s.recent.length = c.pos := by
  rw [← h.passed_eq, ← h.offset_eq, offset]

theorem start (h : Along line s) (state : τ) :
    Follows line s.offset s.notices ⟨s.offset, s.offset, state⟩ s.settle where
  along := h.settle
  offset_eq := rfl
  passed_eq := by
    show s.offset = max s.offset (s.offset - backtrackLimit)
    omega
  pos_le := Nat.le_refl _
  notices_eq := rfl

theorem fetch_none (h : Follows line origin notes c s) (hf : s.fetch = (none, t)) :
    line c.pos = none ∧ Follows line origin notes c t := by
  have ho := offset_fetch s
  have hp := passed_fetch s
  have hn := notices_fetch s
  rw [hf] at ho hp hn
  refine ⟨?_, h.along.fetch_none hf, ho.trans h.offset_eq, hp.trans h.passed_eq, h.pos_le,
    hn.trans h.notices_eq⟩
  rw [← h.offset_eq, ← Nat.add_zero s.offset, ← h.along.ahead_eq, (ahead_of_fetch_none hf 0).1]

theorem retain (h : Follows line origin notes c s) {a : α} (hf : s.fetch = (some a, t)) :
    line c.pos = some a ∧
      ∀ state : τ,
        Follows line origin notes ⟨c.pos + 1, max c.high (c.pos + 1), state⟩ (t.retain a) := by
  have ho := offset_fetch s
  have hp := passed_fetch s
  have hn := notices_fetch s
  have hr := recent_fetch s
  rw [hf] at ho hp hn hr
  simp only at ho hp hn hr
  constructor
  · rw [← h.offset_eq, ← Nat.add_zero s.offset, ← h.along.ahead_eq, ahead_of_fetch_some hf]
    rfl
  · intro state
    have hlen := h.length_recent
    have hle := h.pos_le
    refine ⟨h.along.retain hf, ?_, ?_, Nat.le_max_right _ _, ?_⟩
    · rw [offset_retain, ho, h.offset_eq]
    · -- The window is full only at the furthest place, so it moves on only there.
      unfold floor at hlen ⊢
      unfold Source.retain
      rw [hr]
      split
      · simp only [hp, h.passed_eq, floor]
        omega
      · simp only [hp, h.passed_eq, floor]
        omega
    · rw [notices_retain, hn, h.notices_eq]

theorem handBack (h : Follows line origin notes c s) {n : Nat} (hb : s.handBack n = .ok t)
    (state : τ) : Follows line origin notes ⟨c.pos - n, c.high, state⟩ t := by
  have ho := offset_handBack hb
  have hp := passed_handBack hb
  have hle := h.pos_le
  have hpos := h.offset_eq
  refine ⟨h.along.handBack hb, ?_, hp.trans h.passed_eq, ?_, (notices_handBack hb).trans
    h.notices_eq⟩
  · simp only
    omega
  · simp only
    omega

/-- One turn of the run and one move of the cursor come to the same. -/
theorem turn (h : Follows line origin notes c s) (p : Parser α τ β) :
    Agrees line origin notes (s.turn p c.state) (c.move p line origin) := by
  unfold Source.turn
  split
  · rename_i t hf
    obtain ⟨hx, ht⟩ := h.fetch_none hf
    simp only [Cursor.move, hx]
    exact .left ht
  · rename_i a t hf
    obtain ⟨hx, ht⟩ := h.retain hf
    simp only [Cursor.move, hx]
    cases p.step c.state a with
    | error f => exact .broken (ht c.state).notices_eq
    | ok step =>
      have hlen := (ht step.state).length_recent
      simp only at hlen
      simp only
      split
      · rename_i f hb
        obtain ⟨hmany, rfl⟩ := handBack_eq_error hb
        have hfar : c.pos + 1 < floor origin (max c.high (c.pos + 1)) + step.back := by omega
        have hM : (t.retain a).recent.length =
            c.pos + 1 - floor origin (max c.high (c.pos + 1)) := by omega
        rw [if_pos hfar, hM]
        exact .broken (ht c.state).notices_eq
      · rename_i q hb
        have hfew := (handBack_eq_ok hb).1
        have hnear : ¬ c.pos + 1 < floor origin (max c.high (c.pos + 1)) + step.back := by omega
        rw [if_neg hnear]
        have hq := (ht step.state).handBack hb step.state
        split
        · exact .left hq
        · exact .again hq

end Follows

/-- **The run of any parser goes as the cursor's does**, turn by turn, on a line that may have no
end. -/
theorem agrees_turns {line : Line α} {s : Source σ α} (h : Along line s) (p : Parser α τ β)
    (n : Nat) : Agrees line s.offset s.notices (s.turns p n) (Cursor.moves p line s.offset n) := by
  induction n with
  | zero =>
    rw [turns, Turn.after, opening, Cursor.moves]
    cases p.start with
    | error f => exact .broken rfl
    | ok state => exact .again (Follows.start h state)
  | succ n ih =>
    rw [turns_succ, Cursor.moves]
    revert ih
    generalize s.turns p n = t
    generalize Cursor.moves p line s.offset n = m
    intro ih
    cases ih with
    | left hf => exact .left hf
    | broken hn => exact .broken hn
    | again hf => exact hf.turn p

/-- The notes that the end of a run at a place leaves. -/
def failure (pos : Nat) : Except Fault (Except ParseError β) → List Notice
  | .ok (.error e) => [.failed pos e]
  | .ok (.ok _) | .error _ => []

omit [Pull σ α] in
theorem notices_conclude (p : Parser α τ β) (state : τ) (s : Source σ α) :
    (conclude p (.ok state, s)).2.notices =
      s.notices ++ failure s.offset (p.finish state) := by
  simp only [conclude]
  split <;> rename_i h <;> simp [h, failure, settle, note]

theorem Along.conclude {line : Line α} {s : Source σ α} (h : Along line s) (p : Parser α τ β)
    (outcome : Except Fault τ) : Along line (conclude p (outcome, s)).2 := by
  cases outcome with
  | error f => exact h
  | ok state =>
    simp only [Source.conclude]
    split
    · exact h.settle
    · exact h.settle
    · exact h.settle.note _

theorem turn_congr {p q : Parser α τ β} {state : τ} {s : Source σ α}
    (h : ∀ a t, s.fetch = (some a, t) → q.step state a = p.step state a) :
    s.turn q state = s.turn p state := by
  unfold turn
  split
  · rfl
  · rename_i a t hf
    rw [h a t hf]

namespace Along

variable {line : Line α} {s : Source σ α}

theorem parse_of_left (h : Along line s) {p : Parser α τ β} {n : Nat} {c : Cursor τ}
    (hm : Cursor.moves p line s.offset n = .left c) :
    ∃ t, s.parse p = some (p.finish c.state, t) ∧ t.offset = c.pos ∧ Along line t ∧
      t.notices = s.notices ++ failure c.pos (p.finish c.state) := by
  have ha := agrees_turns h p n
  rw [hm] at ha
  generalize ht : s.turns p n = t at ha
  cases ha with
  | @left _ q hf =>
    have hr : s.run p = some (.ok c.state, q) := run_of_turns (n := n) (by rw [ht]; rfl)
    refine ⟨(Source.conclude p (.ok c.state, q)).2, ?_, ?_, hf.along.conclude p _, ?_⟩
    · rw [parse, hr]
      exact congrArg some (Prod.ext (answer_conclude p _) rfl)
    · rw [offset_conclude, hf.offset_eq]
    · rw [notices_conclude, hf.notices_eq, hf.offset_eq]

theorem parse_of_broken (h : Along line s) {p : Parser α τ β} {n : Nat} {f : Fault}
    (hm : Cursor.moves p line s.offset n = .broken f) :
    ∃ t, s.parse p = some (.error f, t) ∧ t.notices = s.notices := by
  have ha := agrees_turns h p n
  rw [hm] at ha
  generalize ht : s.turns p n = t at ha
  cases ha with
  | @broken _ q hn =>
    have hr : s.run p = some (.error f, q) := run_of_turns (n := n) (by rw [ht]; rfl)
    exact ⟨q, by rw [parse, hr]; rfl, hn⟩

theorem parse_of_endless (h : Along line s) {p : Parser α τ β}
    (hm : ∀ n, ∃ c, Cursor.moves p line s.offset n = .again c) : s.parse p = none := by
  have hr : s.run p = none := by
    rw [Option.eq_none_iff_forall_ne_some]
    intro r hr
    obtain ⟨n, hn⟩ := run_eq_some_iff.mp hr
    obtain ⟨c, hc⟩ := hm n
    have ha := agrees_turns h p n
    rw [hc] at ha
    generalize s.turns p n = t at ha hn
    cases ha
    cases hn
  rw [parse, hr]
  rfl

theorem parse_congr (h : Along line s) {p q : Parser α τ β} (hstart : q.start = p.start)
    (hstep : ∀ n c a, Cursor.moves p line s.offset n = .again c → line c.pos = some a →
      q.step c.state a = p.step c.state a)
    (hfinish : ∀ n c, Cursor.moves p line s.offset n = .left c →
      q.finish c.state = p.finish c.state) : s.parse q = s.parse p := by
  have hturns : ∀ n, s.turns q n = s.turns p n := by
    intro n
    induction n with
    | zero => rw [turns, turns, Turn.after, Turn.after, opening, opening, hstart]
    | succ n ih =>
      have ha := agrees_turns h p n
      rw [turns_succ, turns_succ, ih]
      generalize s.turns p n = t at ha
      generalize hm : Cursor.moves p line s.offset n = m at ha
      cases ha with
      | left | broken => rfl
      | again hf => exact turn_congr fun a t ht => hstep n _ a hm (hf.retain ht).1
  rw [parse, parse, run_congr hturns]
  cases hr : s.run p with
  | none => rfl
  | some r =>
    obtain ⟨outcome, t⟩ := r
    cases outcome with
    | error f => rfl
    | ok state =>
      obtain ⟨n, hn⟩ := run_eq_some_iff.mp hr
      have ha := agrees_turns h p n
      generalize s.turns p n = t at ha hn
      generalize hm : Cursor.moves p line s.offset n = m at ha
      cases ha with
      | broken | again => cases hn
      | left hf =>
        cases hn
        have := hfinish n _ hm
        simp only [Option.map_some, Source.conclude, this]

end Along

end Turns

/-! ## Over a list -/

variable {σ : Type u} {α : Type v} {τ : Type w} {β : Type x} [FinitePull σ α]

theorem remaining_conclude (p : Parser α τ β) (r : Except Fault τ × Source σ α) :
    (conclude p r).2.remaining = r.2.remaining := by
  unfold conclude
  split
  · rfl
  · split <;> rfl

theorem Along.elements_eq {xs : List α} {s : Source σ α} (h : Along (xs[·]?) s) :
    Pull.elements s = xs.drop s.offset := by
  refine List.ext_getElem? fun i => ?_
  rw [← Pull.nth_eq_getElem?, nth_eq_ahead, h.ahead_eq, List.getElem?_drop]

/-- The run of a parser on a source goes as the cursor's run over `xs` does that begins at the
source's offset. -/
structure Refines (xs : List α) (p : Parser α τ β) (s : Source σ α) : Prop where
  /-- After every number of turns the run is where the cursor is. -/
  turns : ∀ n, Agrees (xs[·]?) s.offset s.notices (s.turns p n)
    (Cursor.moves p (xs[·]?) s.offset n)
  /-- Where the cursor's run ends, the answer is that of its state, and the source reads on from its
  place. An error is noted once. -/
  left : ∀ n c, Cursor.moves p (xs[·]?) s.offset n = .left c →
    ∃ t, s.parse p = some (p.finish c.state, t) ∧ t.offset = c.pos ∧
      Pull.elements t = xs.drop c.pos ∧
      t.notices = s.notices ++ failure c.pos (p.finish c.state)
  /-- The run is broken off by the fault that breaks the cursor's run off. -/
  broken : ∀ n f, Cursor.moves p (xs[·]?) s.offset n = .broken f →
    ∃ t, s.parse p = some (.error f, t) ∧ t.notices = s.notices
  /-- The run goes on for ever if the cursor's does. -/
  endless : (∀ n, ∃ c, Cursor.moves p (xs[·]?) s.offset n = .again c) → s.parse p = none
  /-- The parser is asked about nothing but what the cursor offers and its last state. -/
  consults : ∀ q : Parser α τ β, q.start = p.start →
    (∀ n c a, Cursor.moves p (xs[·]?) s.offset n = .again c → xs[c.pos]? = some a →
      q.step c.state a = p.step c.state a) →
    (∀ n c, Cursor.moves p (xs[·]?) s.offset n = .left c → q.finish c.state = p.finish c.state) →
    s.parse q = s.parse p

/-- **Running a parser is moving a cursor.** On a reachable source, the run of any parser goes as
the cursor's run over the elements of the input does. Its answer depends on the elements still to be
read alone, not on how many of them are pending or what came before them. -/
theorem parse_refines {input : σ} {s : Source σ α} (h : Reachable input s) (p : Parser α τ β) :
    Refines (Pull.elements input) p s ∧
      ∀ {ρ : Type u'} [FinitePull ρ α] {t : Source ρ α}, Pull.elements t = Pull.elements s →
        (t.parse p).map Prod.fst = (s.parse p).map Prod.fst := by
  have ha := h.rests.reads.along
  refine ⟨⟨agrees_turns ha p, fun n c hm => ?_, fun n f => ha.parse_of_broken,
    ha.parse_of_endless, fun q => ha.parse_congr⟩, ?_⟩
  · obtain ⟨t, hp, hpos, ht, hnotes⟩ := ha.parse_of_left hm
    exact ⟨t, hp, hpos, hpos ▸ ht.elements_eq, hnotes⟩
  · intro ρ _ t ht
    rw [elements_eq_remaining, elements_eq_remaining] at ht
    exact Alike.answer_parse ht p

/-- Counts elements up to a zero, and then hands back the zero and the element before it. -/
def beforeZero : Parser Nat Nat Nat where
  start := .ok 0
  step n a := .ok (if a = 0 ∧ 0 < n then .stop 2 (n - 1) else .yield 0 (n + 1))
  finish n := .ok (.ok n)

/-- A run after a look ahead that leaves two elements of five for the next reader, besides the one
that it has not reached. -/
theorem parse_refines_beforeZero :
    let s : Source (Supply Nat) Nat := (Source.ofInput (.ofList [5, 6, 7, 0, 8])).peek.2
    Reachable.{0, 0, 0} (Supply.ofList [5, 6, 7, 0, 8]) s ∧
      ∃ t, s.parse beforeZero = some (.ok (.ok 2), t) ∧ t.offset = 2 ∧
        Pull.elements t = [7, 0, 8] ∧ t.notices = [] := by
  intro s
  have hpeek : (Source.ofInput (Supply.ofList [5, 6, 7, 0, 8])).perform (.peek : Operation Nat) =
      some (.ok (.element (some 5)), s) := rfl
  have hs : Reachable.{0, 0, 0} (Supply.ofList [5, 6, 7, 0, 8]) s := .perform .start hpeek
  refine ⟨hs, ?_⟩
  have h := (parse_refines.{0, 0, 0, 0, 0, 0} hs beforeZero).1.left 4 ⟨2, 4, 2⟩
  rw [Supply.elements_ofList] at h
  exact h rfl

end Source

end Streaming
