import Streaming.Proofs.Source.Cursor
import Streaming.Proofs.Source.Sessions

/-!
# The rounds of a repeated parser

A repetition goes in rounds: each runs the parser from where the round before it left the source. A
run never ends before the place where it began, and what it leaves to be read is what is behind the
elements that it consumed (`Source.exists_consumed_parse`). A round that consumes nothing is
therefore the last one, as is one without a result, and all others bring the end of the input
nearer.

If each of the runs comes to an answer, the repetition goes through as many rounds as there are
elements at most, and from then on it stands still, but for asking an exhausted input again that is
fused and so answers nothing (`progresses_and_ends`).
-/

namespace Streaming

universe u v w x

variable {σ : Type u} {α : Type v} {τ : Type w} {β : Type x} [FinitePull σ α]

namespace Source

/-! ## What a run leaves -/

theorem elements_note (s : Source σ α) (n : Notice) :
    Pull.elements (s.note n) = Pull.elements s := by
  rw [elements_eq_remaining, remaining_note, ← elements_eq_remaining]

theorem elements_ofInput (input : σ) :
    Pull.elements (ofInput input : Source σ α) = Pull.elements input :=
  (Reads.ofInput input).elements_eq

theorem elements_ofInput_ofList (as : List α) :
    Pull.elements (ofInput (.ofList as) : Source (Supply α) α) = as :=
  (elements_ofInput _).trans (Supply.elements_ofList as)

theorem Indistinct.elements_eq {s t : Source σ α} (h : s.Indistinct t) :
    Pull.elements t = Pull.elements s := by
  rw [elements_eq_remaining, h.alike.remaining_eq, ← elements_eq_remaining]

/-- A run consumes no more than there is and leaves the elements behind those that it consumed. -/
theorem exists_consumed_parse {p : Parser α τ β} {s t : Source σ α}
    {r : Except Fault (Except ParseError β)} (h : s.parse p = some (r, t)) :
    ∃ n, n ≤ (Pull.elements s).length ∧ t.offset = s.offset + n ∧
      Pull.elements t = (Pull.elements s).drop n := by
  have hle := offset_le_parse h
  obtain ⟨⟨outcome, q⟩, hr, hc⟩ := run_of_parse h
  have hrem := remaining_conclude p (outcome, q)
  have hoff := offset_conclude p (outcome, q)
  rw [hc] at hrem hoff
  -- The same run on a source that begins with these elements reads them as a list.
  let base : Source (Supply α) α := .ofInput (.ofList s.remaining)
  have hbase : Reads s.remaining base := by
    have hreads := Reads.ofInput (Supply.ofList s.remaining)
    rwa [Supply.elements_ofList] at hreads
  have hzero : base.offset = 0 := rfl
  obtain ⟨q', hr', halike⟩ := (Alike.of_settle hbase.remaining_eq).run hr
  have hreads : Reads s.remaining q' := (Reads.kept _).run hbase.settle hr'
  have hshift := halike.offset_eq
  simp only at hrem hoff hshift
  rw [elements_eq_remaining, elements_eq_remaining]
  refine ⟨q'.offset, hreads.offset_le, by omega, ?_⟩
  rw [hrem, ← hreads.remaining_eq]
  exact halike.remaining_eq.symm

theorem notices_parse {p : Parser α τ β} {s t : Source σ α} {r : Except ParseError β}
    (h : s.parse p = some (.ok r, t)) : t.notices = s.notices ++ failure t.offset (.ok r) := by
  obtain ⟨⟨outcome, q⟩, hr, hc⟩ := run_of_parse h
  have hanswer := congrArg Prod.fst hc
  rw [answer_conclude] at hanswer
  cases outcome with
  | error f => cases hanswer
  | ok state =>
    have hfinish : p.finish state = .ok r := hanswer
    have hnotes := notices_conclude p state q
    have hoff := offset_conclude p (.ok state, q)
    rw [hc, hfinish] at hnotes
    rw [hc] at hoff
    rw [hnotes, hoff]
    exact congrArg (· ++ _) (notices_run hr)

/-! ## Whether anything is left -/

/-- Asking for the end finds it when nothing is left to be read, and changes nothing that can be
seen. -/
theorem indistinct_atEnd {s t : Source σ α} {ended : Bool} (h : s.atEnd = (ended, t)) :
    (ended = true ↔ Pull.elements s = []) ∧ s.Indistinct t := by
  rw [elements_eq_remaining]
  have hsame := indistinct_peek s
  cases hf : s.fetch with
  | mk answer q =>
    cases answer with
    | none =>
      simp only [atEnd, peek, hf] at h hsame
      cases h
      exact ⟨iff_of_true rfl (remaining_of_fetch_none hf).1, hsame⟩
    | some a =>
      simp only [atEnd, peek, hf] at h hsame
      cases h
      refine ⟨iff_of_false (by simp) ?_, hsame⟩
      rw [remaining_of_fetch_some hf]
      exact List.cons_ne_nil a _

end Source

/-! ## Rounds -/

/-- A run of a repeated parser: its answer, and how many elements it consumed. -/
structure Round (β : Type x) where
  answer : Except ParseError β
  consumed : Nat

namespace Round

/-- The run had a result and consumed something. -/
def Advances (r : Round β) : Prop := (∃ b, r.answer = .ok b) ∧ 0 < r.consumed

/-- The run had a result, but consumed nothing. -/
def Idles (r : Round β) : Prop := (∃ b, r.answer = .ok b) ∧ r.consumed = 0

/-- How many elements the rounds consumed. -/
def total : List (Round β) → Nat
  | [] => 0
  | r :: rest => r.consumed + total rest

/-- The notes of a run that began at an offset. -/
def notes (before : Nat) (r : Round β) : List Notice :=
  match r.answer with
  | .error e => [.failed (before + r.consumed) e]
  | .ok _ => if r.consumed = 0 then [.noProgress before] else []

/-- The notes of the last of the rounds, of which the first began at an offset. -/
def closing (before : Nat) (rounds : List (Round β)) : List Notice :=
  match rounds.getLast? with
  | none => []
  | some last => last.notes (before + total rounds.dropLast)

theorem notes_of_advances {r : Round β} (h : r.Advances) (before : Nat) : r.notes before = [] := by
  obtain ⟨⟨b, hb⟩, hpos⟩ := h
  rw [notes, hb]
  exact if_neg (Nat.ne_of_gt hpos)

theorem closing_cons {r : Round β} (h : r.Advances) (before : Nat) (rest : List (Round β)) :
    closing before (r :: rest) = closing (before + r.consumed) rest := by
  cases rest with
  | nil => exact notes_of_advances h _
  | cons next rest =>
    simp only [closing, List.getLast?_cons_cons, List.dropLast_cons_cons, total, Nat.add_assoc]

end Round

namespace Repetition

/-- The parser's run on the source comes to an answer. -/
def Returns (p : Parser α τ β) (s : Source σ α) : Prop := ∃ r t, s.parse p = some (.ok r, t)

/-- A repetition on the source after `n` requests, if it goes through the rounds. -/
structure Stands (s : Source σ α) (rounds : List (Round β)) (n : Nat) (t : Repetition σ α τ β) :
    Prop where
  fault_eq : t.fault = none
  offset_eq : t.source.offset = s.offset + Round.total (rounds.take n)
  elements_eq : Pull.elements t.source = (Pull.elements s).drop (Round.total (rounds.take n))
  /-- Only the last round leaves notes. -/
  notices_eq : t.source.notices =
    s.notices ++ if n < rounds.length then [] else Round.closing s.offset rounds
  /-- After an empty answer there is no other, and no more is done than to ask the input again. -/
  ends : rounds.length < n → t.next = some (none, t.past)
  /-- An input that is not fused is not asked again, and none is if a round has ended the
  repetition: nothing changes. -/
  stays : rounds.length < n → Pull.fused σ = false ∨ t.done = true → t.next = some (none, t)

/-- A repetition of the parser on the source goes through the rounds and ends. -/
structure Course (p : Parser α τ β) (s : Source σ α) (rounds : List (Round β)) : Prop where
  answers : ∀ n, ∃ t, (start p s).answers n = some (Pull.served n (rounds.map Round.answer), t) ∧
    Stands s rounds n t
  length_le : rounds.length ≤ (Pull.elements s).length
  advances : ∀ r ∈ rounds.dropLast, r.Advances
  exhausted : (∀ r ∈ rounds.getLast?, r.Advances) →
    Round.total rounds = (Pull.elements s).length
  idles : ∀ r ∈ rounds.getLast?, r.Idles → Round.total rounds < (Pull.elements s).length

/-! ## One request -/

omit [FinitePull σ α] in
theorem keep_of_offset_eq {r : Repetition σ α τ β} {t : Source σ α} {b : β}
    (h : t.offset = r.source.offset) :
    r.keep (.ok (.ok b), t) = (some (.ok b),
      { r with source := t.note (.noProgress r.source.offset), done := true }) :=
  if_pos h

omit [FinitePull σ α] in
theorem keep_of_offset_ne {r : Repetition σ α τ β} {t : Source σ α} {b : β}
    (h : t.offset ≠ r.source.offset) :
    r.keep (.ok (.ok b), t) = (some (.ok b), { r with source := t }) :=
  if_neg h

theorem next_of_done {r : Repetition σ α τ β} (h : r.done = true) : r.next = some (none, r) := by
  rw [next, if_pos h]

theorem next_of_atEnd (p : Parser α τ β) {s t : Source σ α} (h : s.atEnd = (true, t)) :
    (start p s).next = some (none, start p t) := by
  simp only [next, start, h]
  rfl

theorem next_of_parse {p : Parser α τ β} {s q t : Source σ α}
    {r : Except Fault (Except ParseError β)} (he : s.atEnd = (false, q))
    (hp : q.parse p = some (r, t)) : (start p s).next = some ((start p q).keep (r, t)) := by
  simp only [next, start, he, again, hp]
  rfl

theorem past_of_done {r : Repetition σ α τ β} (h : r.done = true) : r.past = r := by
  rw [past, if_pos h]

/-- An empty answer leaves a source that cannot be told from the one before. -/
theorem indistinct_of_next_none {r t : Repetition σ α τ β} (h : r.next = some (none, t))
    (hf : t.fault = none) : r.source.Indistinct t.source := by
  unfold next at h
  split at h
  · cases h
    exact .refl _
  · split at h
    · rename_i source he
      cases h
      exact (Source.indistinct_atEnd he).2
    · obtain ⟨⟨outcome, q⟩, -, hk⟩ := Option.map_eq_some_iff.mp h
      unfold keep at hk
      split at hk
      · cases hk
        cases hf
      · cases hk
      · split at hk <;> cases hk

omit [FinitePull σ α] in
theorem fault_past [Pull σ α] (r : Repetition σ α τ β) : r.past.fault = r.fault := by
  unfold past
  split <;> rfl

/-- After an empty answer, any number of requests is answered with nothing. -/
theorem exists_answers_of_next_none {r t : Repetition σ α τ β} (h : r.next = some (none, t))
    (hf : t.fault = none) (n : Nat) :
    ∃ u, t.answers n = some (List.replicate n none, u) ∧ t.source.Indistinct u.source ∧
      u.fault = none ∧ u.next = some (none, u.past) := by
  induction n generalizing r t with
  | zero => exact ⟨t, rfl, .refl _, hf, next_of_next_none h⟩
  | succ n ih =>
    have hnext := next_of_next_none h
    have hfault := (fault_past t).trans hf
    obtain ⟨u, hanswers, hsame, hrest⟩ := ih hnext hfault
    refine ⟨u, ?_, (indistinct_of_next_none hnext hfault).trans hsame, hrest⟩
    rw [answers, hnext, Option.bind_some, hanswers]
    rfl

theorem answers_of_stays {r : Repetition σ α τ β} (h : r.next = some (none, r)) (n : Nat) :
    r.answers n = some (List.replicate n none, r) := by
  induction n with
  | zero => rfl
  | succ n ih =>
    rw [answers, h, Option.bind_some, ih]
    rfl

theorem answers_succ {r t u : Repetition σ α τ β} {n : Nat}
    {a : Option (Except ParseError β)} {as : List (Option (Except ParseError β))}
    (h : r.next = some (a, t)) (ht : t.answers n = some (as, u)) :
    r.answers (n + 1) = some (a :: as, u) := by
  rw [answers, h, Option.bind_some, ht]
  rfl

theorem collect_of_next_none {r t : Repetition σ α τ β} (h : r.next = some (none, t)) :
    r.collect = some ([], t) := by
  rw [collect]
  split <;> rename_i hn <;> rw [h] at hn <;> cases hn
  rfl

theorem collect_of_next_some {r t : Repetition σ α τ β} {a : Except ParseError β}
    (h : r.next = some (some a, t)) :
    r.collect = t.collect.map fun rest => (a :: rest.1, rest.2) := by
  rw [collect]
  split <;> rename_i hn <;> rw [h] at hn <;> cases hn
  rfl

theorem exists_next_of_nil (p : Parser α τ β) {s : Source σ α} (h : Pull.elements s = []) :
    ∃ t, (start p s).next = some (none, start p t) := by
  cases he : s.atEnd with
  | mk ended t =>
    obtain rfl : ended = true := (Source.indistinct_atEnd he).1.mpr h
    exact ⟨t, next_of_atEnd p he⟩

theorem exists_atEnd_of_ne_nil {s : Source σ α} (h : Pull.elements s ≠ []) :
    ∃ t, s.atEnd = (false, t) ∧ Pull.elements t = Pull.elements s := by
  cases he : s.atEnd with
  | mk ended t =>
    obtain ⟨hend, hsame⟩ := Source.indistinct_atEnd he
    obtain rfl : ended = false := Bool.eq_false_iff.mpr (mt hend.mp h)
    exact ⟨t, rfl, hsame.elements_eq⟩

/-- The source before and behind a round that consumed `n` elements: what is left, and the notes of
the run. -/
structure Behind (s t : Source σ α) (n : Nat) (r : Except ParseError β) : Prop where
  left : Pull.elements s ≠ []
  le_left : n ≤ (Pull.elements s).length
  offset_eq : t.offset = s.offset + n
  elements_eq : Pull.elements t = (Pull.elements s).drop n
  notices_eq : t.notices = s.notices ++ Source.failure t.offset (.ok r)

theorem exists_behind_of_parse {p : Parser α τ β} {s q t : Source σ α} {r : Except ParseError β}
    (he : s.atEnd = (false, q)) (hp : q.parse p = some (.ok r, t)) : ∃ n, Behind s t n r := by
  obtain ⟨hend, hsame⟩ := Source.indistinct_atEnd he
  obtain ⟨n, hle, hoff, hrest⟩ := Source.exists_consumed_parse hp
  rw [hsame.elements_eq] at hle hrest
  refine ⟨n, ?_, hle, ?_, hrest, ?_⟩
  · intro hnil
    exact Bool.false_ne_true (hend.mpr hnil)
  · rw [hoff, hsame.offset_eq]
  · rw [Source.notices_parse hp, hsame.notices_eq]

/-! ## Courses -/

namespace Stands

variable {s t : Source σ α}

theorem zero (p : Parser α τ β) (s : Source σ α) (rounds : List (Round β)) :
    Stands s rounds 0 (start p s) where
  fault_eq := rfl
  offset_eq := rfl
  elements_eq := rfl
  notices_eq := by cases rounds <;> exact (List.append_nil _).symm
  ends h := absurd h (Nat.not_lt_zero _)
  stays h := absurd h (Nat.not_lt_zero _)

/-- Behind a round that goes on, a repetition stands as one on the rest of the source. -/
theorem cons {round : Round β} {rounds : List (Round β)} {n : Nat} {r : Repetition σ α τ β}
    (hoff : t.offset = s.offset + round.consumed)
    (hel : Pull.elements t = (Pull.elements s).drop round.consumed)
    (hnotes : t.notices = s.notices) (hgo : round.Advances) (h : Stands t rounds n r) :
    Stands s (round :: rounds) (n + 1) r where
  fault_eq := h.fault_eq
  offset_eq := by
    rw [h.offset_eq, hoff, List.take_succ_cons, Nat.add_assoc]
    rfl
  elements_eq := by
    rw [h.elements_eq, hel, List.drop_drop, List.take_succ_cons]
    rfl
  notices_eq := by
    rw [h.notices_eq, hnotes, Round.closing_cons hgo, hoff, List.length_cons]
    simp only [Nat.add_lt_add_iff_right]
  ends hlt := h.ends (Nat.lt_of_succ_lt_succ hlt)
  stays hlt := h.stays (Nat.lt_of_succ_lt_succ hlt)

end Stands

namespace Course

variable {p : Parser α τ β} {s q t : Source σ α}

theorem nil (he : s.atEnd = (true, t)) : Course p s [] := by
  obtain ⟨hend, hsame⟩ := Source.indistinct_atEnd he
  have hs : Pull.elements s = [] := hend.mp rfl
  have ht : Pull.elements t = [] := hsame.elements_eq.trans hs
  have hnext : (start p s).next = some (none, start p t) := next_of_atEnd p he
  refine ⟨fun n => ?_, Nat.zero_le _, by simp, fun _ => by rw [hs]; rfl, by simp⟩
  cases n with
  | zero => exact ⟨start p s, rfl, .zero p s _⟩
  | succ n =>
    obtain ⟨u, hanswers, hrest, hfault, hlast⟩ := exists_answers_of_next_none hnext rfl n
    have hu : Pull.elements u.source = [] := hrest.elements_eq.trans ht
    refine ⟨u, ?_, hfault, hrest.offset_eq.trans hsame.offset_eq, ?_, ?_, fun _ => hlast,
      fun _ hstill => ?_⟩
    · rw [answers_succ hnext hanswers, List.map_nil, Pull.served_nil]
      rfl
    · simp [hs, hu]
    · exact (hrest.notices_eq.trans hsame.notices_eq).trans (List.append_nil _).symm
    · rw [hlast, hstill.elim (fun hf => past_of_not_fused hf u) past_of_done]

/-- A round behind which no other follows. -/
theorem last {r : Repetition σ α τ β} {round : Round β}
    (hn : (start p s).next = some (some round.answer, r)) (hdone : r.done = true)
    (hfault : r.fault = none) (hleft : Pull.elements s ≠ [])
    (hoff : r.source.offset = s.offset + round.consumed)
    (hel : Pull.elements r.source = (Pull.elements s).drop round.consumed)
    (hnotes : r.source.notices = s.notices ++ round.notes s.offset) (hstop : ¬ round.Advances) :
    Course p s [round] := by
  have hpos := List.length_pos_iff.mpr hleft
  have hstays := next_of_done hdone
  refine ⟨fun n => ?_, hpos, by simp, fun h => absurd (h round rfl) hstop, ?_⟩
  · cases n with
    | zero => exact ⟨start p s, rfl, .zero p s _⟩
    | succ n =>
      refine ⟨r, ?_, hfault, ?_, ?_, ?_, fun _ => ?_, fun _ _ => hstays⟩
      · rw [answers_succ hn (answers_of_stays hstays n), List.map_singleton, Pull.served_cons,
          Pull.served_nil]
      · rw [hoff, List.take_succ_cons, List.take_nil]
        rfl
      · rw [hel, List.take_succ_cons, List.take_nil]
        rfl
      · rw [hnotes, if_neg (by simp)]
        rfl
      · rw [hstays, past_of_done hdone]
  · intro last hlast hidle
    cases hlast
    have hzero : round.consumed = 0 := hidle.2
    change round.consumed + 0 < _
    omega

/-- A round behind which the others follow. -/
theorem cons {round : Round β} {rounds : List (Round β)}
    (hn : (start p s).next = some (some round.answer, start p t))
    (hoff : t.offset = s.offset + round.consumed)
    (hel : Pull.elements t = (Pull.elements s).drop round.consumed)
    (hle : round.consumed ≤ (Pull.elements s).length)
    (hnotes : t.notices = s.notices) (hgo : round.Advances) (h : Course p t rounds) :
    Course p s (round :: rounds) := by
  have hlen := congrArg List.length hel
  rw [List.length_drop] at hlen
  have htotal : Round.total (round :: rounds) = round.consumed + Round.total rounds := rfl
  refine ⟨fun n => ?_, ?_, ?_, ?_, ?_⟩
  · cases n with
    | zero => exact ⟨start p s, rfl, .zero p s _⟩
    | succ n =>
      obtain ⟨u, ha, hu⟩ := h.answers n
      refine ⟨u, ?_, hu.cons hoff hel hnotes hgo⟩
      rw [answers_succ hn ha, List.map_cons, Pull.served_cons]
  · have := h.length_le
    have := hgo.2
    rw [List.length_cons]
    omega
  · intro r' hr'
    cases rounds with
    | nil => cases hr'
    | cons next rounds =>
      rcases List.mem_cons.mp hr' with rfl | hr'
      · exact hgo
      · exact h.advances r' hr'
  · intro hlast
    have hall : ∀ r ∈ rounds.getLast?, r.Advances := by
      intro r' hr'
      apply hlast
      rw [List.getLast?_cons, hr']
      rfl
    have := h.exhausted hall
    omega
  · intro r' hr' hidle
    cases rounds with
    | nil =>
      cases hr'
      exact absurd hidle.2 (Nat.ne_of_gt hgo.2)
    | cons next rounds =>
      have := h.idles r' hr' hidle
      omega

section Rounds

variable {n : Nat} (he : s.atEnd = (false, q))

include he

/-- The repetition ends with an error. -/
theorem of_error {e : ParseError} (hp : q.parse p = some (.ok (.error e), t))
    (hb : Behind s t n (.error e : Except ParseError β)) : Course p s [⟨.error e, n⟩] := by
  refine last (next_of_parse he hp) rfl rfl hb.left hb.offset_eq hb.elements_eq ?_ ?_
  · change t.notices = _
    rw [hb.notices_eq, hb.offset_eq]
    rfl
  · rintro ⟨⟨b, hb⟩, -⟩
    cases hb

variable {b : β} (hp : q.parse p = some (.ok (.ok b), t)) (hb : Behind s t n (.ok b))

include hp hb

/-- It ends with a result for which nothing was consumed. -/
theorem of_idle (hsame : t.offset = q.offset) : Course p s [⟨.ok b, n⟩] := by
  have hq := (Source.indistinct_atEnd he).2.offset_eq
  have hoff := hb.offset_eq
  obtain rfl : n = 0 := by omega
  have hnext := next_of_parse he hp
  rw [keep_of_offset_eq hsame] at hnext
  refine last hnext rfl rfl hb.left hoff ?_ ?_ ?_
  · rw [Source.elements_note, hb.elements_eq]
  · change t.notices ++ [.noProgress q.offset] = _
    rw [hb.notices_eq, hq, Source.failure, List.append_nil]
    rfl
  · intro hgo
    exact Nat.lt_irrefl 0 hgo.2

/-- It goes on behind any other result. -/
theorem of_advance (hne : t.offset ≠ q.offset) {rounds : List (Round β)} (h : Course p t rounds) :
    Course p s (⟨.ok b, n⟩ :: rounds) := by
  have hq := (Source.indistinct_atEnd he).2.offset_eq
  have hoff := hb.offset_eq
  have hpos : 0 < n := by omega
  have hnext := next_of_parse he hp
  rw [keep_of_offset_ne hne] at hnext
  have hnotes : t.notices = s.notices := hb.notices_eq.trans (List.append_nil _)
  exact cons hnext hoff hb.elements_eq hb.le_left hnotes ⟨⟨b, rfl⟩, hpos⟩ h

end Rounds

end Course

end Repetition

end Streaming
