import Mathlib.Data.List.TakeWhile
import Streaming.Proofs.Parser.Stock
import Streaming.Proofs.Source.ForwardRounds

/-!
# The groups of a repeated parser

Many parsers cut a list into groups when they are repeated: a run folds the first group, and the
groups of what it leaves are the others (`Parser.Groups`). That is all there is to say of each of
them. The answers are then the groups folded one by one, as far as no fault breaks a fold off
(`Parser.Groups.collect`), and if lists are collected the whole input is consumed
(`Parser.Groups.collect_toList`).

What a run comes to is often a matter of one test: elements are folded as long as they pass it, and
the first that does not ends the run (`Parser.Scans`).
-/

namespace Streaming

universe u v w x y

variable {α : Type u} {σ : Type v} {τ : Type w} {β : Type x}

/-! ## The elements in front -/

section Front

theorem drop_length_takeWhile (p : α → Bool) (as : List α) :
    as.drop (as.takeWhile p).length = as.dropWhile p := by
  calc as.drop (as.takeWhile p).length
      = (as.takeWhile p ++ as.dropWhile p).drop (as.takeWhile p).length := by
        rw [List.takeWhile_append_dropWhile]
    _ = as.dropWhile p := List.drop_left

theorem length_takeWhile_add (p : α → Bool) (as : List α) :
    (as.takeWhile p).length + (as.dropWhile p).length = as.length := by
  rw [← List.length_append, List.takeWhile_append_dropWhile]

theorem not_of_head?_dropWhile {p : α → Bool} {as : List α} {a : α}
    (h : (as.dropWhile p).head? = some a) : p a = false := by
  have hnot := List.head?_dropWhile_not p as
  rwa [h] at hnot

/-- Behind the elements in front, and one more if there is one. -/
theorem drop_takeWhile_succ (p : α → Bool) (as : List α) :
    as.drop (min ((as.takeWhile p).length + 1) as.length) = (as.dropWhile p).tail := by
  rw [← drop_length_takeWhile, ← List.drop_one, List.drop_drop, List.drop_eq_drop_iff,
    Nat.min_assoc, Nat.min_self]

/-- The elements in front end where one does not satisfy the predicate. -/
theorem takeWhile_append_of_head? {p : α → Bool} {front rest : List α}
    (hfront : ∀ a ∈ front, p a = true) (hrest : ∀ b ∈ rest.head?, p b = false) :
    (front ++ rest).takeWhile p = front ∧ (front ++ rest).dropWhile p = rest := by
  rw [List.takeWhile_append_of_pos hfront, List.dropWhile_append_of_pos hfront]
  cases rest with
  | nil => exact ⟨List.append_nil front, rfl⟩
  | cons b rest =>
    have hb := Bool.eq_false_iff.mp (hrest b rfl)
    rw [List.takeWhile_cons_of_neg hb, List.dropWhile_cons_of_neg hb, List.append_nil]
    exact ⟨rfl, rfl⟩

variable {sep : α → Bool} {a : α} (as : List α)

theorem takeWhile_not_cons_of_sep (h : sep a = true) : (a :: as).takeWhile (!sep ·) = [] := by
  simp [h]

theorem takeWhile_not_cons_of_not_sep (h : sep a = false) :
    (a :: as).takeWhile (!sep ·) = a :: as.takeWhile (!sep ·) := by
  simp [h]

theorem dropWhile_not_cons_of_sep (h : sep a = true) :
    (a :: as).dropWhile (!sep ·) = a :: as := by
  simp [h]

theorem dropWhile_not_cons_of_not_sep (h : sep a = false) :
    (a :: as).dropWhile (!sep ·) = as.dropWhile (!sep ·) := by
  simp [h]

end Front

/-! ## Folding one list after the other -/

namespace Fold

theorem stepAll_cons_of_ok {f : Fold α σ β} {s t : σ} {a : α} (h : f.step s a = .ok t)
    (as : List α) : f.stepAll s (a :: as) = f.stepAll t as := by
  rw [stepAll, h]

theorem stepAll_cons_of_error {f : Fold α σ β} {s : σ} {a : α} {e : Fault}
    (h : f.step s a = .error e) (as : List α) : f.stepAll s (a :: as) = .error e := by
  rw [stepAll, h]

/-- What the fold makes of lists, one after the other, as far as no fault breaks it off, and the
fault that does. -/
def runAll (f : Fold α σ β) : List (List α) → List β × Option Fault
  | [] => ([], none)
  | as :: rest =>
    match f.run as with
    | .error e => ([], some e)
    | .ok b => (b :: (f.runAll rest).1, (f.runAll rest).2)

theorem runAll_cons_of_ok {f : Fold α σ β} {as : List α} {b : β} (h : f.run as = .ok b)
    (rest : List (List α)) :
    f.runAll (as :: rest) = (b :: (f.runAll rest).1, (f.runAll rest).2) := by
  rw [runAll, h]

theorem runAll_cons_of_error {f : Fold α σ β} {as : List α} {e : Fault} (h : f.run as = .error e)
    (rest : List (List α)) : f.runAll (as :: rest) = ([], some e) := by
  rw [runAll, h]

theorem run_toList (as : List α) : toList.run as = .ok as := by
  have hall : ∀ kept, toList.stepAll kept as = .ok (kept ++ as) := by
    induction as with
    | nil => exact fun kept => congrArg Except.ok (List.append_nil kept).symm
    | cons a as ih =>
      intro kept
      have hstep : toList.step kept a = .ok (kept ++ [a]) := rfl
      rw [stepAll_cons_of_ok hstep, ih, List.append_assoc]
      rfl
  rw [run, hall]
  rfl

theorem runAll_toList (groups : List (List α)) : toList.runAll groups = (groups, none) := by
  induction groups with
  | nil => rfl
  | cons group groups ih => rw [runAll_cons_of_ok (run_toList group), ih]

theorem Total.runAll_eq {f : Fold α σ β} (hf : f.Total) (groups : List (List α)) :
    f.runAll groups = (groups.map hf.output, none) := by
  induction groups with
  | nil => rfl
  | cons group groups ih =>
    rw [runAll_cons_of_ok (hf.run_eq_output group), ih]
    rfl

end Fold

namespace Parser

/-! ## Parsers that group -/

/-- Repeated, the parser folds the groups of a list: a run on what is left of it folds the first
group, and what it leaves has the others. -/
structure Groups (p : Parser α τ β) (f : Fold α σ β) (groups : List α → List (List α)) : Prop where
  nil : groups [] = []
  cons : ∀ as, as ≠ [] → ∃ group n, 0 < n ∧ n ≤ as.length ∧
    groups as = group :: groups (as.drop n) ∧
    p.round as = (f.run group).map fun b => ⟨.ok b, n⟩

namespace Groups

variable {p : Parser α τ β} {f : Fold α σ β} {groups : List α → List (List α)}

section Rounds

variable (h : Groups p f groups) {as : List α}

include h

theorem of_round_ok {r : Round β} (hne : as ≠ []) (hr : p.round as = .ok r) :
    r.Advances ∧ r.consumed ≤ as.length ∧
      ∃ group b, groups as = group :: groups (as.drop r.consumed) ∧ f.run group = .ok b ∧
        r.answer = .ok b := by
  obtain ⟨group, n, hpos, hle, hgroups, hround⟩ := h.cons as hne
  rw [hround] at hr
  obtain ⟨b, hrun, rfl⟩ := exists_of_map_eq_ok hr
  exact ⟨⟨⟨b, rfl⟩, hpos⟩, hle, group, b, hgroups, hrun, rfl⟩

theorem of_round_error {e : Fault} (hne : as ≠ []) (hr : p.round as = .error e) :
    ∃ group rest, groups as = group :: rest ∧ f.run group = .error e := by
  obtain ⟨group, n, -, -, hgroups, hround⟩ := h.cons as hne
  rw [hround] at hr
  exact ⟨group, _, hgroups, eq_error_of_map_eq_error hr⟩

variable {rounds : List (Round β)} {fault : Option Fault} (hr : Rounds p as rounds fault)

include hr

/-- The answers are the groups folded one by one, and what breaks a fold off breaks the repetition
off. -/
theorem answers : rounds.map Round.answer = (f.runAll (groups as)).1.map .ok ∧
    fault = (f.runAll (groups as)).2 := by
  induction hr with
  | nil =>
    rw [h.nil]
    exact ⟨rfl, rfl⟩
  | broken hne hround =>
    obtain ⟨group, rest, hgroups, hrun⟩ := h.of_round_error hne hround
    rw [hgroups, Fold.runAll_cons_of_error hrun]
    exact ⟨rfl, rfl⟩
  | last hne hround hstop => exact absurd (h.of_round_ok hne hround).1 hstop
  | cons hne hround hgo hrest ih =>
    obtain ⟨-, -, group, b, hgroups, hrun, hanswer⟩ := h.of_round_ok hne hround
    rw [hgroups, Fold.runAll_cons_of_ok hrun, List.map_cons, List.map_cons, hanswer, ih.1]
    exact ⟨rfl, ih.2⟩

/-- Each of the runs has a result and consumes something. -/
theorem advances : ∀ r ∈ rounds, r.Advances := by
  induction hr with
  | nil | broken _ _ => exact nofun
  | last hne hround hstop => exact absurd (h.of_round_ok hne hround).1 hstop
  | cons hne hround hgo hrest ih => exact List.forall_mem_cons.mpr ⟨hgo, ih⟩

end Rounds

/-! ## Repeating the parser on a source -/

theorem collect {ρ : Type y} [FinitePull ρ α] (h : Groups p f groups) (hp : p.Forward)
    (s : Source ρ α) :
    ∃ t, (Repetition.start p s).collect =
        some ((f.runAll (groups (Pull.elements s))).1.map .ok, t) ∧
      t.fault = (f.runAll (groups (Pull.elements s))).2 := by
  obtain ⟨rounds, fault, hr⟩ := exists_rounds p (Pull.elements s)
  obtain ⟨t, hcollect, hfault⟩ := hr.collect hp
  obtain ⟨hanswers, hbroken⟩ := h.answers hr
  rw [hanswers] at hcollect
  exact ⟨t, hcollect, hfault.trans hbroken⟩

section Lists

variable {p : Parser α τ (List α)} (h : Groups p .toList groups)

include h

/-- If the groups make up the list, each run consumes its group. -/
theorem total_take (hflatten : ∀ as, (groups as).flatten = as) {as : List α}
    {rounds : List (Round (List α))} {fault : Option Fault} (hr : Rounds p as rounds fault)
    (n : Nat) : Round.total (rounds.take n) = ((groups as).take n).flatten.length := by
  induction hr generalizing n with
  | nil =>
    rw [h.nil, List.take_nil, List.take_nil]
    rfl
  | broken hne hround =>
    obtain ⟨group, rest, -, hrun⟩ := h.of_round_error hne hround
    rw [Fold.run_toList] at hrun
    cases hrun
  | last hne hround hstop => exact absurd (h.of_round_ok hne hround).1 hstop
  | @cons as r rounds fault hne hround hgo hrest ih =>
    obtain ⟨-, hle, group, b, hgroups, -, -⟩ := h.of_round_ok hne hround
    cases n with
    | zero => rfl
    | succ n =>
      -- The group is what the run consumes, because the others are what it leaves.
      have hlen := congrArg List.length (hflatten as)
      rw [hgroups, List.flatten_cons, hflatten, List.length_append, List.length_drop] at hlen
      rw [hgroups, List.take_succ_cons, List.take_succ_cons, Round.total, ih, List.flatten_cons,
        List.length_append]
      omega

variable {ρ : Type y} [FinitePull ρ α] (hp : p.Forward) (s : Source ρ α)

include hp

/-- Collecting lists, the repetition goes through rounds that answer with the groups. -/
theorem exists_course :
    ∃ rounds, Rounds p (Pull.elements s) rounds none ∧ Repetition.Course p s rounds ∧
      rounds.map Round.answer = (groups (Pull.elements s)).map .ok := by
  obtain ⟨rounds, fault, hr⟩ := exists_rounds p (Pull.elements s)
  obtain ⟨hanswers, hbroken⟩ := h.answers hr
  rw [Fold.runAll_toList] at hanswers hbroken
  subst hbroken
  exact ⟨rounds, hr, hr.course hp, hanswers⟩

theorem collect_toList :
    ∃ t, (Repetition.start p s).collect = some ((groups (Pull.elements s)).map .ok, t) ∧
      t.fault = none ∧ t.source.offset = s.offset + (Pull.elements s).length ∧
      Pull.elements t.source = [] := by
  obtain ⟨rounds, hr, hcourse, hanswers⟩ := h.exists_course hp s
  obtain ⟨t, hcollect, hstands⟩ := hcourse.collect
  have hall : rounds.take (rounds.length + 1) = rounds :=
    List.take_of_length_le (Nat.le_succ _)
  have htotal : Round.total rounds = (Pull.elements s).length :=
    hcourse.exhausted fun r hlast => h.advances hr r (List.mem_of_getLast? hlast)
  rw [hanswers] at hcollect
  refine ⟨t, hcollect, hstands.fault_eq, ?_, ?_⟩
  · rw [hstands.offset_eq, hall, htotal]
  · rw [hstands.elements_eq, hall, htotal, List.drop_length]

end Lists

end Groups

/-! ## Parsers that test one element after the other -/

/-- In the given states, the parser folds elements as long as they pass the test. The first that
does not is not folded and ends the run, with so many elements handed back. -/
structure Scans (p : Parser α τ β) (f : Fold α σ β) (test : α → Bool) (back : Nat)
    (state : σ → τ) : Prop where
  passes : ∀ s a, test a = true →
    p.step (state s) a = f.thenStep s a fun t => .yield 0 (state t)
  fails : ∀ s a, test a = false → p.step (state s) a = .ok (.stop back (state s))
  finish : ∀ s, p.finish (state s) = .ok (.ok (f.finish s))

section Scans

variable {p : Parser α τ β} {f : Fold α σ β}

theorem roundFrom_of_thenStep {start : τ} {state : σ → τ} {s : σ} {a : α}
    (h : p.step start a = f.thenStep s a fun t => .yield 0 (state t)) (as : List α) :
    p.roundFrom start (a :: as) =
      (f.step s a).bind fun t => (p.roundFrom (state t) as).map Round.further := by
  cases hs : f.step s a with
  | error e =>
    rw [Fold.thenStep, hs] at h
    exact roundFrom_of_error _ as h
  | ok t =>
    rw [Fold.thenStep, hs] at h
    exact roundFrom_of_goes_on _ as h rfl rfl

namespace Scans

variable {test : α → Bool} {back : Nat} {state : σ → τ} (h : Scans p f test back state)

include h

/-- A run folds the elements in front that pass the test, and gets one further if the element behind
them is not handed back. -/
theorem roundFrom (s : σ) (as : List α) :
    p.roundFrom (state s) as = (f.stepAll s (as.takeWhile test)).map fun t =>
      ⟨.ok (f.finish t), min ((as.takeWhile test).length + (1 - back)) as.length⟩ := by
  induction as generalizing s with
  | nil =>
    rw [roundFrom_nil _ (h.finish s), List.takeWhile_nil, List.length_nil, Nat.min_zero]
    rfl
  | cons a as ih =>
    cases htest : test a with
    | false =>
      rw [roundFrom_of_stop _ as (h.fails s a htest) (h.finish s),
        List.takeWhile_cons_of_neg (Bool.eq_false_iff.mp htest), List.length_nil, Nat.zero_add,
        List.length_cons, Nat.min_eq_left (by omega)]
      rfl
    | true =>
      rw [roundFrom_of_thenStep (h.passes s a htest), List.takeWhile_cons_of_pos htest]
      cases hs : f.step s a with
      | error e =>
        rw [Fold.stepAll_cons_of_error hs]
        rfl
      | ok t =>
        rw [Except.bind, ih, map_map_except, Fold.stepAll_cons_of_ok hs]
        simp only [Round.further, List.length_cons, Nat.add_right_comm _ 1, Nat.succ_min_succ]

end Scans

/-- A parser that folds the first element, whatever it is, and then those that go with it. -/
theorem groups_of_opened {groups : List α → List (List α)} {test : α → α → Bool}
    {state : α → σ → τ} (hnil : groups [] = [])
    (hcons : ∀ a as, groups (a :: as) =
      (a :: as.takeWhile (test a)) :: groups (as.dropWhile (test a)))
    {start : τ} (hstart : p.start = .ok start)
    (hopens : ∀ a, p.step start a = f.thenStep f.start a fun t => .yield 0 (state a t))
    (hscans : ∀ a, Scans p f (test a) 1 (state a)) : Groups p f groups where
  nil := hnil
  cons := by
    intro as hne
    cases as with
    | nil => exact absurd rfl hne
    | cons a as =>
      have hle : (as.takeWhile (test a)).length ≤ as.length := (List.takeWhile_prefix _).length_le
      refine ⟨a :: as.takeWhile (test a), (as.takeWhile (test a)).length + 1, Nat.succ_pos _,
        Nat.succ_le_succ hle, ?_, ?_⟩
      · rw [hcons, List.drop_succ_cons, drop_length_takeWhile]
      · rw [round_of_start _ hstart, roundFrom_of_thenStep (hopens a), Fold.run, map_map_except]
        cases hs : f.step f.start a with
        | error e =>
          rw [Fold.stepAll_cons_of_error hs]
          rfl
        | ok t =>
          rw [Except.bind, (hscans a).roundFrom, map_map_except, Fold.stepAll_cons_of_ok hs,
            Nat.sub_self, Nat.add_zero, Nat.min_eq_left hle]
          rfl

end Scans

end Parser

end Streaming
