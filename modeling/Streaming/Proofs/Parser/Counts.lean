import Streaming.Proofs.Parser.Groups

/-!
# Counting parsers

A parser of exactly so many elements takes them if they are there, and everything if they are not;
a parser of at least so many takes everything (`Parser.round_exactly`, `Parser.round_atLeast`).
Either way the number of elements decides whether there is a result, and if there is none, the
error tells this number.

A parser of no element at all is offered one before it can stop, and hands it back: it leaves the
source as looking at the next element does (`Source.parse_exactly_zero`). Repeated, a parser of at
least one element cuts what the source reads into blocks, and ends with an error if an incomplete
one is left (`Parser.rounds_exactly`).
-/

namespace Streaming

universe u v w x y

variable {σ : Type u} {α : Type v} {τ : Type w} {β : Type x}

/-! ## Blocks -/

/-- The pieces of `count` elements that a list is made up of, one behind the other, without the
rest. -/
def fullBlocks (count : Nat) (as : List α) : List (List α) :=
  (List.range (as.length / count)).map fun i => (as.drop (i * count)).take count

section Blocks

variable {count : Nat} {as : List α}

theorem fullBlocks_of_lt (h : as.length < count) : fullBlocks count as = [] := by
  rw [fullBlocks, Nat.div_eq_of_lt h]
  rfl

/-- The first block, and those of what is behind it. -/
theorem fullBlocks_of_le (hcount : 0 < count) (h : count ≤ as.length) :
    fullBlocks count as = as.take count :: fullBlocks count (as.drop count) := by
  have hdiv : as.length / count = (as.drop count).length / count + 1 := by
    rw [List.length_drop, Nat.div_eq_sub_div hcount h]
  rw [fullBlocks, fullBlocks, hdiv, List.range_succ_eq_map, List.map_cons, List.map_map,
    Nat.zero_mul, List.drop_zero]
  congr 1
  apply List.map_congr_left
  intro i _
  rw [Function.comp_apply, List.drop_drop, Nat.succ_mul, Nat.add_comm]

end Blocks

namespace Parser

/-! ## A run -/

section Round

variable (f : Fold α τ β) (count : Nat)

theorem finish_exactly_full (s : τ) :
    (exactly count f).finish (count, s) = .ok (.ok (f.finish s)) :=
  congrArg Except.ok (if_pos rfl)

/-- A run that has taken all elements hands back what it is offered. -/
theorem roundFrom_exactly_full (s : τ) (as : List α) :
    (exactly count f).roundFrom (count, s) as = .ok ⟨.ok (f.finish s), 0⟩ := by
  cases as with
  | nil => exact roundFrom_nil _ (finish_exactly_full f count s)
  | cons a as =>
    have hstep : (exactly count f).step (count, s) a = .ok (.stop 1 (count, s)) :=
      if_pos (Nat.le_refl count)
    exact roundFrom_of_stop _ as hstep (finish_exactly_full f count s)

/-- Stopping with the last element comes to what going on behind it would come to. -/
theorem roundFrom_exactly_cons {taken : Nat} (h : taken < count) (s : τ) (a : α) (as : List α) :
    (exactly count f).roundFrom (taken, s) (a :: as) =
      (f.step s a).bind fun t =>
        ((exactly count f).roundFrom (taken + 1, t) as).map Round.further := by
  have hstep : (exactly count f).step (taken, s) a = f.thenStep s a fun t =>
      if taken + 1 = count then .stop 0 (taken + 1, t) else .yield 0 (taken + 1, t) :=
    if_neg (Nat.not_le.mpr h)
  by_cases hlast : taken + 1 = count
  · subst hlast
    simp only [if_true] at hstep
    rw [Fold.thenStep] at hstep
    cases ht : f.step s a with
    | error e =>
      rw [ht] at hstep
      exact roundFrom_of_error _ as hstep
    | ok t =>
      rw [ht] at hstep
      rw [roundFrom_of_stop _ as hstep (finish_exactly_full f _ t), Except.bind,
        roundFrom_exactly_full]
      rfl
  · simp only [if_neg hlast] at hstep
    exact roundFrom_of_thenStep hstep as

/-- A run that has taken some of the elements takes the others, if they are there. -/
theorem roundFrom_exactly {taken : Nat} (h : taken ≤ count) (s : τ) (as : List α) :
    (exactly count f).roundFrom (taken, s) as =
      (f.stepAll s (as.take (count - taken))).map fun t =>
      ⟨if count ≤ taken + as.length then .ok (f.finish t)
        else .error (.expectedExactly count (taken + as.length)),
      min (count - taken) as.length⟩ := by
  induction as generalizing taken s with
  | nil =>
    have hfull : count ≤ taken + 0 ↔ taken = count := by omega
    rw [roundFrom_nil _ rfl, List.take_nil, List.length_nil, Nat.min_zero]
    simp only [hfull]
    rfl
  | cons a as ih =>
    rcases Nat.eq_or_lt_of_le h with rfl | hlt
    · have hle : taken ≤ taken + (a :: as).length := Nat.le_add_right ..
      simp only [roundFrom_exactly_full, Nat.sub_self, List.take_zero, Nat.zero_min, if_pos hle]
      rfl
    · have hnext : taken + 1 ≤ count := hlt
      have hroom : count - taken = count - (taken + 1) + 1 := by omega
      rw [roundFrom_exactly_cons f count hlt, hroom, List.take_succ_cons, List.length_cons,
        Nat.add_min_add_right]
      cases ht : f.step s a with
      | error e =>
        rw [Fold.stepAll_cons_of_error ht]
        rfl
      | ok t =>
        rw [Except.bind, ih hnext, map_map_except, Fold.stepAll_cons_of_ok ht]
        simp only [Round.further, Nat.add_assoc, Nat.add_comm 1]

/-- A run takes everything. -/
theorem roundFrom_atLeast (taken : Nat) (s : τ) (as : List α) :
    (atLeast count f).roundFrom (taken, s) as = (f.stepAll s as).map fun t =>
      ⟨if count ≤ taken + as.length then .ok (f.finish t)
        else .error (.expectedAtLeast count (taken + as.length)), as.length⟩ := by
  induction as generalizing taken s with
  | nil => rfl
  | cons a as ih =>
    have hstep : (atLeast count f).step (taken, s) a =
        f.thenStep s a fun t => .yield 0 (taken + 1, t) := rfl
    rw [roundFrom_of_thenStep hstep]
    cases ht : f.step s a with
    | error e =>
      rw [Fold.stepAll_cons_of_error ht]
      rfl
    | ok t =>
      rw [Except.bind, ih, map_map_except, Fold.stepAll_cons_of_ok ht]
      simp only [Round.further, List.length_cons, Nat.add_assoc, Nat.add_comm 1]

theorem round_exactly (as : List α) :
    (exactly count f).round as = (f.run (as.take count)).map fun b =>
      ⟨if count ≤ as.length then .ok b else .error (.expectedExactly count as.length),
        min count as.length⟩ := by
  have hround := roundFrom_exactly f count (Nat.zero_le count) f.start as
  rw [Nat.sub_zero, Nat.zero_add] at hround
  rw [Fold.run, map_map_except]
  exact hround

theorem round_atLeast (as : List α) :
    (atLeast count f).round as = (f.run as).map fun b =>
      ⟨if count ≤ as.length then .ok b else .error (.expectedAtLeast count as.length),
        as.length⟩ := by
  have hround := roundFrom_atLeast f count 0 f.start as
  rw [Nat.zero_add] at hround
  rw [Fold.run, map_map_except]
  exact hround

end Round

/-- A run that takes nothing leaves the source as looking at the next element does. -/
theorem parse_exactly_zero [FinitePull σ α] (f : Fold α τ β) {s : Source σ α} (h : s.recent = []) :
    s.parse (exactly 0 f) = some (.ok (.ok (f.finish f.start)), s.peek.2) := by
  have hs : s.settle = s := Source.settle_of_recent_eq h
  cases hf : s.fetch with
  | mk answer t =>
    have hsettled : t.settle = t := by
      have hrecent := Source.recent_fetch s
      rw [hf] at hrecent
      exact Source.settle_of_recent_eq (hrecent.trans h)
    cases answer with
    | none =>
      have hturn : s.settle.turn (exactly 0 f) (0, f.start) = .done (0, f.start) t := by
        simp only [Source.turn, hs, hf]
      have hrun := (Source.run_of_start rfl s).trans (Source.drive_of_done hturn)
      rw [Source.parse_of_run hrun rfl, hsettled]
      simp only [Source.peek, hf]
    | some a =>
      have hstep : (exactly 0 f).step (0, f.start) a = .ok (.stop 1 (0, f.start)) := rfl
      obtain ⟨r, hb, -, -⟩ := Source.exists_handBack_retain t a (Nat.le_refl 1)
      have hturn := Source.turn_of_granted hf hstep hb
      rw [← hs] at hturn
      have hrun := (Source.run_of_start rfl s).trans (Source.drive_of_done hturn)
      rw [Source.parse_of_run hrun rfl,
        Source.settle_of_handBack_retain hb, hsettled]
      simp only [Source.peek, hf]

/-! ## Repeating a parser of so many elements -/

/-- The rounds of a parser of `count` elements: one for each block, and one for the rest if there is
one. -/
def countRounds (count : Nat) (as : List α) : List (Round (List α)) :=
  (fullBlocks count as).map (fun block => ⟨.ok block, count⟩) ++
    if count ∣ as.length then []
    else [⟨.error (.expectedExactly count (as.length % count)), as.length % count⟩]

section Repeated

variable {count : Nat} {as : List α}

theorem countRounds_nil (hcount : 0 < count) : countRounds count ([] : List α) = [] := by
  have hdvd : count ∣ ([] : List α).length := Nat.dvd_zero count
  rw [countRounds, fullBlocks_of_lt hcount, if_pos hdvd]
  rfl

theorem countRounds_of_le (hcount : 0 < count) (h : count ≤ as.length) :
    countRounds count as = ⟨.ok (as.take count), count⟩ :: countRounds count (as.drop count) := by
  have hdvd : count ∣ (as.drop count).length ↔ count ∣ as.length := by
    rw [List.length_drop]
    exact Nat.dvd_sub_iff_left h (Nat.dvd_refl count)
  have hmod : (as.drop count).length % count = as.length % count := by
    rw [List.length_drop]
    exact (Nat.mod_eq_sub_mod h).symm
  rw [countRounds, countRounds, fullBlocks_of_le hcount h, hmod]
  simp only [hdvd]
  rfl

theorem countRounds_of_lt (hne : as ≠ []) (h : as.length < count) :
    countRounds count as = [⟨.error (.expectedExactly count as.length), as.length⟩] := by
  have hdvd : ¬ count ∣ as.length :=
    Nat.not_dvd_of_pos_of_lt (List.length_pos_iff.mpr hne) h
  rw [countRounds, fullBlocks_of_lt h, if_neg hdvd, Nat.mod_eq_of_lt h]
  rfl

theorem rounds_exactly (hcount : 0 < count) (as : List α) :
    Rounds (exactly count .toList) as (countRounds count as) none := by
  induction hn : as.length using Nat.strongRecOn generalizing as with
  | _ n ih =>
    subst hn
    have hround := round_exactly .toList count as
    rw [Fold.run_toList, Except.map] at hround
    by_cases hne : as = []
    · subst hne
      rw [countRounds_nil hcount]
      exact .nil
    · rcases Nat.lt_or_ge as.length count with hlt | hle
      · rw [if_neg (Nat.not_le.mpr hlt), Nat.min_eq_right (Nat.le_of_lt hlt)] at hround
        rw [countRounds_of_lt hne hlt]
        refine .last hne hround ?_
        rintro ⟨⟨b, hb⟩, -⟩
        cases hb
      · rw [if_pos hle, Nat.min_eq_left hle] at hround
        rw [countRounds_of_le hcount hle]
        refine .cons hne hround ⟨⟨_, rfl⟩, hcount⟩ ?_
        have hlt : (as.drop count).length < as.length := by
          rw [List.length_drop]
          omega
        exact ih _ hlt _ rfl

/-- The answers are the blocks, and an error that tells how many elements the rest is. -/
theorem answer_countRounds (count : Nat) (as : List α) :
    (countRounds count as).map Round.answer = (fullBlocks count as).map .ok ++
      if count ∣ as.length then [] else [.error (.expectedExactly count (as.length % count))] := by
  rw [countRounds, List.map_append, List.map_map]
  congr 1
  split <;> rfl

end Repeated

end Parser

/-- **Counting is exact.** On any reachable source, a parser of so many elements has a result if
they are there, and consumes them and no others; if they are not, it consumes what there is and the
error tells how many that is. A parser of no element leaves the source as looking at the next one
does. A parser of at least so many consumes everything, and has a result if that is enough. The
first one, repeated, collects the blocks of what the source reads, and ends with an error exactly if
a rest is left. -/
theorem counts_are_exact [FinitePull σ α] {input : σ} {s : Source σ α}
    (h : Source.Reachable.{u, v, y} input s) (count : Nat) (f : Fold α τ β) :
    s.Outcome (.exactly count f)
        ((f.run ((Pull.elements s).take count)).map fun b =>
          if count ≤ (Pull.elements s).length then .ok b
          else .error (.expectedExactly count (Pull.elements s).length))
        (min count (Pull.elements s).length) ∧
      s.parse (.exactly 0 f) = some (.ok (.ok (f.finish f.start)), s.peek.2) ∧
      s.Outcome (.atLeast count f)
        ((f.run (Pull.elements s)).map fun b =>
          if count ≤ (Pull.elements s).length then .ok b
          else .error (.expectedAtLeast count (Pull.elements s).length))
        (Pull.elements s).length ∧
      (0 < count → ∀ n, ∃ t, (Repetition.start (.exactly count .toList) s).answers n =
          some (Pull.served n ((fullBlocks count (Pull.elements s)).map .ok ++
            if count ∣ (Pull.elements s).length then []
            else [.error (.expectedExactly count ((Pull.elements s).length % count))]), t) ∧
        t.fault = none) := by
  refine ⟨?_, Parser.parse_exactly_zero f h.rests.recent_eq, ?_, ?_⟩
  · exact (Parser.exactly_forward f count).outcome_of_round (Parser.round_exactly f count _)
  · exact (Parser.atLeast_forward f count).outcome_of_round (Parser.round_atLeast f count _)
  · intro hcount n
    have hrounds := Parser.rounds_exactly hcount (Pull.elements s)
    obtain ⟨t, hanswers, hstands⟩ :=
      (hrounds.course (Parser.exactly_forward Fold.toList count)).answers n
    rw [Parser.answer_countRounds] at hanswers
    exact ⟨t, hanswers, hstands.fault_eq⟩

/-- Pairs of five elements, of which the first was looked at. -/
theorem counts_are_exact_lookedAt :
    ∃ s : Source (Supply Nat) Nat,
      Source.Reachable.{0, 0, 0} (Supply.ofList [5, 6, 7, 8, 9]) s ∧ s.pending = [5] ∧
        (∃ t, s.parse (.exactly 2 .toList) = some (.ok (.ok [5, 6]), t) ∧ t.offset = 2) ∧
        (∃ t, s.parse (.atLeast 2 .toList) = some (.ok (.ok [5, 6, 7, 8, 9]), t) ∧
          t.offset = 5) ∧
        ∃ t, (Repetition.start (.exactly 2 .toList) s).answers 4 =
          some ([some (.ok [5, 6]), some (.ok [7, 8]), some (.error (.expectedExactly 2 1)), none],
            t) := by
  have hp : (Source.ofInput (Supply.ofList [5, 6, 7, 8, 9])).perform .peek =
      some (.ok (.element (some 5)),
        ⟨⟨⟨[some 6, some 7, some 8, some 9], 1, 1, none⟩, false⟩, [5], [], 0, []⟩) := rfl
  have hs := Source.Reachable.perform.{0, 0, 0} .start hp
  have helems := hs.rests.reads.elements_eq
  rw [Supply.elements_ofList] at helems
  obtain ⟨⟨t, htake, hpair⟩, -, ⟨u, hall, hrest⟩, hrepeated⟩ :=
    counts_are_exact.{0, 0, 0, 0, 0} hs 2 .toList
  obtain ⟨r, hanswers, -⟩ := hrepeated (by decide) 4
  rw [helems, Fold.run_toList] at htake hpair hall hrest
  rw [helems] at hanswers
  exact ⟨_, hs, rfl, ⟨t, htake, (hpair _ rfl).offset_eq⟩, ⟨u, hall, (hrest _ rfl).offset_eq⟩,
    r, hanswers⟩

end Streaming
