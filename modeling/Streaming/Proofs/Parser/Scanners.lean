import Streaming.Proofs.Parser.Splits
import Streaming.Proofs.Source.Draws
import Streaming.Text.Stripped

/-!
# Scanners of the elements in front

Where the elements in front that pass a test end is decided in several ways. A parser may fold them
and hand back the element behind them, or fold them and drop it; it may only tell whether there is
such an element; and a source drops elements without a parser, one look ahead after the other.

They all decide it alike (`scanners_agree`). What a source is after dropping the elements is not
only read alike but the very source that folding them leaves behind (`Source.parse_takeWhile`), and
asking for an element that fails the test and asking whether all pass it are one run with opposite
answers (`Parser.all_tracks`).
-/

namespace Streaming

universe u v w x y z

variable {σ : Type u} {α : Type v} {τ : Type w} {β : Type x}

theorem take_length_takeWhile (p : α → Bool) (as : List α) :
    as.take (as.takeWhile p).length = as.takeWhile p :=
  (List.prefix_iff_eq_take.mp (List.takeWhile_prefix p)).symm

/-! ## Dropping elements and folding them -/

namespace Source

section TakeWhile

variable [FinitePull σ α] (p : α → Bool) {f : Fold α τ β}

/-- A run that folds the elements in front takes the turns that dropping them takes. -/
theorem drive_takeWhile {as : List α} {s : Source σ α} {state last : τ} (hs : s.remaining = as)
    (h : f.stepAll state (as.takeWhile p) = .ok last) :
    ∃ t, s.drive (.takeWhile p f) state = some (.ok last, t) ∧
      t.settle = (s.settle.dropWhile p).2 := by
  induction as generalizing s state with
  | nil =>
    obtain rfl : state = last := Except.ok.inj h
    obtain ⟨t, hf⟩ := exists_fetch_of_nil hs
    have hturn : s.turn (.takeWhile p f) state = .done state t := by
      simp only [turn, hf]
    have hsettled : s.settle.fetch = (none, t.settle) := by
      rw [fetch_settle, hf]
    refine ⟨t, drive_of_done hturn, ?_⟩
    rw [dropWhile_of_fetch_none hsettled]
  | cons a as ih =>
    obtain ⟨r, hf, hr⟩ := exists_fetch_of_cons hs
    have hsettled : s.settle.fetch = (some a, r.settle) := by
      rw [fetch_settle, hf]
    rw [dropWhile_of_fetch_some hsettled]
    cases hp : p a with
    | false =>
      rw [List.takeWhile_cons_of_neg (Bool.eq_false_iff.mp hp)] at h
      obtain rfl : state = last := Except.ok.inj h
      have hstep : (Parser.takeWhile p f).step state a = .ok (.stop 1 state) := by
        simp only [Parser.takeWhile, hp, Bool.false_eq_true, if_false]
      obtain ⟨t, hb, -, -⟩ := exists_handBack_retain r a (Nat.le_refl 1)
      refine ⟨t, drive_of_done (turn_of_granted hf hstep hb), ?_⟩
      exact settle_of_handBack_retain hb
    | true =>
      rw [List.takeWhile_cons_of_pos hp] at h
      cases ht : f.step state a with
      | error e =>
        rw [Fold.stepAll_cons_of_error ht] at h
        cases h
      | ok next =>
        rw [Fold.stepAll_cons_of_ok ht] at h
        have hstep : (Parser.takeWhile p f).step state a = .ok (.yield 0 next) := by
          simp only [Parser.takeWhile, hp, if_true, Fold.thenStep, ht]
          rfl
        have hturn := turn_of_granted hf hstep (handBack_zero _)
        obtain ⟨t, hd, hdrop⟩ := ih ((remaining_retain r a).trans hr) h
        refine ⟨t, (drive_of_again hturn).trans hd, ?_⟩
        rw [hdrop, settle_retain]
        rfl

/-- Folding the elements in front leaves the source that dropping them leaves. -/
theorem parse_takeWhile {s : Source σ α} {b : β}
    (h : f.run ((Pull.elements s).takeWhile p) = .ok b) :
    s.parse (.takeWhile p f) = some (.ok (.ok b), (s.settle.dropWhile p).2) := by
  obtain ⟨last, hlast, rfl⟩ := exists_of_map_eq_ok h
  rw [elements_eq_remaining] at hlast
  obtain ⟨t, hd, hdrop⟩ := drive_takeWhile p (s := s.settle) rfl hlast
  have hsettle : s.settle.settle = s.settle := settle_of_recent_eq rfl
  rw [hsettle] at hdrop
  rw [← hdrop]
  exact parse_of_run ((run_of_start rfl s).trans hd) rfl

end TakeWhile

end Source

/-! ## The parsers -/

namespace Parser

theorem scans_takeWhile (p : α → Bool) (f : Fold α τ β) : Scans (takeWhile p f) f p 1 id where
  passes s a h := by
    simp only [takeWhile, h, id, if_true]
  fails s a h := by
    simp only [takeWhile, h, id]
    rfl
  finish s := rfl

section Folds

variable [FinitePull σ α] (p : α → Bool) (f : Fold α τ β) (s : Source σ α)

theorem outcome_takeWhile :
    s.Outcome (takeWhile p f) ((f.run ((Pull.elements s).takeWhile p)).map .ok)
      ((Pull.elements s).takeWhile p).length := by
  have hround := (scans_takeWhile p f).roundFrom f.start (Pull.elements s)
  rw [Nat.sub_self, Nat.add_zero, Nat.min_eq_left (List.takeWhile_prefix p).length_le] at hround
  rw [Fold.run, map_map_except]
  exact (takeWhile_forward f p).outcome_of_round hround

theorem outcome_upTo :
    s.Outcome (upTo (!p ·) f) ((f.run ((Pull.elements s).takeWhile p)).map .ok)
      (min (((Pull.elements s).takeWhile p).length + 1) (Pull.elements s).length) := by
  have hnot : (fun a => !!p a) = p := funext fun a => Bool.not_not (p a)
  have hround := (scans_upTo (!p ·) f).roundFrom f.start (Pull.elements s)
  rw [hnot] at hround
  rw [Fold.run, map_map_except]
  exact (upTo_forward (!p ·) f).outcome_of_round hround

end Folds

section Tests

variable (p : α → Bool)

theorem any_forward : (any p).Forward := by
  intro found a step h
  cases h
  split
  · exact ⟨Nat.zero_le 1, fun _ => rfl⟩
  · exact ⟨Nat.zero_le 1, fun _ => rfl⟩

section Step

variable {p} {a : α}

theorem step_any_of_passes (h : p a = true) :
    (any (!p ·)).step false a = .ok (.yield 0 false) := by
  simp [any, h]

theorem step_any_of_fails (h : p a = false) : (any (!p ·)).step false a = .ok (.stop 0 true) := by
  simp [any, h]

theorem step_all_of_passes (h : p a = true) : (all p).step true a = .ok (.yield 0 true) := by
  simp [all, h]

theorem step_all_of_fails (h : p a = false) : (all p).step true a = .ok (.stop 0 false) := by
  simp [all, h]

end Step

/-- The run ends with the first element that fails the test. -/
theorem roundFrom_any (as : List α) :
    (any (!p ·)).roundFrom false as =
      .ok ⟨.ok (decide ((as.takeWhile p).length < as.length)),
        min ((as.takeWhile p).length + 1) as.length⟩ := by
  induction as with
  | nil => rfl
  | cons a as ih =>
    cases hp : p a with
    | false =>
      rw [roundFrom_of_stop _ as (step_any_of_fails hp) rfl,
        List.takeWhile_cons_of_neg (Bool.eq_false_iff.mp hp)]
      simp
    | true =>
      rw [roundFrom_of_goes_on _ as (step_any_of_passes hp) rfl rfl,
        List.takeWhile_cons_of_pos hp]
      change ((any (!p ·)).roundFrom false as).map Round.further = _
      rw [ih, List.length_cons, List.length_cons, Nat.add_min_add_right]
      simp only [Except.map, Round.further, Nat.add_lt_add_iff_right]

/-- All elements pass the test, or one of them fails it. -/
theorem all_tracks :
    Tracks (fun found held => held = !found) not (any (!p ·)) (all p) where
  start := .ok rfl
  step := by
    rintro found _ a rfl
    cases found with
    | true => exact .ok (.stop 0 rfl)
    | false =>
      cases hp : p a with
      | true =>
        rw [step_any_of_passes hp, Bool.not_false, step_all_of_passes hp]
        exact .ok (.yield 0 rfl)
      | false =>
        rw [step_any_of_fails hp, Bool.not_false, step_all_of_fails hp]
        exact .ok (.stop 0 rfl)
  finish := by
    rintro found _ rfl
    exact .ok rfl

variable [FinitePull σ α] (s : Source σ α)

theorem outcome_any :
    s.Outcome (any (!p ·))
      (.ok (.ok (decide (((Pull.elements s).takeWhile p).length < (Pull.elements s).length))))
      (min (((Pull.elements s).takeWhile p).length + 1) (Pull.elements s).length) :=
  (any_forward (!p ·)).outcome_of_round (m := .ok _) (g := .ok) (roundFrom_any p (Pull.elements s))

theorem outcome_all :
    s.Outcome (all p)
      (.ok (.ok (decide (((Pull.elements s).takeWhile p).length = (Pull.elements s).length))))
      (min (((Pull.elements s).takeWhile p).length + 1) (Pull.elements s).length) := by
  obtain ⟨r, t, hany, hall⟩ := (all_tracks p).exists_parse (any_forward (!p ·)) s
  obtain ⟨t', hparse, hconsumes⟩ := outcome_any p s
  cases hany.symm.trans hparse
  have hle := (List.takeWhile_prefix p (l := Pull.elements s)).length_le
  have hanswer : (!decide (((Pull.elements s).takeWhile p).length < (Pull.elements s).length)) =
      decide (((Pull.elements s).takeWhile p).length = (Pull.elements s).length) := by
    rw [Bool.eq_iff_iff, Bool.not_eq_true', decide_eq_false_iff_not, decide_eq_true_iff]
    omega
  rw [Except.map, hanswer] at hall
  exact ⟨t, hall, fun _ _ => hconsumes _ rfl⟩

end Tests

end Parser

/-! ## Text -/

namespace Text.Stripped

variable [FinitePull σ Char]

theorem elements_begun (chars : σ) :
    Pull.elements ({ chars, begun := true } : Stripped σ) = Pull.elements chars := by
  induction chars using Pull.collect.induct with
  | case1 chars rest h =>
    have hpull : Pull.pull ({ chars, begun := true } : Stripped σ) = (none, ⟨rest, true⟩) := by
      change next _ = _
      simp only [next, h, if_true]
    rw [Pull.elements_of_none hpull, Pull.elements_of_none h]
  | case2 chars c rest h ih =>
    have hpull : Pull.pull ({ chars, begun := true } : Stripped σ) = (some c, ⟨rest, true⟩) := by
      change next _ = _
      simp only [next, h, if_true]
    rw [Pull.elements_of_some hpull, Pull.elements_of_some h, ih]

theorem skip_of_none {chars rest : σ} (h : Pull.pull chars = (none, rest)) :
    skip chars = (none, ⟨rest, false⟩) := by
  rw [skip]
  split <;> rename_i heq <;> rw [h] at heq <;> cases heq
  rfl

theorem skip_of_some {chars rest : σ} {c : Char} (h : Pull.pull chars = (some c, rest)) :
    skip chars = if isSpace c then skip rest else (some c, ⟨rest, true⟩) := by
  rw [skip]
  split <;> rename_i heq <;> rw [h] at heq <;> cases heq
  rfl

/-- The white space in front is dropped, and nothing else. -/
theorem elements_eq (chars : σ) :
    Pull.elements ({ chars } : Stripped σ) = (Pull.elements chars).dropWhile isSpace := by
  have hpull (chars : σ) : Pull.pull ({ chars } : Stripped σ) = skip chars := rfl
  induction chars using Pull.collect.induct with
  | case1 chars rest h =>
    rw [Pull.elements_of_none ((hpull chars).trans (skip_of_none h)), Pull.elements_of_none h]
    rfl
  | case2 chars c rest h ih =>
    have hskip := skip_of_some h
    rw [Pull.elements_of_some h]
    by_cases hspace : isSpace c = true
    · rw [if_pos hspace] at hskip
      rw [List.dropWhile_cons_of_pos hspace, ← ih]
      exact Pull.elements_eq_of_pull_eq hskip
    · rw [if_neg hspace] at hskip
      rw [List.dropWhile_cons_of_neg hspace, Pull.elements_of_some ((hpull chars).trans hskip),
        elements_begun]

end Text.Stripped

/-! ## All ways to find the end -/

namespace Source

variable [FinitePull σ α]

/-- On the source, every way to find the end of the elements in front that pass the test finds that
there are `k` of them. -/
structure SplitsAt (s : Source σ α) (p : α → Bool) (f : Fold α τ β) (k : Nat) : Prop where
  /-- Folding them leaves the element behind them. -/
  takeWhile :
    s.Outcome (.takeWhile p f) ((f.run ((Pull.elements s).take k)).map .ok) k
  dropWhile_fst : (s.dropWhile p).1 = k
  dropWhile_snd : s.Consumes k (s.dropWhile p).2
  /-- Dropping them leaves the same source as folding them. -/
  same : ∀ b, f.run ((Pull.elements s).take k) = .ok b →
    s.parse (.takeWhile p f) = some (.ok (.ok b), (s.dropWhile p).2)
  /-- Folding those in front of the first that fails the test drops this one. -/
  upTo : s.Outcome (.upTo (!p ·) f) ((f.run ((Pull.elements s).take k)).map .ok)
    (min (k + 1) (Pull.elements s).length)
  all : s.Outcome (.all p) (.ok (.ok (decide (k = (Pull.elements s).length))))
    (min (k + 1) (Pull.elements s).length)
  any : s.Outcome (.any (!p ·)) (.ok (.ok (decide (k < (Pull.elements s).length))))
    (min (k + 1) (Pull.elements s).length)

end Source

/-- **Scanners agree.** On any reachable source, all ways to find the end of the elements in front
that pass a test find the same place, and leave behind what they promise to. Text without the white
space in front of it begins at the place found for white space. -/
theorem scanners_agree [FinitePull σ α] {input : σ} {s : Source σ α}
    (h : Source.Reachable.{u, v, y} input s) (p : α → Bool) (f : Fold α τ β) {ρ : Type z}
    [FinitePull ρ Char] (chars : ρ) :
    s.SplitsAt p f ((Pull.elements s).takeWhile p).length ∧
      Pull.elements ({ chars } : Text.Stripped ρ) = (Pull.elements chars).drop
        ((Pull.elements chars).takeWhile Text.isSpace).length := by
  refine ⟨?_, ?_⟩
  · have htake := take_length_takeWhile p (Pull.elements s)
    have hdropped := (Source.draws_dropWhile p s).toConsumes
    have hsame : ∀ b, f.run ((Pull.elements s).takeWhile p) = .ok b →
        s.parse (.takeWhile p f) = some (.ok (.ok b), (s.dropWhile p).2) := by
      intro b hb
      have hparse := Source.parse_takeWhile p hb
      rwa [Source.settle_of_recent_eq h.rests.recent_eq] at hparse
    refine ⟨?_, Source.fst_dropWhile p s, hdropped, ?_, ?_, Parser.outcome_all p s,
      Parser.outcome_any p s⟩
    · rw [htake]
      exact Parser.outcome_takeWhile p f s
    · rw [htake]
      exact hsame
    · rw [htake]
      exact Parser.outcome_upTo p f s
  · rw [Text.Stripped.elements_eq, drop_length_takeWhile]

/-- The first of three elements was handed back, and the second one fails the test. -/
theorem scanners_agree_handedBack :
    ∃ s : Source (Supply Nat) Nat,
      Source.Reachable.{0, 0, 0} (Supply.ofList [5, 6, 7, 0, 8]) s ∧ s.offset = 2 ∧
        s.pending = [7] ∧ s.SplitsAt (· != 0) .toList 1 ∧
        s.parse (.takeWhile (· != 0) .toList) =
          some (.ok (.ok [7]), (s.dropWhile (· != 0)).2) ∧
        Pull.elements ({ chars := Supply.ofList ['\t', ' ', 'x', ' '] } : Text.Stripped _) =
          ['x', ' '] := by
  let p : Parser Nat (List Nat) (List Nat) := .takeWhile (· != 7) .toList
  have hd : (Source.ofInput (Supply.ofList [5, 6, 7, 0, 8])).settle.drive p [] =
      some (.ok [5, 6], ⟨⟨⟨[some 0, some 8], 3, 3, none⟩, false⟩, [7], [5, 6], 0, []⟩) :=
    Source.drive_of_after (n := 3) rfl
  have hp : (Source.ofInput (Supply.ofList [5, 6, 7, 0, 8])).perform (.parse p) =
      some (.ok (.outcome (.ok [5, 6])),
        ⟨⟨⟨[some 0, some 8], 3, 3, none⟩, false⟩, [7], [], 2, []⟩) :=
    congrArg (Option.map _) (congrArg (Option.map (Source.conclude p)) hd)
  have hs := Source.Reachable.perform.{0, 0, 0} .start hp
  have helems := hs.rests.reads.elements_eq
  obtain ⟨hsplits, hstripped⟩ := scanners_agree.{0, 0, 0, 0, 0, 0} hs (· != 0) .toList
    (Supply.ofList ['\t', ' ', 'x', ' '])
  rw [helems, Supply.elements_ofList] at hsplits
  rw [Supply.elements_ofList] at hstripped
  refine ⟨_, hs, rfl, rfl, hsplits, hsplits.same _ ?_, hstripped⟩
  rw [helems, Supply.elements_ofList]
  rfl

end Streaming
