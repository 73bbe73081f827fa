import Streaming.Proofs.Source.Draws
import Streaming.Proofs.Text.Lines
import Streaming.Proofs.Text.Words

/-!
# How much of a text has been read

Lines and words are drawn one by one, and a text is read only as far as they need it. A line needs
the newline that ends it, and nothing behind that. A word needs the first character of the next
word, because the space behind a word is passed over with it.
-/

namespace Streaming

universe u v w x

/-! ## The places where groups end -/

section Splits

variable {α : Type u} {sep : α → Bool}

/-- The place behind the separator that ends the group with this number, counted from one, or the
end of the list if there is no such separator. -/
def splitEnd (sep : α → Bool) (as : List α) : Nat → Nat
  | 0 => 0
  | n + 1 => min (as.findIdxNth sep n + 1) as.length

theorem splitEnd_nil (n : Nat) : splitEnd sep ([] : List α) n = 0 := by
  cases n with
  | zero => rfl
  | succ n => exact Nat.min_zero _

theorem splitEnd_cons_of_sep {a : α} (h : sep a = true) (as : List α) (n : Nat) :
    splitEnd sep (a :: as) (n + 1) = splitEnd sep as n + 1 := by
  rw [splitEnd, List.length_cons, Nat.add_min_add_right]
  cases n with
  | zero =>
    rw [List.findIdxNth_cons_zero_of_pos h, Nat.zero_min]
    rfl
  | succ n =>
    rw [List.findIdxNth_cons_succ_of_pos h]
    rfl

theorem splitEnd_cons_of_not_sep {a : α} (h : sep a = false) (as : List α) (n : Nat) :
    splitEnd sep (a :: as) (n + 1) = splitEnd sep as (n + 1) + 1 := by
  rw [splitEnd, List.length_cons, Nat.add_min_add_right, List.findIdxNth_cons_of_neg h]
  rfl

/-- The first group, and those behind it. -/
theorem splitEnd_succ (as : List α) (n : Nat) :
    splitEnd sep as (n + 1) =
      min ((as.takeWhile (!sep ·)).length + 1) as.length +
        splitEnd sep (as.drop (min ((as.takeWhile (!sep ·)).length + 1) as.length)) n := by
  induction as with
  | nil =>
    rw [splitEnd_nil, List.drop_nil, splitEnd_nil]
    rfl
  | cons a as ih =>
    rw [List.length_cons, Nat.add_min_add_right]
    cases h : sep a with
    | true =>
      rw [splitEnd_cons_of_sep h, takeWhile_not_cons_of_sep as h, List.length_nil, Nat.zero_min,
        Nat.zero_add, List.drop_one, List.tail_cons, Nat.add_comm]
    | false =>
      rw [splitEnd_cons_of_not_sep h, ih, takeWhile_not_cons_of_not_sep as h, List.length_cons,
        List.drop_succ_cons, Nat.add_right_comm]

end Splits

section Runs

variable {α : Type u} {sep : α → Bool}

/-- The separators in front belong to the first run. -/
theorem wordEnd_dropWhile (as : List α) :
    wordEnd sep as = (as.takeWhile sep).length + wordEnd sep (as.dropWhile sep) := by
  have hlen := length_takeWhile_add sep (as.dropWhile sep)
  simp only [wordEnd, List.dropWhile_idempotent] at hlen ⊢
  omega

end Runs

namespace Parser

variable {α : Type u} {τ : Type v} {β : Type w} (sep : α → Bool) (f : Fold α τ β)

/-- A step that uses its element and goes on. -/
theorem handsBack_thenStep {ρ : Type x} {n : Nat} {f : Fold α τ β} {s : τ} {a : α}
    {state : τ → ρ} {step : Step ρ} (h : f.thenStep s a (fun t => .yield 0 (state t)) = .ok step) :
    step.back = if step.isStop then n else 0 := by
  rw [Fold.thenStep] at h
  obtain ⟨t, -, rfl⟩ := exists_of_map_eq_ok h
  rfl

theorem handsBack_upTo : (upTo sep f).HandsBack 0 := by
  intro s a step h
  simp only [upTo] at h
  cases hsep : sep a with
  | true =>
    rw [hsep, if_pos rfl] at h
    cases h
    rfl
  | false =>
    rw [hsep, if_neg Bool.false_ne_true] at h
    exact handsBack_thenStep h

/-- The first element of the next word is handed back, and nothing else. -/
theorem handsBack_word : (word sep f).HandsBack 1 := by
  rintro ⟨part, s⟩ a step h
  cases hsep : sep a with
  | true =>
    cases part with
    | before | inside | behind =>
      simp only [word, hsep] at h
      cases h
      rfl
  | false =>
    cases part with
    | before | inside =>
      simp only [word, hsep] at h
      exact handsBack_thenStep h
    | behind =>
      simp only [word, hsep] at h
      cases h
      rfl

end Parser

namespace Text

variable {σ : Type u} {τ : Type v} {β : Type w} [FinitePull σ Char]

/-! ## Lines -/

namespace Lines

variable {f : Fold Char τ β} {l t : Lines σ τ β} {s : Source σ Char}

theorem exists_step_of_next {answer : Option (Except ParseError β)} {r : Repetition σ Char τ β}
    (h : l.groups.next = some (answer, r)) : ∃ u, l.step = (answer, u) ∧ u.groups = r := by
  obtain ⟨hanswer, hgroups⟩ := Prod.mk.inj (Option.some.inj (l.groups_next.symm.trans h))
  exact ⟨l.step.2, Prod.ext hanswer rfl, hgroups⟩

/-- A line is drawn by a run up to the next newline. -/
theorem draws_pull {b : β} (hl : l.groups = .start (.upTo isNewline f) s)
    (h : Pull.pull l = (some b, t)) :
    ∃ q, t.groups = .start (.upTo isNewline f) q ∧
      s.Draws (min (((Pull.elements s).takeWhile (!isNewline ·)).length + 1)
        (Pull.elements s).length) 0 q := by
  have hforward := Parser.upTo_forward isNewline f
  have hround := (Parser.scans_upTo isNewline f).roundFrom f.start (Pull.elements s)
  have hnone : ∀ r, (Repetition.start (.upTo isNewline f) s).next ≠ some (none, r) := by
    intro r hr
    rw [← hl] at hr
    obtain ⟨u, hu, -⟩ := exists_step_of_next hr
    cases h.symm.trans (pull_of_step_none hu)
  by_cases hne : Pull.elements s = []
  · obtain ⟨q, hq⟩ := Repetition.exists_next_of_nil (.upTo isNewline f) hne
    exact absurd hq (hnone _)
  · cases hrun : f.stepAll f.start ((Pull.elements s).takeWhile (!isNewline ·)) with
    | error e =>
      rw [hrun] at hround
      obtain ⟨q, hq, -⟩ := hforward.next_of_broken_round hne hround
      exact absurd hq (hnone _)
    | ok last =>
      rw [hrun] at hround
      have hpos := List.length_pos_iff.mpr hne
      obtain ⟨q, hq, hdraws⟩ := hforward.draws_next (Nat.zero_le 1)
        (Parser.handsBack_upTo isNewline f) hround hne
        ⟨⟨_, rfl⟩, Nat.lt_min.mpr ⟨Nat.succ_pos _, hpos⟩⟩
      rw [← hl] at hq
      obtain ⟨u, hu, hgroups⟩ := exists_step_of_next hq
      cases h.symm.trans (pull_of_step_ok hu)
      exact ⟨q, hgroups, hdraws⟩

theorem draws_take {k : Nat} (hl : l.groups = .start (.upTo isNewline f) s)
    (hk : k ≤ (Pull.elements l).length) :
    ∃ q, (Pull.take k l).2.groups = .start (.upTo isNewline f) q ∧
      s.Draws (splitEnd isNewline (Pull.elements s) k) 0 q := by
  refine Pull.take_induct (motive := fun k l u => ∀ s, l.groups = .start (.upTo isNewline f) s →
    ∃ q, u.groups = .start (.upTo isNewline f) q ∧
      s.Draws (splitEnd isNewline (Pull.elements s) k) 0 q) ?zero ?succ hk s hl
  case zero =>
    intro l s hl
    exact ⟨s, hl, .refl s⟩
  case succ =>
    intro k l t u b hpull ih s hl
    obtain ⟨q, ht, hdraws⟩ := draws_pull hl hpull
    obtain ⟨r, hr, hrest⟩ := ih q ht
    have hboth := hdraws.trans hrest (Nat.zero_le _)
    rw [hdraws.elements_eq, ← splitEnd_succ] at hboth
    exact ⟨r, hr, hboth⟩

end Lines

/-! ## Words -/

namespace Words

variable {s t : Words σ τ β}

/-- A word is drawn by looking for it and reading it, as far as the next one. -/
theorem draws_pull {b : β} (hs : s.fault = none) (h : Pull.pull s = (some b, t)) :
    t.fault = none ∧
      s.source.Draws (wordEnd isSpace (Pull.elements s.source)) 1 t.source := by
  by_cases hne : (Pull.elements s.source).dropWhile isSpace = []
  · obtain ⟨u, hpull, -⟩ := pull_of_nil hs hne
    cases h.symm.trans hpull
  · cases hrun : s.fold.run
        (((Pull.elements s.source).dropWhile isSpace).takeWhile (!isSpace ·)) with
    | error e =>
      obtain ⟨u, hpull, -⟩ := pull_of_run_error hs hne hrun
      cases h.symm.trans hpull
    | ok c =>
      obtain ⟨u, hparse, hpull, -⟩ := pull_of_run hs hne hrun
      cases h.symm.trans hpull
      refine ⟨hs, ?_⟩
      have hround := s.round_ahead
      rw [hrun] at hround
      obtain ⟨q, hq, hread⟩ := (Parser.word_forward isSpace s.fold).draws_parse (Nat.le_refl 1)
        (Parser.handsBack_word isSpace s.fold) hround
      cases hparse.symm.trans hq
      have hahead := (Source.draws_dropWhile isSpace s.source).trans
        (Source.draws_atEnd (Prod.eta _).symm) (Nat.le_refl 1)
      have hboth := hahead.trans hread (Nat.le_add_left 1 _)
      rwa [Nat.add_zero, elements_ahead, ← wordEnd_dropWhile] at hboth

theorem draws_take {k : Nat} (hs : s.fault = none) (hpos : 0 < k)
    (hk : k ≤ (Pull.elements s).length) :
    s.source.Draws (runStart isSpace (Pull.elements s.source) k) 1 (Pull.take k s).2.source := by
  refine (Pull.take_induct (motive := fun k s u => (k = 0 → u = s) ∧ (s.fault = none → 0 < k →
    s.source.Draws (runStart isSpace (Pull.elements s.source) k) 1 u.source))
    ?zero ?succ hk).2 hs hpos
  case zero =>
    intro s
    exact ⟨fun _ => rfl, fun _ hpos => absurd hpos (Nat.lt_irrefl 0)⟩
  case succ =>
    intro k s t u b hpull ih
    refine ⟨fun hzero => absurd hzero (Nat.succ_ne_zero k), fun hs _ => ?_⟩
    obtain ⟨ht, hdraws⟩ := draws_pull hs hpull
    rw [runStart_succ]
    rcases Nat.eq_zero_or_pos k with rfl | hpos
    · -- Behind the last word the source stands at the next one already.
      rw [ih.1 rfl, runStart_zero fun a => not_sep_of_head?_drop, Nat.add_zero]
      exact hdraws
    · have hrest := ih.2 ht hpos
      rw [hdraws.elements_eq] at hrest
      exact hdraws.trans hrest (Nat.le_add_left 1 _)

end Words

end Text

/-- **Text is read no further than needed.** When `k` lines of a text have been drawn, the text has
been read up to the place behind the newline that ends the last of them, or to its end if there is
no such newline. When `k` words have been drawn, it has been read up to the place behind the first
character of the next word, or to its end if there is no next word. When nothing has been drawn,
nothing has been read. -/
theorem text_is_read_as_needed {τ : Type v} {β : Type w} (f : Fold Char τ β) (text : List Char)
    (k : Nat) :
    (k ≤ (Pull.elements (Text.Lines.start f (Supply.ofList text))).length →
      (Pull.take k (Text.Lines.start f (Supply.ofList text))).2.groups.source.input.inner.given =
        splitEnd Text.isNewline text k) ∧
    (k ≤ (Pull.elements (Text.Words.start f (Supply.ofList text))).length →
      (Pull.take k (Text.Words.start f (Supply.ofList text))).2.source.input.inner.given =
        if k = 0 then 0 else min (runStart Text.isSpace text k + 1) text.length) := by
  refine ⟨?_, ?_⟩
  · intro hk
    obtain ⟨q, hq, hdraws⟩ := Text.Lines.draws_take (s := .ofInput (Supply.ofList text)) rfl hk
    have hle := hdraws.le_length
    rw [Source.elements_ofInput_ofList] at hdraws hle
    have hgiven := hdraws.given_eq
    rw [Nat.add_zero, Nat.min_eq_left hle] at hgiven
    rw [hq]
    exact hgiven
  · intro hk
    cases k with
    | zero => rfl
    | succ k =>
      have hdraws := Text.Words.draws_take (s := .start f (Supply.ofList text)) rfl
        (Nat.succ_pos k) hk
      rw [if_neg (Nat.succ_ne_zero k)]
      rw [Text.Words.start, Source.elements_ofInput_ofList] at hdraws
      exact hdraws.given_eq

/-- Two lines end behind the second newline, and two words at the first character of the third. -/
theorem text_is_read_as_needed_two :
    let text := [' ', 'a', '\n', '\n', 'b', ' ', 'c', '\n']
    let lines := Text.Lines.start .length (Supply.ofList text)
    let words := Text.Words.start .length (Supply.ofList text)
    2 ≤ (Pull.elements lines).length ∧
      (Pull.take 2 lines).2.groups.source.input.inner.given = 4 ∧
      2 ≤ (Pull.elements words).length ∧
      (Pull.take 2 words).2.source.input.inner.given = 7 := by
  intro text lines words
  have hlines : Pull.elements lines = [2, 0, 3] := by
    have htotal : (Fold.length : Fold Char Nat Nat).Total :=
      Fold.ofFn_total 0 (fun n _ => n + 1) id
    have helems := Text.Lines.elements_start htotal (Supply.ofList text)
    rw [Supply.elements_ofList] at helems
    exact helems
  have hwords : Pull.elements words = [1, 1, 1] := by
    have helems := Text.Words.collect_start .length (Supply.ofList text)
    rw [Supply.elements_ofList] at helems
    exact congrArg Prod.fst helems
  have htwo : 2 ≤ (Pull.elements lines).length := by
    rw [hlines]
    decide
  have htwo' : 2 ≤ (Pull.elements words).length := by
    rw [hwords]
    decide
  obtain ⟨hread, hread'⟩ := text_is_read_as_needed .length text 2
  exact ⟨htwo, hread htwo, htwo', hread' htwo'⟩

end Streaming
