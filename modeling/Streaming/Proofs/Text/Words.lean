import Mathlib.Data.List.DropRight
import Streaming.Proofs.Parser.Runs
import Streaming.Text.Words

/-!
# Words of text

The words of a stream of characters are its runs between white space, each of them folded
(`Words.collect_start`). So a stream has the words that repeating a word parser on it gives, unless
there is nothing but white space: then the parser makes one word of it, an empty one, and the stream
has none (`words_are_runs`).
-/

namespace Streaming

universe u v w x y

namespace Text.Words

variable {σ : Type u} {τ : Type v} {β : Type w} [FinitePull σ Char] {s : Words σ τ β}

/-! ## One request -/

/-- The source once the next word has been looked for. -/
def ahead (s : Words σ τ β) : Source σ Char := (s.source.dropWhile isSpace).2.atEnd.2

theorem elements_ahead (s : Words σ τ β) :
    Pull.elements s.ahead = (Pull.elements s.source).dropWhile isSpace := by
  obtain ⟨-, hsame⟩ := Source.indistinct_atEnd
    (Prod.eta (s.source.dropWhile isSpace).2.atEnd).symm
  rw [ahead, hsame.elements_eq, Source.elements_dropWhile]

/-- The space in front of the next word is dropped, and then it shows whether there is a word. -/
theorem next_eq (hs : s.fault = none) :
    Pull.pull s =
      if (Pull.elements s.ahead).isEmpty then (none, { s with source := s.ahead })
      else s.read s.ahead := by
  cases he : (s.source.dropWhile isSpace).2.atEnd with
  | mk ended source =>
    have hahead : s.ahead = source := congrArg Prod.snd he
    obtain ⟨hend, hsame⟩ := Source.indistinct_atEnd he
    rw [← hsame.elements_eq, ← List.isEmpty_iff, ← Bool.eq_iff_iff] at hend
    rw [hahead, ← hend]
    change s.next = _
    simp only [next, hs, he]
    cases ended <;> rfl

theorem pull_of_nil (hs : s.fault = none)
    (h : (Pull.elements s.source).dropWhile isSpace = []) :
    ∃ t, Pull.pull s = (none, t) ∧ t.fault = none := by
  have hpull := next_eq hs
  rw [elements_ahead, h] at hpull
  exact ⟨_, hpull, hs⟩

/-- The parser's round where the next word is read. -/
theorem round_ahead (s : Words σ τ β) :
    (Parser.word isSpace s.fold).round
        (Pull.elements s.ahead) =
      (s.fold.run (((Pull.elements s.source).dropWhile isSpace).takeWhile (!isSpace ·))).map
        (fun b => ⟨.ok b, wordEnd isSpace (Pull.elements s.ahead)⟩) := by
  rw [Parser.round_word, elements_ahead, List.dropWhile_idempotent]

theorem drop_wordEnd_ahead (s : Words σ τ β) :
    (Pull.elements s.ahead).drop (wordEnd isSpace (Pull.elements s.ahead)) =
      (Pull.elements s.source).drop (wordEnd isSpace (Pull.elements s.source)) := by
  rw [drop_wordEnd, drop_wordEnd, elements_ahead, List.dropWhile_idempotent]

section Word

variable (hs : s.fault = none) (h : (Pull.elements s.source).dropWhile isSpace ≠ [])

include hs h

/-- If there is a word, it is read. -/
theorem pull_of_ne_nil : Pull.pull s = s.read s.ahead := by
  rw [next_eq hs, if_neg]
  rwa [List.isEmpty_iff, elements_ahead]

/-- The next word is what the fold makes of the next run. -/
theorem pull_of_run {b : β}
    (hrun : s.fold.run (((Pull.elements s.source).dropWhile isSpace).takeWhile (!isSpace ·)) =
      .ok b) :
    ∃ t, s.ahead.parse (.word isSpace s.fold) = some (.ok (.ok b), t) ∧
      Pull.pull s = (some b, { s with source := t }) ∧
      Pull.elements t =
        (Pull.elements s.source).drop (wordEnd isSpace (Pull.elements s.source)) := by
  have hround := s.round_ahead
  rw [hrun] at hround
  have hw := Parser.word_forward isSpace s.fold
  obtain ⟨t, hparse, -, hleft⟩ := hw.parse_of_round hround
  refine ⟨t, hparse, ?_, hleft.trans s.drop_wordEnd_ahead⟩
  rw [Source.parse_eq_parseForward hw] at hparse
  rw [pull_of_ne_nil hs h, read, Option.some.inj hparse]

theorem pull_of_run_error {e : Fault}
    (hrun : s.fold.run (((Pull.elements s.source).dropWhile isSpace).takeWhile (!isSpace ·)) =
      .error e) :
    ∃ t, Pull.pull s = (none, t) ∧ t.fault = some e := by
  have hround := s.round_ahead
  rw [hrun] at hround
  have hw := Parser.word_forward isSpace s.fold
  obtain ⟨t, hparse⟩ := hw.parse_of_round_error hround
  rw [Source.parse_eq_parseForward hw] at hparse
  refine ⟨{ s with source := t, fault := some e }, ?_, rfl⟩
  rw [pull_of_ne_nil hs h, read, Option.some.inj hparse]

end Word

/-! ## All requests -/

/-- The words are the runs between white space, folded one by one. -/
theorem collect_eq (hs : s.fault = none) :
    ((Pull.collect s).1, (Pull.collect s).2.fault) =
      s.fold.runAll (runs isSpace (Pull.elements s.source)) := by
  induction hn : (Pull.elements s.source).length using Nat.strongRecOn generalizing s with
  | _ n ih =>
    subst hn
    by_cases h : (Pull.elements s.source).dropWhile isSpace = []
    · obtain ⟨t, hpull, hfault⟩ := pull_of_nil hs h
      rw [Pull.collect_of_none hpull, runs_eq_nil h]
      exact Prod.ext rfl hfault
    · rw [runs_eq_cons h]
      cases hrun : s.fold.run (((Pull.elements s.source).dropWhile isSpace).takeWhile
          (!isSpace ·)) with
      | error e =>
        obtain ⟨t, hpull, hfault⟩ := pull_of_run_error hs h hrun
        rw [Pull.collect_of_none hpull, Fold.runAll_cons_of_error hrun, hfault]
      | ok b =>
        obtain ⟨t, -, hpull, helems⟩ := pull_of_run hs h hrun
        have hne : Pull.elements s.source ≠ [] := by
          intro hnil
          rw [hnil] at h
          exact h rfl
        have hlt : (Pull.elements t).length < (Pull.elements s.source).length := by
          have hpos := List.length_pos_iff.mpr hne
          have hused : 0 < wordEnd isSpace (Pull.elements s.source) := wordEnd_pos hne
          rw [helems, List.length_drop]
          omega
        have hrest := ih _ hlt (s := { s with source := t }) hs rfl
        rw [Pull.collect_of_some hpull, Fold.runAll_cons_of_ok hrun, ← helems, ← hrest]

theorem collect_start (f : Fold Char τ β) (chars : σ) :
    (Pull.elements (start f chars), (Pull.collect (start f chars)).2.fault) =
      f.runAll (runs isSpace (Pull.elements chars)) := by
  have hcollect := collect_eq (s := start f chars) rfl
  rwa [start, Source.elements_ofInput] at hcollect

end Text.Words

/-- **Words are runs.** Repeating a parser that collects words on a source gives the runs of what
the source reads, none of them empty, and one empty group if there are only separators; after each
answer the source is at the beginning of the next run, or at its end. The words of a stream of
characters are the runs between white space, each of them folded. Repeating a word parser with the
same fold gives the same, unless there is only white space; then there are no words. -/
theorem words_are_runs {α : Type u} {ρ : Type v} [FinitePull ρ α] (sep : α → Bool) (s : Source ρ α)
    {σ : Type w} {τ : Type x} {β : Type y} [FinitePull σ Char] (f : Fold Char τ β) (chars : σ) :
    ((∀ run ∈ runs sep (Pull.elements s), run ≠ []) ∧
      ∀ n, ∃ t, (Repetition.start (.word sep .toList) s).answers n =
          some (Pull.served n ((wordGroups sep (Pull.elements s)).map .ok), t) ∧ t.fault = none ∧
        (0 < n → n ≤ (wordGroups sep (Pull.elements s)).length →
          t.source.offset = s.offset + runStart sep (Pull.elements s) n)) ∧
    ((Pull.elements (Text.Words.start f chars),
        (Pull.collect (Text.Words.start f chars)).2.fault) =
        f.runAll (runs Text.isSpace (Pull.elements chars)) ∧
      ∃ words t, (Repetition.start (.word Text.isSpace f) (.ofInput chars)).collect =
          some (words.map .ok, t) ∧
        (Pull.elements (Text.Words.start f chars),
          (Pull.collect (Text.Words.start f chars)).2.fault) =
          if isBlank Text.isSpace (Pull.elements chars) then ([], none) else (words, t.fault)) := by
  refine ⟨⟨fun run => ne_nil_of_mem_runs, Parser.answers_word_toList sep s⟩, ?_, ?_⟩
  · exact Text.Words.collect_start f chars
  · obtain ⟨t, hcollect, hfault⟩ :=
      Parser.collect_word Text.isSpace f (Source.ofInput chars : Source σ Char)
    rw [Source.elements_ofInput] at hcollect hfault
    refine ⟨_, t, hcollect, ?_⟩
    rw [Text.Words.collect_start, hfault]
    by_cases h : isBlank Text.isSpace (Pull.elements chars) = true
    · rw [if_pos h, runs_eq_nil (isBlank_iff.mp h).2]
      rfl
    · rw [if_neg h, wordGroups, if_neg h]

/-- Two words with separators around them. -/
theorem words_are_runs_twoWords :
    let s : Source (Supply Nat) Nat := .ofInput (.ofList [0, 3, 0, 0, 5, 6])
    (∃ t, (Repetition.start (.word (· == 0) .toList) s).answers 1 = some ([some (.ok [3])], t) ∧
        t.source.offset = 4) ∧
      (∃ t, (Repetition.start (.word (· == 0) .toList) s).answers 3 =
        some ([some (.ok [3]), some (.ok [5, 6]), none], t)) ∧
      Pull.elements (Text.Words.start .toText (Supply.ofList ['\n', 'a', 'b', ' ', 'c'])) =
        ["ab", "c"] := by
  intro s
  have hs : Pull.elements s = [0, 3, 0, 0, 5, 6] :=
    (Source.elements_ofInput _).trans (Supply.elements_ofList _)
  obtain ⟨⟨-, hanswers⟩, hwords, -⟩ := words_are_runs (· == 0) s .toText
    (Supply.ofList ['\n', 'a', 'b', ' ', 'c'])
  rw [hs] at hanswers
  rw [Supply.elements_ofList] at hwords
  obtain ⟨t, hone, -, hoff⟩ := hanswers 1
  obtain ⟨u, hthree, -⟩ := hanswers 3
  refine ⟨⟨t, hone, ?_⟩, ⟨u, hthree⟩, congrArg Prod.fst hwords⟩
  exact hoff (by decide) (by decide)

end Streaming
