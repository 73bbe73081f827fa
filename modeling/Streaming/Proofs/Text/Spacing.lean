import Streaming.Proofs.Text.Joined
import Streaming.Proofs.Text.Words

/-!
# Words joined again

Splitting at a white space character and joining words with spaces are matters of one equation: a
separator belongs to no run, and no run goes over it (`runs_append_of_sep`). Hence joining the words
of a text puts one space behind each of its runs in place of what stood around them, strings that
could be words lose nothing by being joined, and joining the words of a text for a second time
changes nothing (`words_and_joined_words`).
-/

namespace Streaming.Text

universe u v

section ToText

variable {σ : Type u} [FinitePull σ Char]

/-- The words of a text, as strings. -/
theorem elements_words_toText (chars : σ) :
    Pull.elements (Words.start .toText chars) =
      (runs isSpace (Pull.elements chars)).map String.ofList := by
  have hcollect := Words.collect_start Fold.toText chars
  rw [toText_total.runAll_eq] at hcollect
  refine (congrArg Prod.fst hcollect).trans ?_
  apply List.map_congr_left
  intro word _
  exact output_toText word

theorem words_eq (text : List Char) : words text = (runs isSpace text).map String.ofList := by
  rw [words, elements_words_toText, Supply.elements_ofList]

/-- Each word and a space. -/
theorem elements_ofWords {ρ : Type v} [FinitePull ρ String] (strings : ρ) :
    Pull.elements (Joined.ofWords strings) =
      ((Pull.elements strings).map String.toList).flatMap (· ++ [' ']) := by
  rw [Joined.elements_eq rfl, List.flatMap_map]
  rfl

theorem elements_ofWords_words (chars : σ) :
    Pull.elements (Joined.ofWords (Words.start .toText chars)) =
      (runs isSpace (Pull.elements chars)).flatMap (· ++ [' ']) := by
  rw [elements_ofWords, elements_words_toText, map_toList_map_ofList]

end ToText

/-- What is a word on its own: it is not empty, and no character in it is white space. -/
def IsWord (word : String) : Prop := word ≠ "" ∧ ∀ c ∈ word.toList, isSpace c = false

theorem isWord_iff {word : String} :
    IsWord word ↔ word ≠ "" ∧ word.toList.all (!isSpace ·) = true := by
  simp only [IsWord, List.all_eq_true, Bool.not_eq_true']

instance : DecidablePred IsWord := fun _ => decidable_of_iff _ isWord_iff.symm

/-- **Words and joined words.** Strings that are words are the words of their joined characters. The
words of a text, joined, are its longest pieces without white space and a space behind each of them;
doing this twice gives what doing it once does. The words of a text that is cut at a white space
character are those of its two parts. The places in the joined strings are boundaries between
characters. -/
theorem words_and_joined_words {σ : Type u} [FinitePull σ Char] (chars : σ) {ρ : Type v}
    [FinitePull ρ String] (strings : ρ) (front behind : List Char) (space : Char) :
    let joined := Joined.ofWords (Words.start .toText chars)
    ((∀ word ∈ Pull.elements strings, IsWord word) →
        Pull.elements (Words.start .toText (Joined.ofWords strings)) = Pull.elements strings) ∧
      Pull.elements joined = (runs isSpace (Pull.elements chars)).flatMap (· ++ [' ']) ∧
      Pull.elements (Joined.ofWords (Words.start .toText joined)) = Pull.elements joined ∧
      (isSpace space = true →
        words (front ++ [space] ++ behind) = words front ++ words behind) ∧
      ∀ n, ∃ place, (Positioned.ofWords strings).answers? n =
        some ((Pull.answers n (Joined.ofWords strings)).1, place) := by
  intro joined
  refine ⟨?separated, elements_ofWords_words chars, ?again, ?cut, ?places⟩
  case separated =>
    intro hwords
    have hgroups : ∀ group ∈ (Pull.elements strings).map String.toList,
        group ≠ [] ∧ ∀ c ∈ group, isSpace c = false := by
      intro group hgroup
      obtain ⟨word, hword, rfl⟩ := List.mem_map.mp hgroup
      obtain ⟨hne, hspace⟩ := hwords word hword
      refine ⟨?_, hspace⟩
      intro hnil
      exact hne (String.toList_eq_nil_iff.mp hnil)
    rw [elements_words_toText, elements_ofWords, runs_joined rfl hgroups, map_ofList_map_toList]
  case again =>
    have hgroups : ∀ run ∈ runs isSpace (Pull.elements chars),
        run ≠ [] ∧ ∀ c ∈ run, isSpace c = false := by
      intro run hrun
      exact ⟨ne_nil_of_mem_runs hrun, fun c hc => not_sep_of_mem_runs hrun hc⟩
    rw [elements_ofWords_words, elements_ofWords_words, runs_joined rfl hgroups]
  case cut =>
    intro hspace
    rw [words_eq, words_eq, words_eq, List.append_assoc, List.singleton_append,
      runs_append_of_sep hspace, List.map_append]
  case places =>
    intro n
    obtain ⟨place, hanswers, -⟩ := (Positioned.Stands.idle strings 0 ' ').exists_answers n
    exact ⟨place, hanswers⟩

/-- Words with other white space than spaces around them, and more of it than they need. -/
theorem words_and_joined_words_mixedSpace :
    let strings := Supply.ofList ["a", "éb"]
    let chars := Supply.ofList ['\t', 'a', '\u3000', ' ', 'b', 'c', '\n']
    (∀ word ∈ Pull.elements strings, IsWord word) ∧
      Pull.elements (Words.start .toText (Joined.ofWords strings)) = ["a", "éb"] ∧
      Pull.elements (Joined.ofWords (Words.start .toText chars)) = ['a', ' ', 'b', 'c', ' '] ∧
      isSpace '\u00A0' = true ∧
      words ['a', '\u00A0', ' ', 'b'] = words ['a'] ++ words [' ', 'b'] := by
  intro strings chars
  have hstrings : Pull.elements strings = ["a", "éb"] := Supply.elements_ofList _
  have hchars : Pull.elements chars = ['\t', 'a', '\u3000', ' ', 'b', 'c', '\n'] :=
    Supply.elements_ofList _
  have hwords : ∀ word ∈ Pull.elements strings, IsWord word := by
    rw [hstrings]
    decide
  have hspace : isSpace '\u00A0' = true := by decide
  obtain ⟨hseparated, hjoined, -, hcut, -⟩ :=
    words_and_joined_words chars strings ['a'] [' ', 'b'] '\u00A0'
  refine ⟨hwords, (hseparated hwords).trans hstrings, ?_, hspace, hcut hspace⟩
  rw [hjoined, hchars]
  decide

end Streaming.Text
