import Streaming.Parser.Forward
import Streaming.Supply
import Streaming.Text.Space

/-!
# Words

A word is a run of characters that are no white space, as long as it can be. No word is empty.
-/

namespace Streaming.Text

universe u v w

/-- The words of a stream of characters, each of them folded. -/
structure Words (σ : Type u) (τ : Type v) (β : Type w) where
  source : Source σ Char
  fold : Fold Char τ β
  /-- The fault that broke a word off, if one did. -/
  fault : Option Fault := none

namespace Words

variable {σ : Type u} {τ : Type v} {β : Type w}

/-- The words of a stream of characters. -/
def start (fold : Fold Char τ β) (chars : σ) : Words σ τ β where
  source := .ofInput chars
  fold

variable [FinitePull σ Char]

/-- Reads a word from a source. -/
def read (s : Words σ τ β) (source : Source σ Char) : Option β × Words σ τ β :=
  match source.parseForward (.word isSpace s.fold) (Parser.word_forward isSpace s.fold) with
  | (.ok (.ok b), source) => (some b, { s with source })
  | (.ok (.error _), source) => (none, { s with source })
  | (.error f, source) => (none, { s with source, fault := some f })

/-- The next word. -/
def next (s : Words σ τ β) : Option β × Words σ τ β :=
  if s.fault.isSome then (none, s)
  else
    match (s.source.dropWhile isSpace).2.atEnd with
    | (true, source) => (none, { s with source })
    | (false, source) => s.read source

theorem left_next_lt {s t : Words σ τ β} {b : β} (h : s.next = (some b, t)) :
    t.source.left < s.source.left := by
  unfold next at h
  split at h
  · simp at h
  · split at h
    · simp at h
    · rename_i source he
      have hd := Source.left_dropWhile_le isSpace s.source
      obtain ⟨a, r, hf, hle⟩ := Source.fetch_of_not_atEnd he
      have hw := Parser.word_forward isSpace s.fold
      have hlt := hw.left_parse_lt (Source.parse_eq_parseForward hw source) hf rfl
        fun step hs => Parser.back_word_before hs
      unfold read at h
      split at h
      · rename_i b r hp
        simp only [Prod.mk.injEq] at h
        rw [hp] at hlt
        rw [← h.2]
        simp only at hlt ⊢
        omega
      · simp at h
      · simp at h

instance : FinitePull (Words σ τ β) β where
  pull := next
  left s := s.source.left
  left_lt := left_next_lt

instance : HasFault (Words σ τ β) := ⟨Words.fault⟩

end Words

/-- The words of a text. -/
def words (text : List Char) : List String :=
  Pull.elements (Words.start .toText (Supply.ofList text))

end Streaming.Text
