import Streaming.ChunkReader
import Streaming.Proofs.Spread
import Streaming.Proofs.Text.Joined
import Streaming.Proofs.Utf8.Buffered

/-!
# Adapters of an input that pauses

Encoding characters, reading chunks and joining strings all replace each element of their input by
those that it stands for, and pass on each empty answer. They ask for no more than the answers
wanted need (`pauses_are_passed_on`): each of them gives what it holds first, and asks when it holds
nothing, also where a chunk that is used up is still held.
-/

namespace Streaming

universe u v

namespace Utf8.Encoding

variable {σ : Type u} [FinitePull σ Char]

/-- The encoding holds the bytes that it has buffered. -/
theorem spreads :
    Spreads (fun (t : Encoding σ) s bytes => t = ⟨s, bytes⟩) encode where
  held := by
    rintro _ s b rest rfl
    exact ⟨⟨s, rest⟩, rfl, rfl⟩
  asked_none := by
    rintro _ s s' rfl hs
    exact ⟨⟨s', []⟩, pull_of_chars_none hs, rfl⟩
  asked_some := by
    rintro _ s s' c rfl hs
    obtain ⟨b, bytes, hc, hp⟩ := pull_of_chars_some hs
    refine ⟨⟨s', encode c⟩, ?_, rfl⟩
    rw [hp, hc]
    rfl

end Utf8.Encoding

namespace ChunkReader

variable {σ : Type u} {α : Type v}

theorem lookup_eq_head? (r : ChunkReader σ α) : r.current.bind (·[r.index]?) = r.unread.head? := by
  cases h : r.current.bind (·[r.index]?) with
  | none => rw [unread_of_none h, List.head?_nil]
  | some a => rw [unread_of_some h, List.head?_cons]

variable [FinitePull σ (List α)] {r : ChunkReader σ α}

theorem pull_of_unread {a : α} {rest : List α} (h : r.unread = a :: rest) :
    Pull.pull r = (some a, { r with index := r.index + 1 }) ∧
      ({ r with index := r.index + 1 } : ChunkReader σ α).unread = rest := by
  have hlookup := lookup_eq_head? r
  rw [h, List.head?_cons] at hlookup
  refine ⟨?_, ?_⟩
  · show next r = _
    rw [next, hlookup]
  · rw [unread_of_some hlookup] at h
    exact List.tail_eq_of_cons_eq h

theorem pull_of_chunks_none (h : r.unread = []) {chunks : σ}
    (hp : Pull.pull r.chunks = (none, chunks)) : Pull.pull r = (none, { r with chunks }) := by
  have hlookup := lookup_eq_head? r
  rw [h, List.head?_nil] at hlookup
  show next r = _
  rw [next, hlookup]
  simp only
  split <;> simp_all

theorem pull_of_chunks_some (h : r.unread = []) {chunks : σ} {chunk : List α}
    (hp : Pull.pull r.chunks = (some chunk, chunks)) :
    Pull.pull r = Pull.pull (⟨chunks, some chunk, 0⟩ : ChunkReader σ α) := by
  have hlookup := lookup_eq_head? r
  rw [h, List.head?_nil] at hlookup
  show next r = next _
  rw [next, hlookup]
  simp only
  split <;> simp_all

/-- The reader holds what is unread of its chunk. -/
theorem spreads :
    Spreads (fun (r : ChunkReader σ α) s unread => r.chunks = s ∧ r.unread = unread) id where
  held := by
    rintro r _ a rest ⟨rfl, hr⟩
    obtain ⟨hpull, hrest⟩ := pull_of_unread hr
    exact ⟨_, hpull, rfl, hrest⟩
  asked_none := by
    rintro r _ chunks ⟨rfl, hr⟩ hp
    exact ⟨_, pull_of_chunks_none hr hp, rfl, hr⟩
  asked_some := by
    rintro r _ chunks chunk ⟨rfl, hr⟩ hp
    exact ⟨_, pull_of_chunks_some hr hp, rfl, rfl⟩

end ChunkReader

namespace Text

/-- The characters that a string stands for. -/
def suffixed (suffix : Char) (text : String) : List Char := text.toList ++ [suffix]

namespace Joined

variable {σ : Type u} [FinitePull σ String]

/-- The characters that are left of the current string, and its suffix. -/
def held (s : Joined σ) : List Char := s.current.elim [] (· ++ [s.suffix])

theorem spreads (suffix : Char) :
    Spreads (fun (t : Joined σ) s chars => t.strings = s ∧ t.suffix = suffix ∧ t.held = chars)
      (suffixed suffix) where
  held := by
    rintro ⟨strings, current, _⟩ _ c rest ⟨rfl, rfl, ht⟩
    cases current with
    | none => cases ht
    | some chars =>
      cases chars with
      | nil =>
        cases ht
        exact ⟨_, pull_of_nil rfl, rfl, rfl, rfl⟩
      | cons d chars =>
        cases ht
        exact ⟨_, pull_of_cons rfl, rfl, rfl, rfl⟩
  asked_none := by
    rintro ⟨strings, current, _⟩ _ others ⟨rfl, rfl, ht⟩ hp
    cases current with
    | none => exact ⟨_, pull_of_strings_none rfl hp, rfl, rfl, rfl⟩
    | some chars => exact absurd ht (by simp [held])
  asked_some := by
    rintro ⟨strings, current, _⟩ _ others text ⟨rfl, rfl, ht⟩ hp
    cases current with
    | none => exact ⟨⟨others, some text.toList, _⟩, pull_eq_of_strings_some rfl hp, rfl, rfl, rfl⟩
    | some chars => exact absurd ht (by simp [held])

end Joined

namespace Positioned

theorem Stands.strings_eq {σ : Type u} {s : Positioned σ} {t : Joined σ} (h : Stands s t) :
    s.strings = t.strings := by
  cases h <;> rfl

end Positioned

end Text

/-- **Pauses are passed on.** The bytes of characters, the elements of chunks, and the characters of
joined lines and words are answered as their supplies answer, each element being replaced by those
that it stands for; and no more is asked for than they need. The places in the buffer of an encoding
and in the strings that are joined never leave these, and nothing is answered twice or lost by
them. -/
theorem pauses_are_passed_on {α : Type u} (n : Nat) (chars : List (Option Char))
    (chunks : List (Option (List α))) (strings : List (Option String)) :
    let encoded := Pull.answers n ({ chars := { answers := chars } } : Utf8.Encoding (Supply Char))
    let read := Pull.answers n
      ({ chunks := { answers := chunks } } : ChunkReader (Supply (List α)) α)
    let lines := Pull.answers n (Text.Joined.ofLines ({ answers := strings } : Supply String))
    let words := Pull.answers n (Text.Joined.ofWords ({ answers := strings } : Supply String))
    LazilySpread Utf8.encode chars n encoded.1 encoded.2.chars.asked ∧
      LazilySpread id chunks n read.1 read.2.chunks.asked ∧
      LazilySpread (Text.suffixed '\n') strings n lines.1 lines.2.strings.asked ∧
      LazilySpread (Text.suffixed ' ') strings n words.1 words.2.strings.asked ∧
      (∃ place, ({ chars := { answers := chars } } : Utf8.Buffered (Supply Char)).answers? n =
        some (encoded.1, place) ∧ place.chars = encoded.2.chars) ∧
      (∃ place, (Text.Positioned.ofLines ({ answers := strings } : Supply String)).answers? n =
        some (lines.1, place) ∧ place.strings = lines.2.strings) ∧
      ∃ place, (Text.Positioned.ofWords ({ answers := strings } : Supply String)).answers? n =
        some (words.1, place) ∧ place.strings = words.2.strings := by
  intro encoded read lines words
  refine ⟨?encoded, ?read, ?lines, ?words, ?buffer, ?inLines, ?inWords⟩
  case encoded => exact Utf8.Encoding.spreads.lazilySpread (congrArg Utf8.Encoding.chars) rfl n
  case read => exact ChunkReader.spreads.lazilySpread And.left ⟨rfl, rfl⟩ n
  case lines => exact (Text.Joined.spreads '\n').lazilySpread And.left ⟨rfl, rfl, rfl⟩ n
  case words => exact (Text.Joined.spreads ' ').lazilySpread And.left ⟨rfl, rfl, rfl⟩ n
  case buffer =>
    obtain ⟨place, hanswers, hplace⟩ :=
      (Utf8.Buffered.Holds.start ({ answers := chars } : Supply Char)).exists_answers n
    exact ⟨place, hanswers, hplace.chars_eq⟩
  case inLines =>
    obtain ⟨place, hanswers, hplace⟩ := (Text.Positioned.Stands.idle
      ({ answers := strings } : Supply String) 0 '\n').exists_answers n
    exact ⟨place, hanswers, hplace.strings_eq⟩
  case inWords =>
    obtain ⟨place, hanswers, hplace⟩ := (Text.Positioned.Stands.idle
      ({ answers := strings } : Supply String) 0 ' ').exists_answers n
    exact ⟨place, hanswers, hplace.strings_eq⟩

end Streaming
