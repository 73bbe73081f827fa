import Streaming.Pull

/-!
# Joined strings

The characters of strings one after the other, each string being followed by a suffix: a newline
for lines, a space for words.
-/

namespace Streaming.Text

universe u

/-- Strings being read character by character. -/
structure Joined (σ : Type u) where
  strings : σ
  /-- What is left of the current string, whose suffix is still to come. -/
  current : Option (List Char) := none
  /-- The character after every string. -/
  suffix : Char
deriving DecidableEq, Repr

namespace Joined

variable {σ : Type u}

/-- The characters of lines, with a newline after each. -/
def ofLines (strings : σ) : Joined σ where
  strings
  suffix := '\n'

/-- The characters of words, with a space after each. -/
def ofWords (strings : σ) : Joined σ where
  strings
  suffix := ' '

/-- The next character of a string that was begun, or its suffix. -/
def within (s : Joined σ) : List Char → Char × Joined σ
  | [] => (s.suffix, { s with current := none })
  | c :: rest => (c, { s with current := some rest })

variable [FinitePull σ String]

/-- The next character, a string being pulled only when none is begun. -/
def next (s : Joined σ) : Option Char × Joined σ :=
  match s.current with
  | some chars =>
    let answer := s.within chars
    (some answer.1, answer.2)
  | none =>
    match Pull.pull s.strings with
    | (none, strings) => (none, { s with strings })
    | (some text, strings) =>
      let answer := { s with strings }.within text.toList
      (some answer.1, answer.2)

/-- The characters of the strings that have not been pulled, with their suffixes. -/
def waiting (s : Joined σ) : List Char :=
  (Pull.elements s.strings).flatMap fun text => text.toList ++ [s.suffix]

/-- The characters to come before the next empty answer. -/
def left (s : Joined σ) : Nat :=
  match s.current with
  | none => s.waiting.length
  | some chars => chars.length + 1 + s.waiting.length

theorem left_within (s : Joined σ) (chars : List Char) :
    (s.within chars).2.left < chars.length + 1 + s.waiting.length := by
  cases chars with
  | nil =>
    show s.waiting.length < 0 + 1 + s.waiting.length
    omega
  | cons c rest =>
    show rest.length + 1 + s.waiting.length < rest.length + 1 + 1 + s.waiting.length
    omega

theorem left_next_lt {s t : Joined σ} {c : Char} (h : s.next = (some c, t)) :
    t.left < s.left := by
  unfold next at h
  split at h
  · rename_i chars hc
    simp only [Prod.mk.injEq] at h
    have := left_within s chars
    rw [h.2] at this
    rw [left.eq_def s, hc]
    exact this
  · rename_i hc
    split at h
    · simp at h
    · rename_i text strings hp
      simp only [Prod.mk.injEq] at h
      have := left_within { s with strings } text.toList
      rw [h.2] at this
      rw [left.eq_def s, hc]
      simp only [waiting, Pull.elements_of_some hp, List.flatMap_cons, List.length_append,
        List.length_singleton] at this ⊢
      exact this

instance : FinitePull (Joined σ) Char where
  pull := next
  left := left
  left_lt := left_next_lt

end Joined

end Streaming.Text
