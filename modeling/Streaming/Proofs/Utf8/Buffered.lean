import Streaming.Proofs.Utf8.RoundTrip
import Streaming.Utf8.Buffered

/-!
# The buffer of an encoding

A place in the buffer of the last character and the number of its bytes that count stand for the
bytes that are left of it (`Buffered.Holds`). The place never leaves the bytes that count, so every
request is answered, and as by an encoding that keeps these bytes (`Buffered.Holds.exists_answers`),
and the hint is the same (`Buffered.Holds.hint?_eq`).
-/

namespace Streaming.Utf8

universe u

/-- The bytes that count are those of the character. -/
theorem take_padded (c : Char) : (padded c).toList.take (encode c).length = encode c := by
  have hle := length_encode_le c
  refine List.ext_getElem (by simp; omega) fun i hi hi' => ?_
  simp [padded, hi']

namespace Buffered

variable {σ : Type u}

/-- The bytes that are left of the last character are those behind the place. -/
structure Holds (s : Buffered σ) (t : Encoding σ) : Prop where
  chars_eq : s.chars = t.chars
  position_le : s.position ≤ s.count
  count_le : s.count ≤ 4
  buffered_eq : t.buffered = (s.buffer.toList.take s.count).drop s.position

namespace Holds

theorem start (chars : σ) : Holds { chars } { chars } :=
  ⟨rfl, Nat.le_refl _, Nat.zero_le _, rfl⟩

theorem fresh (chars : σ) (c : Char) :
    Holds ⟨chars, padded c, 0, (encode c).length⟩ ⟨chars, encode c⟩ :=
  ⟨rfl, Nat.zero_le _, length_encode_le c, (take_padded c).symm⟩

variable {s : Buffered σ} {t : Encoding σ} (h : Holds s t)

include h

theorem length_buffered : t.buffered.length = s.count - s.position := by
  have hcount : s.count ≤ s.buffer.toList.length := by simpa using h.count_le
  rw [h.buffered_eq, List.length_drop, List.length_take, Nat.min_eq_left hcount]

theorem exists_give {b : UInt8} {bs : List UInt8} (hb : t.buffered = b :: bs) :
    ∃ u, s.give? = some (some b, u) ∧ Holds u ⟨t.chars, bs⟩ := by
  have hlen := h.length_buffered
  have hbytes := h.buffered_eq
  rw [hb, List.length_cons] at hlen
  have hlt : s.position < s.count := by omega
  have hfour : s.position < 4 := Nat.lt_of_lt_of_le hlt h.count_le
  have hget : s.buffer[s.position]? = some b := by
    have hfirst := congrArg List.head? hbytes
    rw [hb, List.head?_drop, List.getElem?_take_of_lt hlt, List.head?_cons] at hfirst
    simpa using hfirst.symm
  refine ⟨{ s with position := s.position + 1 }, ?_, h.chars_eq, hlt, h.count_le, ?_⟩
  · rw [give?, hget]
    rfl
  · have hrest := congrArg List.tail hbytes
    rwa [hb, List.tail_cons, List.tail_drop] at hrest

theorem hint?_eq [HasHint σ] [FinitePull σ Char] : s.hint? = some (hint t) := by
  have hhint : hint t = ((hint t.chars).widen 4).plus t.buffered.length := rfl
  rw [hint?, if_pos h.position_le, hhint, h.length_buffered, h.chars_eq]

variable [FinitePull σ Char]

theorem exists_next : ∃ u, s.next? = some ((Pull.pull t).1, u) ∧ Holds u (Pull.pull t).2 := by
  have hlen := h.length_buffered
  obtain ⟨chars, buffered⟩ := t
  cases buffered with
  | cons b bs =>
    rw [List.length_cons] at hlen
    rw [next?, if_neg (by omega)]
    exact h.exists_give rfl
  | nil =>
    rw [List.length_nil] at hlen
    have hle := h.position_le
    rw [next?, if_pos (by omega), h.chars_eq]
    cases hp : Pull.pull chars with
    | mk answer others =>
      cases answer with
      | none =>
        rw [Encoding.pull_of_chars_none hp]
        exact ⟨_, rfl, rfl, h.position_le, h.count_le, h.buffered_eq⟩
      | some c =>
        obtain ⟨b, bs, hc, hpull⟩ := Encoding.pull_of_chars_some hp
        rw [hpull]
        exact (fresh others c).exists_give hc

theorem exists_answers (n : Nat) :
    ∃ u, s.answers? n = some ((Pull.answers n t).1, u) ∧ Holds u (Pull.answers n t).2 :=
  Pull.exists_answers_of_exists_next (fun _ => rfl) (fun _ _ => rfl) (fun h => h.exists_next) h n

end Holds

/-- A pause between two characters, of which the first takes two bytes. -/
example :
    let paused : Supply Char := { answers := [some 'é', none, some 'a'] }
    (({ chars := paused } : Buffered (Supply Char)).answers? 4).map Prod.fst =
      some [some 0xC3, some 0xA9, none, some 0x61] := by
  decide

end Buffered

end Streaming.Utf8
