import Streaming.Proofs.Parser.Groups

/-!
# What readers take from their input

A reader that leaves a source behind has consumed some of its elements and looked at some more; what
it has neither consumed nor looked at has not been pulled from the input (`Source.Draws`). This is
known of asking for the end, of dropping elements and of the runs of forward parsers, and of one
reader after the other if the second one gets past what the first one has looked at
(`Source.Draws.trans`). So how much of an input has been pulled in the end can be told from the
elements consumed (`Source.Draws.given_eq`).
-/

namespace Streaming

universe u v w x

variable {σ : Type u} {α : Type v} {τ : Type w} {β : Type x} [FinitePull σ α]

namespace Source

/-- The second source is what a reader leaves of the first that has consumed `n` elements and, as
far as there are any, looked at so many behind them. -/
structure Draws (s : Source σ α) (n ahead : Nat) (t : Source σ α) : Prop extends
    s.Consumes n t where
  le_length : n ≤ (Pull.elements s).length
  reach_eq : t.reach = max s.reach (s.offset + min (n + ahead) (Pull.elements s).length)
  rests : ∀ {P : Source σ α → Prop}, Kept P → Rests P s → Rests P t

namespace Draws

variable {s t r : Source σ α} {n m ahead further : Nat}

theorem length_eq (h : s.Draws n ahead t) :
    (Pull.elements t).length = (Pull.elements s).length - n := by
  rw [h.elements_eq, List.length_drop]

theorem refl (s : Source σ α) : s.Draws 0 0 s where
  offset_eq := rfl
  elements_eq := rfl
  le_length := Nat.zero_le _
  reach_eq := by
    unfold reach
    omega
  rests _ h := h

/-- What the first reader has looked at is nothing new to the second. -/
theorem trans (h : s.Draws n ahead t) (h' : t.Draws m further r) (hle : ahead ≤ m + further) :
    s.Draws (n + m) further r := by
  have hlen := h.length_eq
  have hoff := h.offset_eq
  have hn := h.le_length
  have hm := h'.le_length
  refine ⟨⟨?_, ?_⟩, ?_, ?_, fun hP hs => h'.rests hP (h.rests hP hs)⟩
  · rw [h'.offset_eq, hoff, Nat.add_assoc]
  · rw [h'.elements_eq, h.elements_eq, List.drop_drop]
  · omega
  · have hfar : n + min (m + further) ((Pull.elements s).length - n) =
        min (n + m + further) (Pull.elements s).length := by
      rw [← Nat.add_min_add_left, Nat.add_sub_cancel' hn, Nat.add_assoc]
    have hnear : min (n + ahead) (Pull.elements s).length ≤
        min (n + m + further) (Pull.elements s).length := by
      rw [Nat.add_assoc]
      omega
    rw [h'.reach_eq, h.reach_eq, hlen, hoff, Nat.add_assoc, hfar, Nat.max_assoc,
      Nat.max_eq_right (Nat.add_le_add_left hnear _)]

/-- How much of a list has been pulled. -/
theorem given_eq {xs : List α} {t : Source (Supply α) α} {n ahead : Nat}
    (h : (ofInput (.ofList xs) : Source (Supply α) α).Draws n ahead t) :
    t.input.inner.given = min (n + ahead) xs.length := by
  have hstart : Rests (fun s => Pulled (.ofList xs) s.reach s.input)
      (ofInput (.ofList xs) : Source (Supply α) α) := ⟨.start _, rfl⟩
  have hpulled := (h.rests (kept_pulled _) hstart).holds
  have hreach := h.reach_eq
  have hzero : (ofInput (.ofList xs) : Source (Supply α) α).reach = 0 := rfl
  have hoff : (ofInput (.ofList xs) : Source (Supply α) α).offset = 0 := rfl
  rw [elements_ofInput_ofList, hzero, hoff, Nat.zero_max, Nat.zero_add] at hreach
  rw [hpulled.given_eq, hreach]

end Draws

/-! ## Readers -/

variable {s t : Source σ α}

theorem draws_atEnd {ended : Bool} (h : s.atEnd = (ended, t)) : s.Draws 0 1 t := by
  obtain ⟨hend, hsame⟩ := indistinct_atEnd h
  refine ⟨⟨hsame.offset_eq, hsame.elements_eq⟩, Nat.zero_le _, ?_, ?_⟩
  · rw [reach_of_atEnd h]
    cases ended with
    | true =>
      rw [hend.mp rfl]
      exact (Nat.max_eq_left (Nat.le_add_right ..)).symm
    | false =>
      have hne : Pull.elements s ≠ [] := mt hend.mpr Bool.false_ne_true
      have hpos := List.length_pos_iff.mpr hne
      rw [if_neg Bool.false_ne_true, Nat.zero_add, Nat.min_eq_left hpos]
  · intro P hP hs
    have hpeek : Rests P s.atEnd.2 := hP.peek hs
    rwa [h] at hpeek

theorem draws_dropWhile (p : α → Bool) (s : Source σ α) :
    s.Draws ((Pull.elements s).takeWhile p).length 1 (s.dropWhile p).2 where
  offset_eq := by rw [offset_dropWhile, fst_dropWhile]
  elements_eq := by rw [elements_dropWhile, drop_length_takeWhile]
  le_length := (List.takeWhile_prefix p).length_le
  reach_eq := reach_dropWhile p s
  rests hP hs := hP.skip hs (skip_eq_dropWhile p s)

end Source

namespace Parser.Forward

variable {p : Parser α τ β} (hp : p.Forward) {s : Source σ α} {n : Nat} (hn : n ≤ 1)
  (hback : p.HandsBack n) {r : Round β} (h : p.round (Pull.elements s) = .ok r)

include hp hn hback h

theorem draws_parse : ∃ t, s.parse p = some (.ok r.answer, t) ∧ s.Draws r.consumed n t := by
  obtain ⟨t, hparse, hoff, helems⟩ := hp.parse_of_round h
  obtain ⟨m, hle, hm, -⟩ := Source.exists_consumed_parse hparse
  obtain rfl : m = r.consumed := by omega
  exact ⟨t, hparse, ⟨hoff, helems⟩, hle, hp.reach_of_round hn hback h hparse,
    fun hP hs => hP.parse hs hparse⟩

/-- A repetition looks for the end before each run. -/
theorem draws_next (hleft : Pull.elements s ≠ []) (hgo : r.Advances) :
    ∃ t, (Repetition.start p s).next = some (some r.answer, .start p t) ∧
      s.Draws r.consumed n t := by
  obtain ⟨q, t, he, hparse, hnext, -⟩ := hp.next_of_round hleft h hgo
  have hlooked := Source.draws_atEnd he
  rw [← (Source.indistinct_atEnd he).2.elements_eq] at h
  obtain ⟨t', hparse', hdraws⟩ := hp.draws_parse hn hback h
  cases hparse.symm.trans hparse'
  have hboth := hlooked.trans hdraws (Nat.le_add_right_of_le hgo.2)
  rw [Nat.zero_add] at hboth
  exact ⟨t, hnext, hboth⟩

end Parser.Forward

end Streaming
