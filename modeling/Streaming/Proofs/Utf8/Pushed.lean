import Mathlib.Order.Bounds.Basic
import Streaming.Proofs.Utf8.Run
import Streaming.Utf8.Pushing

/-!
# Pushing and pulling agree

Both drivers of a decoder put its items together from what it does with one byte. Feeding chunks
gives the items that their bytes complete end to end, and the end of the input, asked for after
them, gives the error that a pulling run reports there. A feed of which only some items are taken
has offered the bytes of these items and no others (`push_pull_agree`).
-/

namespace Streaming.Utf8

namespace Decoder

theorem use_feed (d : Decoder) (bs : List UInt8) : d.use (.feed bs) = d.offerAll bs := by
  show ((Pull.collect (⟨d, bs⟩ : Batch)).1, (Pull.collect (⟨d, bs⟩ : Batch)).2.decoder) = _
  rw [Batch.collect_eq]

theorem use_finish (d : Decoder) : d.use .finish = (d.ending, d) := rfl

/-- Chunks fed one after the other are fed end to end. -/
theorem session_feed (d : Decoder) (chunks : List (List UInt8)) :
    (d.session (chunks.map .feed)).1.flatten = (d.offerAll chunks.flatten).1 ∧
      (d.session (chunks.map .feed)).2 = (d.offerAll chunks.flatten).2 := by
  induction chunks generalizing d with
  | nil => exact ⟨rfl, rfl⟩
  | cons bs rest ih =>
    obtain ⟨hitems, hlast⟩ := ih (d.offerAll bs).2
    rw [List.map_cons, session, use_feed, List.flatten_cons, List.flatten_cons, offerAll_append,
      hitems, hlast]
    exact ⟨rfl, rfl⟩

/-- Questions about the end change nothing for the other uses. -/
theorem session_filter (d : Decoder) (uses : List Use) :
    d.session (uses.filter fun u => !u.isFinish) =
      (((uses.zip (d.session uses).1).filter fun given => !given.1.isFinish).map Prod.snd,
        (d.session uses).2) := by
  induction uses generalizing d with
  | nil => rfl
  | cons u uses ih =>
    cases hu : u.isFinish with
    | true =>
      cases u with
      | finish => exact ih d
      | feed _ | draw _ _ => cases hu
    | false =>
      have hkept : (u :: uses).filter (fun u => !u.isFinish) =
          u :: uses.filter fun u => !u.isFinish :=
        List.filter_cons_of_pos (by rw [hu]; rfl)
      rw [hkept, session, session, List.zip_cons_cons, List.filter_cons_of_pos (by rw [hu]; rfl)]
      simp only [ih, List.map_cons]

theorem offerAll_take_eq_nil {d d' : Decoder} {w : List UInt8} (h : d.offerAll w = ([], d'))
    (m : Nat) : (d.offerAll (w.take m)).1 = [] := by
  have hall := offerAll_append d (w.take m) (w.drop m)
  rw [List.take_append_drop, h, Prod.mk.injEq] at hall
  exact (List.append_eq_nil_iff.mp hall.1.symm).1

end Decoder

namespace Batch

/-- When `k` items have been taken, the bytes offered are the fewest that complete as many. -/
theorem exists_take {k : Nat} {f : Batch} (hk : k ≤ (Pull.elements f).length) :
    ∃ n ≤ f.bytes.length,
      IsLeast {m | k ≤ (f.decoder.offerAll (f.bytes.take m)).1.length} n ∧
      (Pull.take k f).2.bytes = f.bytes.drop n ∧
      f.decoder.offerAll (f.bytes.take n) = ((Pull.take k f).1, (Pull.take k f).2.decoder) := by
  induction k generalizing f with
  | zero => exact ⟨0, Nat.zero_le _, ⟨Nat.zero_le _, fun m _ => Nat.zero_le m⟩, rfl, rfl⟩
  | succ k ih =>
    obtain ⟨item, items, hel⟩ := List.exists_cons_of_length_pos (Nat.lt_of_lt_of_le k.succ_pos hk)
    obtain ⟨g, hnext, hg⟩ := Pull.exists_of_elements_cons hel
    rw [hel, ← hg, List.length_cons] at hk
    obtain ⟨n, hn, ⟨hmem, hleast⟩, hdrop, hall⟩ := ih (f := g) (by omega)
    obtain ⟨w, b, d, hbytes, hw, ho⟩ := exists_of_next_some hnext
    -- The bytes `w` complete nothing, `b` completes the first item, and `g` goes on after it.
    have htake : ∀ m, f.decoder.offerAll (f.bytes.take (w.length + 1 + m)) =
        (item :: (g.decoder.offerAll (g.bytes.take m)).1,
          (g.decoder.offerAll (g.bytes.take m)).2) := by
      intro m
      have hcut : f.bytes.take (w.length + 1 + m) = w ++ b :: g.bytes.take m := by
        rw [hbytes, Nat.add_assoc, List.take_length_add_append, Nat.add_comm 1 m,
          List.take_succ_cons]
      rw [hcut, Decoder.offerAll_append, hw, Decoder.offerAll_cons_of_some ho]
      rfl
    have hlen : f.bytes.length = w.length + 1 + g.bytes.length := by
      rw [hbytes, List.length_append, List.length_cons]
      omega
    refine ⟨w.length + 1 + n, by omega, ⟨?_, ?_⟩, ?_, ?_⟩
    · show k + 1 ≤ _
      rw [htake, List.length_cons]
      exact Nat.succ_le_succ hmem
    · intro m hm
      replace hm : k + 1 ≤ (f.decoder.offerAll (f.bytes.take m)).1.length := hm
      by_cases hle : m ≤ w.length
      · rw [hbytes, List.take_append_of_le_length hle, Decoder.offerAll_take_eq_nil hw] at hm
        cases hm
      · obtain ⟨m', rfl⟩ := Nat.exists_eq_add_of_le (Nat.lt_of_not_le hle)
        rw [Nat.succ_eq_add_one, htake, List.length_cons] at hm
        exact Nat.add_le_add_left (hleast (Nat.le_of_succ_le_succ hm)) _
    · rw [Pull.take_of_some hnext, hdrop, hbytes, Nat.add_assoc, List.drop_length_add_append,
        Nat.add_comm 1 n, List.drop_succ_cons]
    · rw [htake, hall, Pull.take_of_some hnext]

end Batch

/-- **Pushing and pulling agree.** From any decoder, feeding chunks and asking for the end gives the
items of the run that pulls their bytes, and leaves the decoder that this run leaves. Taking only
the first `k` items of a feed leaves the decoder as feeding the fewest bytes does that complete as
many, and feeding the other bytes goes on from there. Questions about the end change nothing,
wherever they are asked. -/
theorem push_pull_agree (d : Decoder) :
    (∀ chunks : List (List UInt8),
      let pushed := d.session (chunks.map .feed)
      let run := Decoding.resume d (Supply.ofList chunks.flatten)
      pushed.1.flatten ++ (pushed.2.use .finish).1 = Pull.elements run ∧
        pushed.2 = (Pull.collect run).2.decoder) ∧
    (∀ (bs : List UInt8) (k : Nat), k ≤ (d.use (.feed bs)).1.length →
      ∃ n ≤ bs.length, IsLeast {m | k ≤ (d.use (.feed (bs.take m))).1.length} n ∧
        d.use (.draw k bs) = d.use (.feed (bs.take n)) ∧
        (d.session [.draw k bs, .feed (bs.drop n)]).1.flatten = (d.use (.feed bs)).1 ∧
        (d.session [.draw k bs, .feed (bs.drop n)]).2 = (d.use (.feed bs)).2) ∧
    ∀ uses : List Use,
      d.session (uses.filter fun u => !u.isFinish) =
        (((uses.zip (d.session uses).1).filter fun given => !given.1.isFinish).map Prod.snd,
          (d.session uses).2) := by
  refine ⟨fun chunks => ?_, fun bs k hk => ?_, d.session_filter⟩
  · obtain ⟨hitems, hlast⟩ := d.session_feed chunks
    intro pushed run
    constructor
    · rw [hitems, Decoder.use_finish, hlast, Decoding.elements_resume, Supply.elements_ofList]
      rfl
    · rw [hlast, Decoding.decoder_collect_resume, Supply.elements_ofList]
  · rw [Decoder.use_feed] at hk
    obtain ⟨n, hn, hleast, -, hall⟩ := Batch.exists_take (f := ⟨d, bs⟩) (k := k)
      (by rwa [Batch.elements_eq])
    have hdraw : d.use (.draw k bs) = d.offerAll (bs.take n) := hall.symm
    have happ := d.offerAll_append (bs.take n) (bs.drop n)
    rw [List.take_append_drop] at happ
    simp only [Decoder.use_feed, Decoder.session, hdraw, List.flatten_cons, List.flatten_nil,
      List.append_nil]
    refine ⟨n, hn, hleast, rfl, ?_, ?_⟩
    · rw [happ]
    · rw [happ]

/-- Taking the first of two characters offers two of the three bytes. -/
theorem push_pull_agree_oneOfTwo :
    1 ≤ (({} : Decoder).use (.feed [0xC3, 0xA9, 0x41])).1.length ∧
      ({} : Decoder).use (.draw 1 [0xC3, 0xA9, 0x41]) =
        ({} : Decoder).use (.feed [0xC3, 0xA9]) := by
  have hk : 1 ≤ (({} : Decoder).use (.feed [0xC3, 0xA9, 0x41])).1.length := by
    rw [Decoder.use_feed]
    decide
  obtain ⟨n, -, ⟨hmem, hleast⟩, hdraw, -⟩ := (push_pull_agree {}).2.1 _ _ hk
  have hle : n ≤ 2 := by
    apply hleast
    show 1 ≤ _
    rw [Decoder.use_feed]
    decide
  have hge : 2 ≤ n := by
    by_contra hlt
    have hnone : ∀ m < 2, (({} : Decoder).offerAll ([0xC3, 0xA9, 0x41].take m)).1 = [] := by decide
    change 1 ≤ _ at hmem
    rw [Decoder.use_feed, hnone n (by omega)] at hmem
    cases hmem
  obtain rfl : n = 2 := Nat.le_antisymm hle hge
  exact ⟨hk, hdraw⟩

end Streaming.Utf8
