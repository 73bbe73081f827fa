import Streaming.Proofs.Utf8.Injective

/-!
# What a decoder holds

The bytes that a fresh decoder has taken since it last completed an item are held: they are the
beginning of a sequence that goes on. The decoder's fields tell of them how many bytes every
completion adds, which payload bits they carry, and which bytes can be the next (`Tells`). Every
beginning of a sequence is held at some time, and the decoder is the same only where the bytes held
are. As a consequence, the bits of a sequence that a decoder completes are always those of a scalar
value (`states_are_viable_prefixes`).
-/

namespace Streaming.Utf8

/-- The bytes that the decoder has taken since the last one with which it completed an item, if it
held the bytes `v` before. -/
def Decoder.held (d : Decoder) (v : List UInt8) : List UInt8 → List UInt8
  | [] => v
  | b :: bs =>
    match d.offer b with
    | (none, next) => next.held (v ++ [b]) bs
    | (some _, next) => next.held [] bs

/-- The bytes since the last one with which a fresh decoder completes an item. -/
def unreported (bs : List UInt8) : List UInt8 := ({} : Decoder).held [] bs

/-- What a decoder says of the bytes `v` of a sequence that it holds. -/
structure Tells (v : List UInt8) (d : Decoder) (remaining lower upper : UInt8) : Prop where
  state : d.state = .expect remaining lower upper
  unfinished : Unfinished v
  /-- From one to three bytes are missing, whichever they are. -/
  between : 1 ≤ remaining ∧ remaining ≤ 3
  missing : ∀ t, WellFormed (v ++ t) → t.length = remaining.toNat
  /-- The first byte has gone in with the payload bits that it has in a sequence of that length. -/
  bits : d.bits.toNat = gather (v.length + remaining.toNat - 1) v
  next : ∀ b, lower ≤ b ∧ b ≤ upper ↔ Viable (v ++ [b])

/-- The byte is within the bounds and the last one missing, but the bits with it are those of no
scalar value. -/
def Decoder.EndsInvalid (d : Decoder) (b : UInt8) : Prop :=
  ∃ remaining lower upper, d.state = .expect remaining lower upper ∧ lower ≤ b ∧ b ≤ upper ∧
    remaining ≤ 1 ∧ scalar? (Decoder.extend d.bits b) = none

/-! ## The bytes held are pending -/

namespace Decoder

variable {d next : Decoder} {b : UInt8}

theorem held_cons_of_none (h : d.offer b = (none, next)) (v bs : List UInt8) :
    d.held v (b :: bs) = next.held (v ++ [b]) bs := by
  simp [held, h]

theorem held_cons_of_some {item : Item} (h : d.offer b = (some item, next)) (v bs : List UInt8) :
    d.held v (b :: bs) = next.held [] bs := by
  simp [held, h]

end Decoder

namespace Pending

variable {v : List UInt8} {d : Decoder}

theorem nil : Pending [] {} := rfl

theorem held (h : Pending v d) (bs : List UInt8) : Pending (d.held v bs) (d.offerAll bs).2 := by
  induction bs generalizing v d with
  | nil => exact h
  | cons b bs ih =>
    cases h.offered b with
    | more ho _ =>
      rw [Decoder.held_cons_of_none ho, Decoder.offerAll_cons_of_none ho]
      exact ih (h.append ho)
    | scalar ho _ =>
      rw [Decoder.held_cons_of_some ho, Decoder.offerAll_cons_of_some ho]
      exact ih nil
    | refused ho _ =>
      rw [Decoder.held_cons_of_some ho, Decoder.offerAll_cons_of_some ho]
      exact ih nil

/-- Bytes that complete no item are all held. -/
theorem unreported_eq (h : Pending v d) : unreported v = v := by
  -- Each byte is added to those held before it.
  have hall : ∀ (d : Decoder) (w bs : List UInt8), (d.offerAll bs).1 = [] →
      d.held w bs = w ++ bs := by
    intro d w bs hbs
    induction bs generalizing d w with
    | nil => exact (List.append_nil w).symm
    | cons b bs ih =>
      cases ho : d.offer b with
      | mk first next =>
        cases first with
        | none =>
          rw [Decoder.offerAll_cons_of_none ho] at hbs
          rw [Decoder.held_cons_of_none ho, ih next _ hbs, List.append_assoc]
          rfl
        | some item =>
          rw [Decoder.offerAll_cons_of_some ho] at hbs
          cases hbs
  exact hall {} [] v (congrArg Prod.fst h)

end Pending

theorem pending_unreported (bs : List UInt8) :
    Pending (unreported bs) (({} : Decoder).offerAll bs).2 :=
  Pending.nil.held bs

/-! ## What the fields tell -/

namespace Inside

variable {row : Row} {done : List Range} {r : Range} {rest : List Range} {v : List UInt8}
  {d : Decoder} (h : Inside row done r rest v d)

include h

theorem length_missing {t : List UInt8} (ht : WellFormed (v ++ t)) :
    t.length = rest.length + 1 := by
  obtain ⟨hrow, hsplit, hne, hfits, -, -⟩ := h
  cases hfits with
  | nil => exact absurd rfl hne
  | cons hb hs =>
    have hlead := hsplit
    simp only [Row.ranges, List.cons_append, List.cons.injEq] at hlead
    have hall := WellFormed.fits_of_append hrow (List.Forall₂.cons hb hs) hlead.1.symm ht
    have hlen := hall.length_eq
    have hfit := hs.length_eq
    rw [hsplit] at hlen
    simp only [List.length_append, List.length_cons] at hlen
    omega

theorem tells : Tells v d (.ofNat (rest.length + 1)) r.lower r.upper := by
  have hlen := length_conts_le h.mem
  rw [h.length_conts] at hlen
  have hv := List.length_pos_iff.mpr h.nonempty
  have hcount : (UInt8.ofNat (rest.length + 1)).toNat = rest.length + 1 :=
    UInt8.toNat_ofNat_of_lt' (show _ < 2 ^ 8 by omega)
  refine ⟨h.state, h.unfinished, ⟨?_, ?_⟩, ?_, ?_, ?_⟩
  · rw [UInt8.le_iff_toNat_le, hcount]
    exact Nat.le_add_left 1 _
  · rw [UInt8.le_iff_toNat_le, hcount]
    show rest.length + 1 ≤ 3
    omega
  · intro t ht
    rw [hcount, h.length_missing ht]
  · rw [h.bits, h.length_conts, hcount]
    rfl
  · intro b
    exact (viable_append_iff h.mem h.split h.nonempty h.fits).symm

end Inside

theorem Pending.fresh_or_tells {v : List UInt8} {d : Decoder} (h : Pending v d) :
    if v = [] then d = ⟨.ready, 0⟩
    else ∃ remaining lower upper, Tells v d remaining lower upper := by
  obtain ⟨rfl, rfl⟩ | ⟨row, done, r, rest, hin⟩ := h.inside
  · rfl
  · rw [if_neg hin.nonempty]
    exact ⟨_, _, _, hin.tells⟩

theorem Pending.not_endsInvalid {v : List UInt8} {d : Decoder} (h : Pending v d) (b : UInt8) :
    ¬ d.EndsInvalid b := by
  rintro ⟨remaining, lower, upper, hstate, hlower, hupper, hlast, hscalar⟩
  have hjudge : d.judge b = .refused := by
    have hin : ¬ (b < lower ∨ upper < b) := by
      rw [not_or, UInt8.not_lt, UInt8.not_lt]
      exact ⟨hlower, hupper⟩
    simp [Decoder.judge, hstate, hin, UInt8.not_lt.mpr hlast, hscalar]
  obtain ⟨rfl, rfl⟩ | ⟨row, done, r, rest, hin⟩ := h.inside
  · cases hstate
  · cases hin.state.symm.trans hstate
    -- A byte that the decoder refuses begins no sequence with those held.
    have hviable : Viable (v ++ [b]) := (hin.tells.next b).mp ⟨hlower, hupper⟩
    cases hin.offered b with
    | more ho _ => simp [Decoder.offer, hjudge] at ho
    | scalar ho _ => simp [Decoder.offer, hjudge] at ho
    | refused _ hv => exact hv hviable

/-- **The states of a decoder are the beginnings of sequences.** A decoder that has taken any bytes
since it was fresh is fresh again if it holds none of them, and tells of those that it holds
otherwise. Exactly the beginnings of sequences that go on are held, and different ones leave
different decoders. No decoder on the way takes a byte for the end of a sequence without a scalar
value. -/
theorem states_are_viable_prefixes :
    (∀ bs : List UInt8,
      let v := unreported bs
      let d := (({} : Decoder).offerAll bs).2
      (if v = [] then d = ⟨.ready, 0⟩
        else ∃ remaining lower upper, Tells v d remaining lower upper) ∧
        ∀ b, ¬ d.EndsInvalid b) ∧
    (∀ v, (∃ bs, unreported bs = v) ↔ Unfinished v) ∧
    ∀ as bs : List UInt8, (({} : Decoder).offerAll as).2 = (({} : Decoder).offerAll bs).2 ↔
      unreported as = unreported bs := by
  refine ⟨?_, ?_, ?_⟩
  · intro bs v d
    have hv : Pending v d := pending_unreported bs
    exact ⟨hv.fresh_or_tells, hv.not_endsInvalid⟩
  · intro v
    constructor
    · rintro ⟨bs, rfl⟩
      exact (pending_unreported bs).unfinished
    · intro hv
      obtain ⟨d, hd⟩ := hv.exists_pending
      exact ⟨v, hd.unreported_eq⟩
  · intro as bs
    have has := pending_unreported as
    have hbs := pending_unreported bs
    constructor
    · intro heq
      rw [heq] at has
      exact has.unique hbs
    · intro heq
      rw [heq] at has
      exact (Prod.mk.inj (has.symm.trans hbs)).2

example : unreported [0x80, 0xC3, 0xA9, 0xE2, 0x82] = [0xE2, 0x82] := by decide

end Streaming.Utf8
