import Mathlib.Data.List.Induction
import Streaming.Utf8.Sequence

/-!
# The table of well-formed sequences

The first byte decides the row (`row_unique`), so no well-formed sequence begins another one
(`WellFormed.eq_nil_of_append`), and inside a sequence the bytes that can follow are those in the
next range of its row (`viable_append_iff`). Every well-formed sequence has a scalar value
(`isValidChar_payload`).
-/

namespace Streaming.Utf8

theorem Range.has_iff {lower upper b : UInt8} :
    Range.Has ⟨lower, upper⟩ b ↔ lower.toNat ≤ b.toNat ∧ b.toNat ≤ upper.toNat := by
  rw [← UInt8.le_iff_toNat_le, ← UInt8.le_iff_toNat_le]
  rfl

theorem Range.has_iff_not_out {r : Range} {b : UInt8} :
    r.Has b ↔ ¬ (b < r.lower ∨ r.upper < b) := by
  rw [not_or, UInt8.not_lt, UInt8.not_lt]
  rfl

namespace Fits

theorem append {rs ts : List Range} {s t : List UInt8} (h : Fits rs s) (h' : Fits ts t) :
    Fits (rs ++ ts) (s ++ t) := by
  induction h with
  | nil => exact h'
  | cons hr _ ih => exact .cons hr ih

theorem of_append {rs ts : List Range} {s t : List UInt8} (h : Fits (rs ++ ts) (s ++ t))
    (hlen : rs.length = s.length) : Fits rs s ∧ Fits ts t := by
  have h1 := List.forall₂_take rs.length h
  have h2 := List.forall₂_drop rs.length h
  rw [List.take_left' rfl, List.take_left' hlen.symm] at h1
  rw [List.drop_left' rfl, List.drop_left' hlen.symm] at h2
  exact ⟨h1, h2⟩

end Fits

/-! ## Rows -/

theorem row_unique {row row' : Row} (h : row ∈ rows) (h' : row' ∈ rows) {b : UInt8}
    (hb : row.lead.Has b) (hb' : row'.lead.Has b) : row = row' := by
  have key : ∀ row ∈ rows, ∀ row' ∈ rows,
      row = row' ∨ row.lead.upper < row'.lead.lower ∨ row'.lead.upper < row.lead.lower := by
    decide
  obtain heq | hlt | hlt := key row h row' h'
  · exact heq
  · exact absurd (UInt8.lt_of_le_of_lt (UInt8.le_trans hb'.1 hb.2) hlt) (UInt8.lt_irrefl _)
  · exact absurd (UInt8.lt_of_le_of_lt (UInt8.le_trans hb.1 hb'.2) hlt) (UInt8.lt_irrefl _)

theorem length_conts_le {row : Row} (h : row ∈ rows) : row.conts.length ≤ 3 := by
  revert row
  decide

theorem eq_cont_of_mem_tail {row : Row} (h : row ∈ rows) {r : Range} (hr : r ∈ row.conts.tail) :
    r = .cont := by
  have key : ∀ row ∈ rows, ∀ r ∈ row.conts.tail, r = .cont := by decide
  exact key row h r hr

theorem cont_of_mem_conts {row : Row} (h : row ∈ rows) {r : Range} (hr : r ∈ row.conts) {b : UInt8}
    (hb : r.Has b) : Range.cont.Has b := by
  have key : ∀ row ∈ rows, ∀ r ∈ row.conts,
      Range.cont.lower ≤ r.lower ∧ r.upper ≤ Range.cont.upper := by decide
  obtain ⟨hlower, hupper⟩ := key row h r hr
  exact ⟨UInt8.le_trans hlower hb.1, UInt8.le_trans hb.2 hupper⟩

/-- No byte can be the first of one sequence and a later one of another. -/
theorem not_cont_of_lead {row : Row} (h : row ∈ rows) {b : UInt8} (hb : row.lead.Has b) :
    ¬ Range.cont.Has b := by
  have key : ∀ row ∈ rows,
      row.lead.upper < Range.cont.lower ∨ Range.cont.upper < row.lead.lower := by decide
  intro hc
  obtain hlt | hlt := key row h
  · exact UInt8.lt_irrefl b (UInt8.lt_of_lt_of_le (UInt8.lt_of_le_of_lt hb.2 hlt) hc.1)
  · exact UInt8.lt_irrefl b (UInt8.lt_of_le_of_lt hc.2 (UInt8.lt_of_lt_of_le hlt hb.1))

theorem lower_le_upper {row : Row} (h : row ∈ rows) {r : Range} (hr : r ∈ row.ranges) :
    r.lower ≤ r.upper := by
  have key : ∀ row ∈ rows, ∀ r ∈ row.ranges, r.lower ≤ r.upper := by decide
  exact key row h r hr

theorem fits_map_lower {row : Row} (h : row ∈ rows) {rs : List Range} (hrs : rs ⊆ row.ranges) :
    Fits rs (rs.map Range.lower) := by
  refine List.forall₂_map_right_iff.mpr (List.forall₂_same.mpr ?_)
  intro r hr
  exact ⟨UInt8.le_refl _, lower_le_upper h (hrs hr)⟩

/-! ## Sequences -/

theorem not_wellFormed_nil : ¬ WellFormed [] := by
  decide

theorem WellFormed.exists_row {b : UInt8} {s : List UInt8} (h : WellFormed (b :: s)) :
    ∃ row ∈ rows, row.lead.Has b ∧ Fits row.conts s := by
  obtain ⟨row, hrow, hf⟩ := h
  cases hf with
  | cons hb hs => exact ⟨row, hrow, hb, hs⟩

/-- Sequences that begin alike fit the same row. -/
theorem WellFormed.fits_of_append {row : Row} (hrow : row ∈ rows) {r : Range} {rs : List Range}
    {v t : List UInt8} (hv : Fits (r :: rs) v) (hr : r = row.lead) (h : WellFormed (v ++ t)) :
    Fits row.ranges (v ++ t) := by
  subst hr
  cases hv with
  | cons hb hs =>
    obtain ⟨row', hrow', hf⟩ := h
    cases hf with
    | cons hb' hs' =>
      -- The first byte decides the row.
      obtain rfl := row_unique hrow hrow' hb hb'
      exact .cons hb' hs'

/-- No well-formed sequence begins another one. -/
theorem WellFormed.eq_nil_of_append {s t : List UInt8} (h : WellFormed s)
    (h' : WellFormed (s ++ t)) : t = [] := by
  obtain ⟨row, hrow, hf⟩ := h
  have hlen := (WellFormed.fits_of_append hrow hf rfl h').length_eq
  rw [hf.length_eq, List.length_append] at hlen
  exact List.eq_nil_of_length_eq_zero (by omega)

theorem Unfinished.viable {v : List UInt8} (h : Unfinished v) : Viable v :=
  let ⟨t, _, ht⟩ := h
  ⟨t, ht⟩

theorem Unfinished.not_wellFormed_of_prefix {v q : List UInt8} (h : Unfinished v) (hq : q <+: v) :
    ¬ WellFormed q := by
  intro hw
  obtain ⟨t, ht, hv⟩ := h
  obtain ⟨u, rfl⟩ := hq
  rw [List.append_assoc] at hv
  exact ht (List.append_eq_nil_iff.mp (hw.eq_nil_of_append hv)).2

theorem viable_singleton_iff {b : UInt8} : Viable [b] ↔ ∃ row ∈ rows, row.lead.Has b := by
  constructor
  · rintro ⟨t, ht⟩
    obtain ⟨row, hrow, hb, -⟩ := ht.exists_row
    exact ⟨row, hrow, hb⟩
  · rintro ⟨row, hrow, hb⟩
    exact ⟨_, row, hrow, .cons hb (fits_map_lower hrow (List.subset_cons_self _ _))⟩

section Inside

variable {row : Row} (hrow : row ∈ rows) {r : Range} {done rest : List Range}
  (hsplit : row.ranges = done ++ r :: rest) {v : List UInt8} (hv : v ≠ []) (hfits : Fits done v)

include hrow hsplit hv hfits in
/-- Inside a sequence, the next byte has to be within the next range. -/
theorem viable_append_iff {b : UInt8} : Viable (v ++ [b]) ↔ r.Has b := by
  constructor
  · rintro ⟨t, ht⟩
    rw [List.append_assoc] at ht
    cases hfits with
    | nil => exact absurd rfl hv
    | cons hb hs =>
      simp only [Row.ranges, List.cons_append, List.cons.injEq] at hsplit
      have hall := WellFormed.fits_of_append hrow (List.Forall₂.cons hb hs) hsplit.1.symm ht
      rw [Row.ranges, hsplit.2, hsplit.1] at hall
      cases hall with
      | cons _ hall =>
        cases (Fits.of_append hall hs.length_eq).2 with
        | cons hb' _ => exact hb'
  · intro hb
    refine ⟨rest.map Range.lower, row, hrow, ?_⟩
    rw [hsplit, List.append_assoc]
    refine hfits.append (.cons hb (fits_map_lower hrow ?_))
    rw [hsplit]
    exact fun x hx => List.mem_append_right _ (List.mem_cons_of_mem _ hx)

include hrow hsplit hfits in
theorem unfinished_of_fits : Unfinished v := by
  refine ⟨(r :: rest).map Range.lower, by simp, row, hrow, ?_⟩
  rw [hsplit]
  refine hfits.append (fits_map_lower hrow ?_)
  rw [hsplit]
  exact fun x hx => List.mem_append_right _ hx

end Inside

/-! ## Values -/

theorem gather_append {k : Nat} {v : List UInt8} (hv : v ≠ []) (b : UInt8) :
    gather k (v ++ [b]) = gather k v * 64 + b.toNat % 64 := by
  cases v with
  | nil => exact absurd rfl hv
  | cons a v => simp [gather]

theorem leadBits_lt (k : Nat) (b : UInt8) : leadBits k b < 128 := by
  unfold leadBits
  split <;> omega

theorem gather_lt (k : Nat) {v : List UInt8} (hv : v.length ≤ 3) : gather k v < 0x80000 := by
  match v with
  | [] => exact Nat.zero_lt_succ _
  | [a] =>
    have := leadBits_lt k a
    show leadBits k a < 0x80000
    omega
  | [a, b] =>
    have := leadBits_lt k a
    show leadBits k a * 64 + b.toNat % 64 < 0x80000
    omega
  | [a, b, c] =>
    have := leadBits_lt k a
    show (leadBits k a * 64 + b.toNat % 64) * 64 + c.toNat % 64 < 0x80000
    omega

theorem payload_one (a : UInt8) : payload [a] = a.toNat % 128 :=
  rfl

theorem payload_two (a b : UInt8) : payload [a, b] = a.toNat % 32 * 64 + b.toNat % 64 :=
  rfl

theorem payload_three (a b c : UInt8) :
    payload [a, b, c] = (a.toNat % 16 * 64 + b.toNat % 64) * 64 + c.toNat % 64 :=
  rfl

theorem payload_four (a b c d : UInt8) :
    payload [a, b, c, d] =
      ((a.toNat % 8 * 64 + b.toNat % 64) * 64 + c.toNat % 64) * 64 + d.toNat % 64 :=
  rfl

/-- Every well-formed sequence has a scalar value: each row keeps its values out of the surrogates
and below 110000. -/
theorem isValidChar_payload {s : List UInt8} (h : WellFormed s) : (payload s).isValidChar := by
  obtain ⟨row, hrow, hf⟩ := h
  simp only [rows, List.mem_cons, List.not_mem_nil, or_false] at hrow
  unfold Nat.isValidChar
  -- The second byte keeps out a surrogate in the row of ED, a value beyond 10FFFF in that of F4.
  rcases hrow with rfl | rfl | rfl | rfl | rfl | rfl | rfl | rfl | rfl
  · match s, hf with
    | [a], .cons _ .nil =>
      rw [payload_one]
      omega
  · match s, hf with
    | [a, b], .cons _ (.cons _ .nil) =>
      rw [payload_two]
      omega
  · match s, hf with
    | [a, b, c], .cons ha (.cons hb (.cons _ .nil)) =>
      simp only [Range.has_iff, UInt8.toNat_ofNat] at ha hb
      rw [payload_three]
      omega
  · match s, hf with
    | [a, b, c], .cons ha (.cons _ (.cons _ .nil)) =>
      simp only [Range.has_iff, UInt8.toNat_ofNat] at ha
      rw [payload_three]
      omega
  · match s, hf with
    | [a, b, c], .cons ha (.cons hb (.cons _ .nil)) =>
      simp only [Range.has_iff, UInt8.toNat_ofNat] at ha hb
      rw [payload_three]
      omega
  · match s, hf with
    | [a, b, c], .cons ha (.cons _ (.cons _ .nil)) =>
      simp only [Range.has_iff, UInt8.toNat_ofNat] at ha
      rw [payload_three]
      omega
  · match s, hf with
    | [a, b, c, d], .cons ha (.cons hb (.cons _ (.cons _ .nil))) =>
      simp only [Range.has_iff, UInt8.toNat_ofNat] at ha hb
      rw [payload_four]
      omega
  · match s, hf with
    | [a, b, c, d], .cons ha (.cons _ (.cons _ (.cons _ .nil))) =>
      simp only [Range.has_iff, UInt8.toNat_ofNat] at ha
      rw [payload_four]
      omega
  · match s, hf with
    | [a, b, c, d], .cons ha (.cons hb (.cons _ (.cons _ .nil))) =>
      simp only [Range.has_iff, UInt8.toNat_ofNat] at ha hb
      rw [payload_four]
      omega

end Streaming.Utf8
