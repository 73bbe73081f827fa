import Streaming.Proofs.Utf8.Grammar
import Streaming.Utf8.Encoding

/-!
# The bytes of a scalar value

The number of a character decides how many bytes it is written with, and each of these is a mark
with some of the number's bits stamped on it (`Stamped`). The encoder writes these bytes
(`stamped_encode`), and they are the one sequence of the table that has the number as its value
(`encodes_iff`).
-/

namespace Streaming.Utf8

/-- The bytes carry the bits of the number `n`, which is within the range of their count. -/
inductive Stamped (n : Nat) : List UInt8 → Prop where
  | one {a : UInt8} (hlt : n < 0x80) (ha : a.toNat = n) : Stamped n [a]
  | two {a b : UInt8} (hle : 0x80 ≤ n) (hlt : n < 0x800) (ha : a.toNat = 0xC0 + n / 0x40)
    (hb : b.toNat = 0x80 + n % 0x40) : Stamped n [a, b]
  | three {a b c : UInt8} (hle : 0x800 ≤ n) (hlt : n < 0x10000) (ha : a.toNat = 0xE0 + n / 0x1000)
    (hb : b.toNat = 0x80 + n / 0x40 % 0x40) (hc : c.toNat = 0x80 + n % 0x40) : Stamped n [a, b, c]
  | four {a b c d : UInt8} (hle : 0x10000 ≤ n) (hlt : n < 0x110000)
    (ha : a.toNat = 0xF0 + n / 0x40000) (hb : b.toNat = 0x80 + n / 0x1000 % 0x40)
    (hc : c.toNat = 0x80 + n / 0x40 % 0x40) (hd : d.toNat = 0x80 + n % 0x40) :
    Stamped n [a, b, c, d]

theorem Stamped.unique {n : Nat} {s t : List UInt8} (hs : Stamped n s) (ht : Stamped n t) :
    s = t := by
  cases hs with
  | one hlt ha =>
    cases ht with
    | one _ ha' => rw [UInt8.toNat_inj.mp (ha.trans ha'.symm)]
    | two | three | four => omega
  | two hle hlt ha hb =>
    cases ht with
    | two _ _ ha' hb' =>
      rw [UInt8.toNat_inj.mp (ha.trans ha'.symm), UInt8.toNat_inj.mp (hb.trans hb'.symm)]
    | one | three | four => omega
  | three hle hlt ha hb hc =>
    cases ht with
    | three _ _ ha' hb' hc' =>
      rw [UInt8.toNat_inj.mp (ha.trans ha'.symm), UInt8.toNat_inj.mp (hb.trans hb'.symm),
        UInt8.toNat_inj.mp (hc.trans hc'.symm)]
    | one | two | four => omega
  | four hle hlt ha hb hc hd =>
    cases ht with
    | four _ _ ha' hb' hc' hd' =>
      rw [UInt8.toNat_inj.mp (ha.trans ha'.symm), UInt8.toNat_inj.mp (hb.trans hb'.symm),
        UInt8.toNat_inj.mp (hc.trans hc'.symm), UInt8.toNat_inj.mp (hd.trans hd'.symm)]
    | one | two | three => omega

/-- A byte below 0x80 stands alone. -/
theorem Stamped.eq_of_mem_of_lt {n : Nat} {s : List UInt8} (h : Stamped n s) {b : UInt8}
    (hb : b ∈ s) (hlt : b.toNat < 0x80) : b.toNat = n := by
  cases h with
  | one _ ha =>
    rw [List.mem_singleton] at hb
    rw [hb, ha]
  | two _ _ ha hb' =>
    simp only [List.mem_cons, List.not_mem_nil, or_false] at hb
    rcases hb with rfl | rfl <;> omega
  | three _ _ ha hb' hc =>
    simp only [List.mem_cons, List.not_mem_nil, or_false] at hb
    rcases hb with rfl | rfl | rfl <;> omega
  | four _ _ ha hb' hc hd =>
    simp only [List.mem_cons, List.not_mem_nil, or_false] at hb
    rcases hb with rfl | rfl | rfl | rfl <;> omega

/-! ## What the encoder writes -/

theorem toNat_contByte (n : UInt32) : (contByte n).toNat = 0x80 + n.toNat % 0x40 := by
  simp only [contByte, UInt8.toNat_add, UInt32.toNat_toUInt8, UInt32.toNat_mod, UInt8.toNat_ofNat,
    UInt32.toNat_ofNat, Nat.reduceMod, Nat.reducePow]
  omega

theorem toNat_leadByte (mark : UInt8) {n : UInt32} {k : Nat} (hn : n.toNat = k)
    (h : mark.toNat + k < 256) : (leadByte mark n).toNat = mark.toNat + k := by
  subst hn
  simp only [leadByte, UInt8.toNat_add, UInt32.toNat_toUInt8, Nat.reducePow]
  omega

theorem toNat_lt (c : Char) : c.toNat < 0x110000 := by
  have hvalid : c.toNat.isValidChar := c.valid
  unfold Nat.isValidChar at hvalid
  omega

theorem stamped_encode (c : Char) : Stamped c.toNat (encode c) := by
  have hmax := toNat_lt c
  have hval : c.val.toNat = c.toNat := rfl
  unfold encode
  simp only [UInt32.lt_iff_toNat_lt, UInt32.toNat_ofNat, hval]
  split
  · rename_i hlt
    refine .one hlt ?_
    rw [UInt32.toNat_toUInt8, hval]
    omega
  · split
    · rename_i hle hlt
      have hmark : (0xC0 : UInt8).toNat + c.toNat / 0x40 < 256 := by
        show 0xC0 + c.toNat / 0x40 < 256
        omega
      exact .two (by omega) hlt (toNat_leadByte 0xC0 (UInt32.toNat_div ..) hmark)
        (toNat_contByte _)
    · split
      · rename_i hle hlt
        have hmark : (0xE0 : UInt8).toNat + c.toNat / 0x1000 < 256 := by
          show 0xE0 + c.toNat / 0x1000 < 256
          omega
        exact .three (by omega) hlt (toNat_leadByte 0xE0 (UInt32.toNat_div ..) hmark)
          (toNat_contByte _) (toNat_contByte _)
      · rename_i hle
        have hmark : (0xF0 : UInt8).toNat + c.toNat / 0x40000 < 256 := by
          show 0xF0 + c.toNat / 0x40000 < 256
          omega
        exact .four (by omega) hmax (toNat_leadByte 0xF0 (UInt32.toNat_div ..) hmark)
          (toNat_contByte _) (toNat_contByte _) (toNat_contByte _)

/-! ## The sequences of the table -/

theorem stamped_payload_three {a b c : UInt8} (ha : 0xE0 ≤ a.toNat ∧ a.toNat < 0xF0)
    (hb : 0x80 ≤ b.toNat ∧ b.toNat < 0xC0) (hc : 0x80 ≤ c.toNat ∧ c.toNat < 0xC0)
    (hlow : 0xE0A0 ≤ a.toNat * 0x100 + b.toNat) : Stamped (payload [a, b, c]) [a, b, c] := by
  rw [payload_three]
  exact .three (by omega) (by omega) (by omega) (by omega) (by omega)

theorem stamped_payload_four {a b c d : UInt8} (ha : 0xF0 ≤ a.toNat ∧ a.toNat < 0xF8)
    (hb : 0x80 ≤ b.toNat ∧ b.toNat < 0xC0) (hc : 0x80 ≤ c.toNat ∧ c.toNat < 0xC0)
    (hd : 0x80 ≤ d.toNat ∧ d.toNat < 0xC0) (hlow : 0xF090 ≤ a.toNat * 0x100 + b.toNat)
    (hhigh : a.toNat * 0x100 + b.toNat < 0xF490) :
    Stamped (payload [a, b, c, d]) [a, b, c, d] := by
  have hmark : a.toNat % 8 = a.toNat - 0xF0 := by omega
  have hcont : b.toNat % 64 = b.toNat - 0x80 := by omega
  rw [payload_four, hmark, hcont]
  exact .four (by omega) (by omega) (by omega) (by omega) (by omega) (by omega)

theorem WellFormed.stamped {s : List UInt8} (h : WellFormed s) : Stamped (payload s) s := by
  obtain ⟨row, hrow, hf⟩ := h
  simp only [rows, List.mem_cons, List.not_mem_nil, or_false] at hrow
  rcases hrow with rfl | rfl | rfl | rfl | rfl | rfl | rfl | rfl | rfl
  · obtain _ | ⟨ha, _ | _⟩ := hf
    simp only [Range.has_iff, UInt8.toNat_ofNat] at ha
    rw [payload_one]
    exact .one (by omega) (by omega)
  · obtain _ | ⟨ha, _ | ⟨hb, _ | _⟩⟩ := hf
    simp only [Range.has_iff, Range.cont, UInt8.toNat_ofNat] at ha hb
    rw [payload_two]
    exact .two (by omega) (by omega) (by omega) (by omega)
  -- The four rows of three bytes, and the three of four.
  iterate 4
    · obtain _ | ⟨ha, _ | ⟨hb, _ | ⟨hc, _ | _⟩⟩⟩ := hf
      simp only [Range.has_iff, Range.cont, UInt8.toNat_ofNat] at ha hb hc
      exact stamped_payload_three (by omega) (by omega) (by omega) (by omega)
  iterate 3
    · obtain _ | ⟨ha, _ | ⟨hb, _ | ⟨hc, _ | ⟨hd, _ | _⟩⟩⟩⟩ := hf
      simp only [Range.has_iff, Range.cont, UInt8.toNat_ofNat] at ha hb hc hd
      exact stamped_payload_four (by omega) (by omega) (by omega) (by omega) (by omega) (by omega)

theorem Stamped.payload_eq {n : Nat} {s : List UInt8} (h : Stamped n s) : payload s = n := by
  cases h with
  | one hlt ha =>
    rw [payload_one]
    omega
  | two hle hlt ha hb =>
    rw [payload_two]
    omega
  | three hle hlt ha hb hc =>
    rw [payload_three]
    omega
  | four hle hlt ha hb hc hd =>
    rw [payload_four]
    omega

/-- The range of the number decides the row: a second byte below or above the range of its row would
carry the bits of an overlong form, a surrogate or a number beyond 10FFFF. -/
theorem Stamped.wellFormed {n : Nat} {s : List UInt8} (h : Stamped n s) (hn : n.isValidChar) :
    WellFormed s := by
  unfold Nat.isValidChar at hn
  cases h with
  | one hlt ha =>
    refine ⟨⟨⟨0x00, 0x7F⟩, []⟩, by decide, ?_⟩
    simp only [Fits, Row.ranges, List.forall₂_cons, Range.has_iff, UInt8.toNat_ofNat]
    exact ⟨by omega, .nil⟩
  | two hle hlt ha hb =>
    refine ⟨⟨⟨0xC2, 0xDF⟩, [.cont]⟩, by decide, ?_⟩
    simp only [Fits, Row.ranges, List.forall₂_cons, Range.cont, Range.has_iff, UInt8.toNat_ofNat]
    exact ⟨by omega, by omega, .nil⟩
  | three hle hlt ha hb hc =>
    by_cases hlow : n < 0x1000
    · refine ⟨⟨⟨0xE0, 0xE0⟩, [⟨0xA0, 0xBF⟩, .cont]⟩, by decide, ?_⟩
      simp only [Fits, Row.ranges, List.forall₂_cons, Range.cont, Range.has_iff, UInt8.toNat_ofNat]
      exact ⟨by omega, by omega, by omega, .nil⟩
    by_cases hmid : n < 0xD000
    · refine ⟨⟨⟨0xE1, 0xEC⟩, [.cont, .cont]⟩, by decide, ?_⟩
      simp only [Fits, Row.ranges, List.forall₂_cons, Range.cont, Range.has_iff, UInt8.toNat_ofNat]
      exact ⟨by omega, by omega, by omega, .nil⟩
    by_cases hsurrogates : n < 0xD800
    · refine ⟨⟨⟨0xED, 0xED⟩, [⟨0x80, 0x9F⟩, .cont]⟩, by decide, ?_⟩
      simp only [Fits, Row.ranges, List.forall₂_cons, Range.cont, Range.has_iff, UInt8.toNat_ofNat]
      exact ⟨by omega, by omega, by omega, .nil⟩
    · refine ⟨⟨⟨0xEE, 0xEF⟩, [.cont, .cont]⟩, by decide, ?_⟩
      simp only [Fits, Row.ranges, List.forall₂_cons, Range.cont, Range.has_iff, UInt8.toNat_ofNat]
      exact ⟨by omega, by omega, by omega, .nil⟩
  | four hle hlt ha hb hc hd =>
    by_cases hlow : n < 0x40000
    · refine ⟨⟨⟨0xF0, 0xF0⟩, [⟨0x90, 0xBF⟩, .cont, .cont]⟩, by decide, ?_⟩
      simp only [Fits, Row.ranges, List.forall₂_cons, Range.cont, Range.has_iff, UInt8.toNat_ofNat]
      exact ⟨by omega, by omega, by omega, by omega, .nil⟩
    by_cases hmid : n < 0x100000
    · refine ⟨⟨⟨0xF1, 0xF3⟩, [.cont, .cont, .cont]⟩, by decide, ?_⟩
      simp only [Fits, Row.ranges, List.forall₂_cons, Range.cont, Range.has_iff, UInt8.toNat_ofNat]
      exact ⟨by omega, by omega, by omega, by omega, .nil⟩
    · refine ⟨⟨⟨0xF4, 0xF4⟩, [⟨0x80, 0x8F⟩, .cont, .cont]⟩, by decide, ?_⟩
      simp only [Fits, Row.ranges, List.forall₂_cons, Range.cont, Range.has_iff, UInt8.toNat_ofNat]
      exact ⟨by omega, by omega, by omega, by omega, .nil⟩

/-- The encoder writes the one sequence that stands for its character. -/
theorem encodes_iff {s : List UInt8} {c : Char} : Encodes s c ↔ s = encode c := by
  constructor
  · rintro ⟨hw, hpay⟩
    have hs := hw.stamped
    rw [hpay] at hs
    exact hs.unique (stamped_encode c)
  · rintro rfl
    have hs := stamped_encode c
    exact ⟨hs.wellFormed c.valid, hs.payload_eq⟩

end Streaming.Utf8
