import Streaming.Proofs.Utf8.RoundTrip

/-!
# Reports lose nothing

A decoder inside a sequence determines the bytes that it has taken: what completes the sequence
takes the decoder to one character, and a character has one encoding (`Pending.unique`). Therefore
an item stands for one segment only, and the items of a reporting run determine its input
(`reports_determine_input`).
-/

namespace Streaming.Utf8

theorem WellFormed.exists_encodes {s : List UInt8} (h : WellFormed s) : ∃ c, Encodes s c := by
  have hvalid := isValidChar_payload h
  refine ⟨Char.ofNat (payload s), h, ?_⟩
  rw [Char.ofNat, dif_pos hvalid]
  rfl

theorem eq_encode_of_offerAll {s : List UInt8} {c : Char}
    (h : ({} : Decoder).offerAll s = ([.ok c], {})) : s = encode c := by
  have hreport : ({} : Decoder).report s = [c].map .ok := by
    rw [Decoder.report, h]
    rfl
  rw [← report_eq_map_ok_iff.mp hreport, encoded_eq, List.flatMap_singleton]

/-- Only one sequence of bytes leaves a fresh decoder where it is inside a sequence. -/
theorem Pending.unique {v w : List UInt8} {d : Decoder} (hv : Pending v d) (hw : Pending w d) :
    v = w := by
  obtain ⟨t, -, ht⟩ := hv.unfinished
  obtain ⟨c, hc⟩ := ht.exists_encodes
  -- From `d` on, the rest `t` does the same to the decoder, whichever bytes it has taken before.
  have hsame : ({} : Decoder).offerAll (w ++ t) = ({} : Decoder).offerAll (v ++ t) := by
    rw [Decoder.offerAll_append, Decoder.offerAll_append, hv, hw]
  have hwt : w ++ t = encode c := by
    apply eq_encode_of_offerAll
    rw [hsame, hc.offerAll]
  have hvt : v ++ t = encode c := encodes_iff.mp hc
  exact List.append_cancel_right (hvt.trans hwt.symm)

theorem Unfinished.unique {v w : List UInt8} (hv : Unfinished v) (hw : Unfinished w)
    (h : (({} : Decoder).offerAll v).2 = (({} : Decoder).offerAll w).2) : v = w := by
  obtain ⟨d, hd⟩ := hv.exists_pending
  obtain ⟨e, he⟩ := hw.exists_pending
  rw [hd, he] at h
  subst h
  exact hd.unique he

theorem Stands.unique {s t : List UInt8} {item : Item} (hs : Stands s item) (ht : Stands t item) :
    s = t := by
  cases hs with
  | scalar hs =>
    cases ht with
    | scalar ht => rw [encodes_iff.mp hs, encodes_iff.mp ht]
  | invalid _ hv hd _ =>
    cases ht with
    | invalid _ hw he _ => rw [hv.unique hw (hd.trans he.symm)]
  | incomplete _ hv hd =>
    cases ht with
    | incomplete _ hw he => exact hv.unique hw (hd.trans he.symm)

theorem Cuts.eq_of_items {a b : List UInt8} {ss ts : List (List UInt8)} {items : List Item}
    (ha : Cuts a ss items) (hb : Cuts b ts items) : a = b := by
  have hst : ss = ts := by
    have hs := ha.stands
    have ht := hb.stands
    clear ha hb
    induction hs generalizing ts with
    | nil =>
      cases ht
      rfl
    | cons hs _ ih =>
      cases ht with
      | cons ht hts => rw [hs.unique ht, ih hts]
  rw [← ha.flatten, ← hb.flatten, hst]

/-- **Reports lose nothing.** Inputs with the same items are the same, and the bytes of unfinished
sequences that leave a fresh decoder the same are the same. -/
theorem reports_determine_input :
    (∀ a b : List UInt8,
      Pull.elements (Decoding.start .report (Supply.ofList a)) =
        Pull.elements (Decoding.start .report (Supply.ofList b)) ↔ a = b) ∧
    ∀ v w : List UInt8, Unfinished v → Unfinished w →
      ((({} : Decoder).offerAll v).2 = (({} : Decoder).offerAll w).2 ↔ v = w) := by
  constructor
  · intro a b
    rw [Decoding.elements_start, Decoding.elements_start, Supply.elements_ofList,
      Supply.elements_ofList]
    constructor
    · intro h
      obtain ⟨ss, ha, -⟩ := exists_cuts (f := ⟨{}, a⟩) rfl
      obtain ⟨ts, hb, -⟩ := exists_cuts (f := ⟨{}, b⟩) rfl
      rw [← h] at hb
      exact ha.eq_of_items hb
    · rintro rfl
      rfl
  · intro v w hv hw
    constructor
    · exact hv.unique hw
    · rintro rfl
      rfl

/-- Two decoders that both wait for any one continuation byte, and differ in their bits. -/
theorem reports_determine_input_oneByteMissing :
    Unfinished [0xE2, 0x82] ∧ Unfinished [0xC2] ∧
      (({} : Decoder).offerAll [0xE2, 0x82]).2 ≠ (({} : Decoder).offerAll [0xC2]).2 := by
  have hv : Unfinished [0xE2, 0x82] := ⟨[0xAC], by decide, by decide⟩
  have hw : Unfinished [0xC2] := ⟨[0x80], by decide, by decide⟩
  refine ⟨hv, hw, fun h => ?_⟩
  have heq := (reports_determine_input.2 _ _ hv hw).mp h
  exact absurd heq (by decide)

end Streaming.Utf8
