import Streaming.Proofs.Utf8.Projections
import Streaming.Proofs.Utf8.RoundTrip

/-!
# Interrupted sequences

A decoder inside a sequence takes continuation bytes only, and a fresh one takes none of these. A
character that follows an unfinished sequence is therefore refused byte by byte: its first byte
together with the sequence, and each of the others on its own. Then the decoder is fresh again, so
that one character at most is lost to the bytes before it (`interruption_costs_one_character`).
-/

namespace Streaming.Utf8

/-- The errors of bytes of which a decoder refuses the first, and a fresh one each of the others. -/
def refusals (d : Decoder) : List UInt8 → List Item
  | [] => []
  | b :: bs => .error (.invalidByte b d) :: bs.map fun b => .error (.invalidByte b {})

theorem map_softened_refusals (d : Decoder) (bs : List UInt8) :
    (refusals d bs).map softened = List.replicate bs.length replacement := by
  cases bs with
  | nil => rfl
  | cons b bs =>
    rw [refusals, List.map_cons, List.map_map, List.length_cons, List.replicate_succ]
    exact congrArg _ (List.map_const' ..)

theorem map_softened_ok (cs : List Char) : (cs.map Except.ok).map softened = cs := by
  rw [List.map_map]
  exact List.map_id cs

/-! ## Refused bytes -/

theorem offer_cont {b : UInt8} (hb : Range.cont.Has b) :
    ({} : Decoder).offer b = (some (.error (.invalidByte b {})), {}) := by
  have hj : Decoder.judge {} b = .refused := by
    refine judge_ready_refused ?_ 0
    intro row hrow hlead
    exact not_cont_of_lead hrow hlead hb
  simp [Decoder.offer, hj]

theorem offerAll_conts {bs : List UInt8} (h : ∀ b ∈ bs, Range.cont.Has b) :
    ({} : Decoder).offerAll bs = (bs.map fun b => .error (.invalidByte b {}), {}) := by
  induction bs with
  | nil => rfl
  | cons b bs ih =>
    have hb := offer_cont (h b (List.mem_cons_self ..))
    have hbs := ih fun b' hb' => h b' (List.mem_cons_of_mem _ hb')
    rw [Decoder.offerAll_cons_of_some hb, hbs]
    rfl

section Inside

variable {row : Row} {done : List Range} {r : Range} {rest : List Range} {v : List UInt8}
  {d : Decoder} (h : Inside row done r rest v d)

include h

theorem Inside.offer_lead {row' : Row} (hrow : row' ∈ rows) {b : UInt8} (hb : row'.lead.Has b) :
    d.offer b = (some (.error (.invalidByte b d)), {}) := by
  have hout : ¬ r.Has b := by
    intro hr
    exact not_cont_of_lead hrow hb (cont_of_mem_conts h.mem h.mem_conts hr)
  simp [Decoder.offer, h.judge_refused hout]

/-- A decoder inside a sequence refuses every byte of the next one. -/
theorem Inside.offerAll_wellFormed {s : List UInt8} (hs : WellFormed s) :
    d.offerAll s = (refusals d s, {}) := by
  cases s with
  | nil => exact absurd hs not_wellFormed_nil
  | cons b conts =>
    obtain ⟨row', hrow, hb, hfits⟩ := hs.exists_row
    have hconts : ∀ c ∈ conts, Range.cont.Has c := by
      intro c hc
      obtain ⟨i, hi, rfl⟩ := List.getElem_of_mem hc
      have hi' : i < row'.conts.length := hfits.length_eq ▸ hi
      exact cont_of_mem_conts hrow (List.getElem_mem hi') (hfits.get hi' hi)
    rw [Decoder.offerAll_cons_of_some (h.offer_lead hrow hb), offerAll_conts hconts]
    rfl

end Inside

/-! ## Text after any bytes -/

section After

variable {a : List UInt8}

/-- Between sequences, text is reported as it is. -/
theorem report_append_of_ready (h : (({} : Decoder).offerAll a).2.isReady = true) (cs : List Char) :
    ({} : Decoder).report (a ++ encoded cs) = ({} : Decoder).report a ++ cs.map .ok := by
  obtain ⟨-, v, -, -, hv⟩ := exists_pending a
  rcases hv.inside with ⟨-, hfresh⟩ | ⟨row, done, r, rest, hin⟩
  · have ha : ({} : Decoder).report a = (({} : Decoder).offerAll a).1 := by
      rw [Decoder.report, hfresh]
      exact List.append_nil _
    rw [Decoder.report_append, hfresh, report_encoded, ha]
  · rw [Decoder.isReady, hin.state] at h
    cases h

/-- Inside a sequence, the next character is refused, and what is behind it is reported as it is. -/
theorem report_append_of_not_ready (h : (({} : Decoder).offerAll a).2.isReady = false) (c : Char)
    (cs : List Char) :
    ∃ items,
      ({} : Decoder).report a = items ++ [.error (.incomplete (({} : Decoder).offerAll a).2)] ∧
      ({} : Decoder).report (a ++ encoded (c :: cs)) =
        items ++ refusals (({} : Decoder).offerAll a).2 (encode c) ++ cs.map .ok := by
  obtain ⟨-, v, -, -, hv⟩ := exists_pending a
  rcases hv.inside with ⟨-, hfresh⟩ | ⟨row, done, r, rest, hin⟩
  · rw [hfresh] at h
    cases h
  · refine ⟨(({} : Decoder).offerAll a).1, ?_, ?_⟩
    · rw [Decoder.report, Decoder.ending, Decoder.finish?, hin.state]
      rfl
    · rw [Decoder.report_append, encoded_cons, Decoder.report_append,
        hin.offerAll_wellFormed (wellFormed_encode c), report_encoded, List.append_assoc]

end After

/-- **An interruption costs one character.** If some bytes leave a fresh decoder between sequences,
text behind them is read as it is. If they leave it inside a sequence, each byte of the next
character is an error, the first of them in place of the error that the end would have been, and the
text behind that character is read as it is. -/
theorem interruption_costs_one_character (a : List UInt8) (c : Char) (cs : List Char) :
    let lenient (bs : List UInt8) := Pull.elements (Characters.lenient (Supply.ofList bs))
    let report (bs : List UInt8) := Pull.elements (Decoding.start .report (Supply.ofList bs))
    let after := (({} : Decoder).offerAll a).2
    if after.isReady then
      lenient (a ++ encoded (c :: cs)) = lenient a ++ c :: cs ∧
        report (a ++ encoded (c :: cs)) = report a ++ (c :: cs).map .ok
    else
      lenient (a ++ encoded (c :: cs)) =
          lenient a ++ List.replicate ((encoded [c]).length - 1) replacement ++ cs ∧
        ∃ items, report a = items ++ [.error (.incomplete after)] ∧
          report (a ++ encoded (c :: cs)) =
            items ++ refusals after (encoded [c]) ++ cs.map .ok := by
  intro lenient report after
  have hlenient : ∀ bs, lenient bs = (report bs).map softened := by
    intro bs
    exact Characters.elements_lenient _
  have hreport : ∀ bs, report bs = ({} : Decoder).report bs := Decoding.elements_report_ofList
  have hone : encoded [c] = encode c := by rw [encoded_eq, List.flatMap_singleton]
  split
  · rename_i hready
    have hall := report_append_of_ready hready (c :: cs)
    rw [← hreport, ← hreport] at hall
    refine ⟨?_, hall⟩
    rw [hlenient, hlenient, hall, List.map_append, map_softened_ok]
  · rename_i hready
    rw [Bool.not_eq_true] at hready
    obtain ⟨items, ha, hall⟩ := report_append_of_not_ready hready c cs
    rw [← hreport] at ha hall
    rw [hone]
    refine ⟨?_, items, ha, hall⟩
    -- One replacement stands for the sequence and for the first byte of the character.
    obtain ⟨n, hn⟩ := Nat.exists_eq_add_one_of_ne_zero fun h =>
      Encoding.encode_ne_nil c (List.eq_nil_of_length_eq_zero h)
    rw [hlenient, hlenient, hall, ha, List.map_append, List.map_append, List.map_append,
      map_softened_ok, map_softened_refusals, hn, Nat.add_sub_cancel, List.replicate_succ]
    simp [softened]

end Streaming.Utf8
