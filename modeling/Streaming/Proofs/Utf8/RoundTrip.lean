import Streaming.Proofs.Utf8.Stamped
import Streaming.Proofs.Utf8.Strict

/-!
# Encoding and decoding are inverse

What is encoded is decoded to the same characters under every policy, with no error and nothing left
pending; what is decoded without an error is encoded to the same bytes; and of any other bytes, the
characters before the first error are encoded to the bytes before it (`encode_decode_inverse`).
-/

namespace Streaming.Utf8

universe u

namespace Encoding

variable {σ : Type u} [FinitePull σ Char]

theorem elements_buffered (chars : σ) (bs : List UInt8) :
    Pull.elements (⟨chars, bs⟩ : Encoding σ) = bs ++ Pull.elements (⟨chars, []⟩ : Encoding σ) := by
  induction bs with
  | nil => rfl
  | cons b bs ih =>
    have hp : Pull.pull (⟨chars, b :: bs⟩ : Encoding σ) = (some b, ⟨chars, bs⟩) := rfl
    rw [Pull.elements_of_some hp, ih, List.cons_append]

theorem pull_of_chars_none {chars others : σ} (h : Pull.pull chars = (none, others)) :
    Pull.pull (⟨chars, []⟩ : Encoding σ) = (none, ⟨others, []⟩) := by
  show next _ = _
  simp only [next, h]

/-- A character that has been pulled is answered with its first byte. -/
theorem pull_of_chars_some {chars others : σ} {c : Char}
    (h : Pull.pull chars = (some c, others)) : ∃ b bs, encode c = b :: bs ∧
      Pull.pull (⟨chars, []⟩ : Encoding σ) = (some b, ⟨others, bs⟩) := by
  obtain ⟨b, bs, hc⟩ := List.exists_cons_of_ne_nil (encode_ne_nil c)
  refine ⟨b, bs, hc, ?_⟩
  show next _ = _
  simp only [next, h, hc, List.head?_cons, List.tail_cons]

/-- An encoding yields the bytes of its characters, one character after the other. -/
theorem elements_mk (chars : σ) :
    Pull.elements (⟨chars, []⟩ : Encoding σ) = (Pull.elements chars).flatMap encode := by
  induction chars using Pull.collect.induct with
  | case1 s t h =>
    rw [Pull.elements_of_none (pull_of_chars_none h), Pull.elements_of_none h, List.flatMap_nil]
  | case2 s c t h ih =>
    obtain ⟨b, bs, hc, hp⟩ := pull_of_chars_some h
    rw [Pull.elements_of_some hp, elements_buffered, ih, Pull.elements_of_some h,
      List.flatMap_cons, hc, List.cons_append]

end Encoding

/-- The bytes that the characters are encoded to. -/
def encoded (cs : List Char) : List UInt8 :=
  Pull.elements ({ chars := Supply.ofList cs } : Encoding (Supply Char))

theorem encoded_eq (cs : List Char) : encoded cs = cs.flatMap encode := by
  rw [encoded, Encoding.elements_mk, Supply.elements_ofList]

theorem encoded_nil : encoded [] = [] := encoded_eq []

theorem encoded_cons (c : Char) (cs : List Char) : encoded (c :: cs) = encode c ++ encoded cs := by
  rw [encoded_eq, encoded_eq, List.flatMap_cons]

theorem wellFormed_encode (c : Char) : WellFormed (encode c) :=
  (encodes_iff.mpr rfl : Encodes (encode c) c).1

theorem encoded_of_encodes {qs : List (List UInt8)} {cs : List Char}
    (h : List.Forall₂ Encodes qs cs) : encoded cs = qs.flatten := by
  rw [encoded_eq]
  induction h with
  | nil => rfl
  | cons hs _ ih => rw [List.flatMap_cons, List.flatten_cons, ih, encodes_iff.mp hs]

/-- A fresh decoder takes the bytes of characters for these, and is fresh again. -/
theorem offerAll_encoded (cs : List Char) :
    ({} : Decoder).offerAll (encoded cs) = (cs.map .ok, {}) := by
  rw [encoded_eq]
  induction cs with
  | nil => rfl
  | cons c cs ih =>
    rw [List.flatMap_cons, Decoder.offerAll_append, (encodes_iff.mpr rfl).offerAll, ih]
    rfl

theorem report_encoded (cs : List Char) : ({} : Decoder).report (encoded cs) = cs.map .ok := by
  rw [Decoder.report, offerAll_encoded]
  exact List.append_nil _

theorem Cuts.encoded_eq {bs : List UInt8} {ss : List (List UInt8)} {cs : List Char}
    (h : Cuts bs ss (cs.map .ok)) : encoded cs = bs := by
  have hs : List.Forall₂ Encodes ss cs := by
    refine (List.forall₂_map_right_iff.mp h.stands).imp ?_
    intro s c hsc
    cases hsc with
    | scalar hs => exact hs
  rw [encoded_of_encodes hs, h.flatten]

theorem decoder_collect_encoded (p : Policy) (cs : List Char) :
    (Pull.collect (Decoding.start p (Supply.ofList (encoded cs)))).2.decoder = {} := by
  have hbatch : (Decoding.start p (Supply.ofList (encoded cs))).batch = ⟨{}, encoded cs⟩ := by
    rw [Decoding.batch, Decoding.start, Latch.elements_mk, Supply.elements_ofList]
  have hoks : ∀ item ∈ Pull.elements (⟨{}, encoded cs⟩ : Batch), ∃ c, item = .ok c := by
    intro item hitem
    rw [Batch.elements_eq, offerAll_encoded] at hitem
    obtain ⟨c, -, rfl⟩ := List.mem_map.mp hitem
    exact ⟨c, rfl⟩
  rw [Decoding.decoder_collect_of_batch rfl hbatch fun _ => hoks, offerAll_encoded]

/-- Bytes that are reported without an error are those of the characters. -/
theorem report_eq_map_ok_iff {bs : List UInt8} {cs : List Char} :
    ({} : Decoder).report bs = cs.map .ok ↔ encoded cs = bs := by
  constructor
  · intro h
    obtain ⟨ss, hcuts, -⟩ := exists_cuts (f := ⟨{}, bs⟩) rfl
    rw [h] at hcuts
    exact hcuts.encoded_eq
  · rintro rfl
    exact report_encoded cs

theorem encoded_leading (bs : List UInt8) :
    encoded (leading (({} : Decoder).report bs)) <+: bs := by
  obtain ⟨ss, hcuts, -⟩ := exists_cuts (f := ⟨{}, bs⟩) rfl
  obtain ⟨qs, rest, hbs, hqs, -⟩ := hcuts.leading
  rw [encoded_of_encodes hqs]
  exact ⟨rest, hbs.symm⟩

/-- **Encoding and decoding are inverse.** What is encoded is decoded under every policy, by the
readers of characters too, and leaves nothing pending; bytes are reported as characters alone
exactly if they are their encoding; and what a strict reader takes from any bytes is encoded to the
first of these. -/
theorem encode_decode_inverse :
    (∀ cs : List Char,
      (∀ p : Policy,
        let run := Decoding.start p (Supply.ofList (encoded cs))
        Pull.elements run = cs.map .ok ∧ (Pull.collect run).2.decoder = {}) ∧
      Pull.elements (Characters.strict (Supply.ofList (encoded cs))) = cs ∧
      Pull.elements (Characters.lenient (Supply.ofList (encoded cs))) = cs) ∧
    (∀ (bs : List UInt8) (cs : List Char),
      Pull.elements (Decoding.start .report (Supply.ofList bs)) = cs.map .ok ↔ encoded cs = bs) ∧
    ∀ bs : List UInt8, encoded (Pull.elements (Characters.strict (Supply.ofList bs))) <+: bs := by
  refine ⟨fun cs => ⟨fun p => ⟨?_, decoder_collect_encoded p cs⟩, ?_, ?_⟩, fun bs cs => ?_,
    fun bs => ?_⟩
  · rw [Decoding.elements_start_items, Supply.elements_ofList, report_encoded, Policy.items_map_ok]
  · rw [Characters.elements_strict, Supply.elements_ofList, report_encoded, leading_map_ok]
  · rw [Characters.lenient, Characters.elements_eq, Decoding.elements_start_items,
      Supply.elements_ofList, report_encoded, Policy.items_map_ok, leading_map_ok]
  · rw [Decoding.elements_start, Supply.elements_ofList]
    exact report_eq_map_ok_iff
  · rw [Characters.elements_strict, Supply.elements_ofList]
    exact encoded_leading bs

end Streaming.Utf8
