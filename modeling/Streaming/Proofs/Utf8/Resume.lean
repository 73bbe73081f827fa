import Streaming.Proofs.Utf8.Run
import Streaming.Utf8.Stored

/-!
# Resuming a decoding

A decoder is all that has to be kept between two pieces of input. Decoding in pieces yields the
items of the whole input once the end of a piece that is not the last is no error any more, and a
run that is stopped goes on from its decoder with the bytes that it has not pulled
(`resume_invisible`).
-/

namespace Streaming.Utf8

/-- The items without the error of the end, if it is the last of them. -/
def withoutEnd (items : List Item) : List Item :=
  match items.getLast? with
  | some item => if isIncomplete item then items.dropLast else items
  | none => items

/-! ## Items of the bytes and of their end -/

theorem withoutEnd_append_ending {items : List Item} (h : ∀ item ∈ items, isIncomplete item = false)
    (d : Decoder) : withoutEnd (items ++ d.ending) = items := by
  obtain hend | hend := ending_eq d
  · rw [hend, List.append_nil]
    unfold withoutEnd
    split
    · rename_i item hlast
      rw [h item (List.mem_of_getLast? hlast)]
      rfl
    · rfl
  · simp [hend, withoutEnd, isIncomplete]

theorem filter_ending (d : Decoder) : d.ending.filter isIncomplete = d.ending := by
  obtain hend | hend := ending_eq d <;> simp [hend, isIncomplete]

theorem filter_take_eq_nil {items : List Item} (h : ∀ item ∈ items, isIncomplete item = false)
    (k : Nat) : (items.take k).filter isIncomplete = [] := by
  refine List.filter_eq_nil_iff.mpr fun item hm => ?_
  simp [h item (List.mem_of_mem_take hm)]

/-! ## Resuming -/

namespace Decoding

/-- A run that is stopped goes on from its decoder with the bytes that it has not pulled. The error
of the end, if it was among the items, is reported again. -/
theorem elements_resume_take (d : Decoder) (bs : List UInt8) (k : Nat) {t : Decoding (Supply UInt8)}
    (ht : (Pull.take k (resume d (Supply.ofList bs))).2 = t) :
    Pull.elements (resume t.decoder (Supply.ofList (bs.drop t.bytes.inner.given))) =
      (d.report bs).drop k ++ ((d.report bs).take k).filter isIncomplete := by
  have hs := Reporting.resume d (Supply.ofList bs)
  have hserves : Serves bs (resume d (Supply.ofList bs)).bytes := Serves.ofList bs
  have hbytes : Pull.elements (resume d (Supply.ofList bs)).bytes = bs := hserves.elements_eq
  have hitems : Pull.elements (resume d (Supply.ofList bs)).batch = (d.offerAll bs).1 := by
    rw [Batch.elements_eq, batch, hbytes]
    rfl
  have hnone : ∀ item ∈ (d.offerAll bs).1, isIncomplete item = false :=
    fun _ => isIncomplete_of_mem_offerAll
  rw [elements_resume, Supply.elements_ofList]
  by_cases hk : k ≤ (d.offerAll bs).1.length
  · obtain ⟨-, -, hrep, hbatch, -⟩ := hs.take rfl (hitems ▸ hk)
    obtain ⟨-, hdrop⟩ := hs.drop_given hserves rfl (hitems ▸ hk)
    rw [ht] at hrep hbatch hdrop
    have hleft : Pull.elements t.bytes = bs.drop t.bytes.inner.given := by
      rw [hdrop, ← hbatch]
      rfl
    have hlen : k ≤ (d.report bs).length := by
      rw [Decoder.report, List.length_append]
      omega
    have hall : Pull.elements (resume d (Supply.ofList bs)) = d.report bs := by
      rw [elements_resume, Supply.elements_ofList]
    rw [← hleft, ← hrep.elements_eq, ← ht, Pull.elements_take (by rwa [hall]), hall]
    have hcut : (d.report bs).take k = (d.offerAll bs).1.take k := by
      rw [Decoder.report, List.take_append_of_le_length hk]
    rw [hcut, filter_take_eq_nil hnone, List.append_nil]
  · have hpast : (Pull.elements (resume d (Supply.ofList bs)).batch).length < k := by
      rw [hitems]
      omega
    have hdec : t.decoder = (d.offerAll bs).2 := by
      rw [← ht, (hs.take_past hpast).1, hbytes]
      rfl
    have hgiven : t.bytes.inner.given = bs.length := by
      rw [← ht]
      exact hs.given_past hserves hpast
    have hlen : (d.report bs).length ≤ k := by
      have := length_ending_le (d.offerAll bs).2
      rw [Decoder.report, List.length_append]
      omega
    have hitems := filter_take_eq_nil hnone (d.offerAll bs).1.length
    rw [List.take_length] at hitems
    rw [hgiven, List.drop_length, List.drop_of_length_le hlen, List.take_of_length_le hlen,
      Decoder.report, Decoder.report, List.filter_append, hitems, filter_ending, hdec]
    rfl

end Decoding

/-! ## Pieces -/

namespace Piece

theorem items_decode (d : Decoder) (bs : List UInt8) : (decode d bs).items = d.report bs := by
  show Pull.elements (Decoding.resume d (Supply.ofList bs)) = _
  rw [Decoding.elements_resume, Supply.elements_ofList]

theorem decoder_decode (d : Decoder) (bs : List UInt8) :
    (decode d bs).decoder = (d.offerAll bs).2 := by
  show (Pull.collect (Decoding.resume d (Supply.ofList bs))).2.decoder = _
  rw [Decoding.decoder_collect_resume, Supply.elements_ofList]

/-- The items of the pieces, of which only the last is taken to end the input. -/
def joined : List Piece → List Item
  | [] => []
  | [p] => p.items
  | p :: q :: ps => withoutEnd p.items ++ joined (q :: ps)

theorem joined_decodePieces (d : Decoder) (bs : List UInt8) (rest : List (List UInt8)) :
    joined (decodePieces d (bs :: rest)) = d.report (bs :: rest).flatten := by
  induction rest generalizing d bs with
  | nil =>
    rw [List.flatten_singleton]
    exact items_decode d bs
  | cons cs rest ih =>
    have hrec := ih (decode d bs).decoder cs
    have hfront : withoutEnd (decode d bs).items = (d.offerAll bs).1 := by
      rw [items_decode]
      exact withoutEnd_append_ending (fun _ => isIncomplete_of_mem_offerAll) _
    have hjoin : joined (decodePieces d (bs :: cs :: rest)) =
        withoutEnd (decode d bs).items ++
          joined (decodePieces (decode d bs).decoder (cs :: rest)) := rfl
    rw [hjoin, hrec, hfront, decoder_decode, ← Decoder.report_append]
    rfl

theorem decoder_getLast?_decodePieces (d : Decoder) (bs : List UInt8) (rest : List (List UInt8)) :
    (decodePieces d (bs :: rest)).getLast?.map decoder =
      some (d.offerAll (bs :: rest).flatten).2 := by
  induction rest generalizing d bs with
  | nil =>
    rw [List.flatten_singleton]
    exact congrArg some (decoder_decode d bs)
  | cons cs rest ih =>
    have hlast : (decodePieces d (bs :: cs :: rest)).getLast? =
        (decodePieces (decode d bs).decoder (cs :: rest)).getLast? := rfl
    have hall := Decoder.offerAll_append d bs (cs :: rest).flatten
    rw [← List.flatten_cons] at hall
    rw [hlast, ih, decoder_decode, hall]

end Piece

/-- **Resuming is invisible.** From any decoder, the items of the pieces of an input, the end of a
piece counting as an error only in the last, are those of the whole input, and the last piece leaves
the decoder that the whole input leaves. And wherever a run is stopped, its decoder with the bytes
that it has not pulled yields the items that the run would have yielded, the error of the end being
reported once more if it was among those taken. -/
theorem resume_invisible (d : Decoder) :
    (∀ (bs : List UInt8) (rest : List (List UInt8)),
      Piece.joined (decodePieces d (bs :: rest)) = (Piece.decode d (bs :: rest).flatten).items ∧
      (decodePieces d (bs :: rest)).getLast?.map Piece.decoder =
        some (Piece.decode d (bs :: rest).flatten).decoder) ∧
    ∀ (bs : List UInt8) (k : Nat),
      let run := Decoding.resume d (Supply.ofList bs)
      let t := (Pull.take k run).2
      Pull.elements (Decoding.resume t.decoder (Supply.ofList (bs.drop t.bytes.inner.given))) =
        (Pull.elements run).drop k ++ ((Pull.elements run).take k).filter isIncomplete := by
  refine ⟨fun bs rest => ⟨?_, ?_⟩, fun bs k => ?_⟩
  · rw [Piece.joined_decodePieces, Piece.items_decode]
  · rw [Piece.decoder_getLast?_decodePieces, Piece.decoder_decode]
  · intro run t
    rw [Decoding.elements_resume d, Supply.elements_ofList bs]
    exact Decoding.elements_resume_take d bs k rfl

end Streaming.Utf8
