import Streaming.Proofs.Chunks
import Streaming.Proofs.Utf8.Projections

/-!
# Decoding chunks

Cuts are invisible to a decoding: over chunks it answers and notes the same as over their bytes end
to end. What it asks of the chunks follows from what the uncut run reads. With each item it has
asked for the least number of chunks that hold the bytes pulled so far, and for all chunks with the
item for an unfinished end (`cuts_invisible_and_chunks_late`).
-/

namespace Streaming.Utf8

universe u

/-- How many chunks are asked for to read so many bytes, and perhaps the end after them. -/
def Asks (css : List (List UInt8)) (atEnd : Bool) (bytes chunks : Nat) : Prop :=
  if atEnd then chunks = css.length else IsLeast {m | bytes ≤ (css.take m).flatten.length} chunks

/-- The reader `cut` of chunks reads like the reader `whole` of their bytes end to end. Both have a
decoding inside them. -/
structure ReadsLike {τ υ ε : Type} [FinitePull τ ε] [FinitePull υ ε] (css : List (List UInt8))
    (cutInside : τ → Decoding (ChunkReader (Supply (List UInt8)) UInt8))
    (wholeInside : υ → Decoding (Supply UInt8)) (cut : τ) (whole : υ) : Prop where
  items_eq : Pull.elements cut = Pull.elements whole
  disposals_eq : (cutInside (Pull.collect cut).2).disposals =
    (wholeInside (Pull.collect whole).2).disposals
  /-- With the item at `j`. It stands for an unfinished end if a report has that there. -/
  asks : ∀ j < (Pull.elements whole).length,
    Asks css
      (((Pull.elements (Decoding.start .report (Supply.ofList css.flatten)))[j]?).any isIncomplete)
      (wholeInside (Pull.take (j + 1) whole).2).bytes.inner.given
      (cutInside (Pull.take (j + 1) cut).2).bytes.inner.chunks.given

/-! ## Where a run stands after some items -/

/-- How many of the bytes the first `k` items take that a fresh decoder completes. -/
def taken (bs : List UInt8) (k : Nat) : Nat :=
  bs.length - (Pull.take k (⟨{}, bs⟩ : Batch)).2.bytes.length

theorem taken_le (bs : List UInt8) (k : Nat) : taken bs k ≤ bs.length := Nat.sub_le _ _

namespace Decoding

variable {σ : Type u} [FinitePull σ UInt8] {input : σ} {bs : List UInt8} {k : Nat}

theorem batch_start (p : Policy) (h : Pull.elements input = bs) :
    (start p input).batch = ⟨{}, bs⟩ := by
  rw [batch, start, Latch.elements_mk, h]

/-- A reporting run has pulled the bytes of its items so far and no others. -/
theorem bytes_take_report (h : Pull.elements input = bs)
    (hk : k ≤ (({} : Decoder).offerAll bs).1.length) :
    (Pull.take k (start .report input)).2.bytes = ⟨(Pull.take (taken bs k) input).2, false⟩ := by
  have hf := batch_start .report h
  have hk' : k ≤ (Pull.elements (⟨{}, bs⟩ : Batch)).length := by rwa [Batch.elements_eq]
  obtain ⟨n, hn, -, hbatch, hbytes⟩ := (Reporting.start input).take hf hk'
  rw [start, Latch.elements_mk, h] at hn
  have htaken : taken bs k = n := by
    have hleft : (Pull.take k (⟨{}, bs⟩ : Batch)).2.bytes = bs.drop n := by
      rw [← hbatch, batch, hbytes, start, Pull.elements_take, Latch.elements_mk, h]
      rwa [Latch.elements_mk, h]
    rw [taken, hleft, List.length_drop]
    omega
  rw [hbytes, htaken, start, Latch.snd_take_mk (by rwa [h])]

theorem bytes_take_report_past (h : Pull.elements input = bs)
    (hk : (({} : Decoder).offerAll bs).1.length < k) :
    (Pull.take k (start .report input)).2.bytes = ⟨(Pull.collect input).2, true⟩ := by
  have hpast : (Pull.elements (start .report input).batch).length < k := by
    rwa [batch_start .report h, Batch.elements_eq]
  rw [((Reporting.start input).take_past hpast).2, start, Latch.snd_collect_mk]

theorem bytes_answers_start (p : Policy) (input : σ) {n : Nat}
    (hn : n ≤ (p.items (Pull.elements (start .report input))).length) :
    (Pull.answers n (start p input)).2.bytes = (Pull.take n (start .report input)).2.bytes := by
  have hle := Nat.le_trans hn (p.length_items_le _)
  rw [(answers_start p input n).2.bytes_eq, Policy.reach_of_le hn, Pull.snd_answers_of_le hle]

theorem bytes_take_start (p : Policy) (input : σ) {n : Nat}
    (hn : n ≤ (Pull.elements (start p input)).length) :
    (Pull.take n (start p input)).2.bytes = (Pull.take n (start .report input)).2.bytes := by
  rw [← Pull.snd_answers_of_le hn]
  rw [elements_start_policy] at hn
  exact bytes_answers_start p input hn

end Decoding

namespace Characters

variable {σ ρ : Type u} [FinitePull σ UInt8] [FinitePull ρ UInt8] {a : σ} {b : ρ}

theorem bytes_take (p : Policy) (input : σ) {n : Nat}
    (hn : n ≤ (Pull.elements (⟨.start p input⟩ : Characters σ)).length) :
    (Pull.take n (⟨.start p input⟩ : Characters σ)).2.decoding.bytes =
      (Pull.take n (Decoding.start .report input)).2.bytes := by
  rw [← Pull.snd_answers_of_le hn, answers_mk]
  apply Decoding.bytes_answers_start
  rw [elements_eq, Decoding.elements_start_policy] at hn
  exact Nat.le_trans hn (length_leading_le _)

theorem elements_congr (p : Policy) (h : Pull.elements a = Pull.elements b) :
    Pull.elements (⟨.start p a⟩ : Characters σ) = Pull.elements (⟨.start p b⟩ : Characters ρ) := by
  rw [elements_eq, elements_eq, Decoding.elements_start_congr p h]

theorem disposals_collect_congr (p : Policy) (h : Pull.elements a = Pull.elements b) :
    (Pull.collect (⟨.start p a⟩ : Characters σ)).2.decoding.disposals =
      (Pull.collect (⟨.start p b⟩ : Characters ρ)).2.decoding.disposals := by
  rw [Pull.snd_collect_eq_answers, Pull.snd_collect_eq_answers, elements_congr p h, answers_mk,
    answers_mk, Decoding.disposals_answers_start, Decoding.disposals_answers_start,
    Decoding.elements_start_congr .report h]

end Characters

/-! ## What is asked of the chunks -/

theorem any_isIncomplete_report_iff {d : Decoder} {bs : List UInt8} {j : Nat}
    (hj : j < (d.report bs).length) :
    ((d.report bs)[j]?).any isIncomplete = true ↔ (d.offerAll bs).1.length ≤ j := by
  unfold Decoder.report at hj ⊢
  constructor
  · intro h
    by_contra hlt
    rw [List.getElem?_append_left (Nat.lt_of_not_le hlt),
      List.getElem?_eq_getElem (Nat.lt_of_not_le hlt), Option.any_some,
      isIncomplete_of_mem_offerAll (List.getElem_mem _)] at h
    cases h
  · intro hle
    rw [List.length_append] at hj
    rw [List.getElem?_append_right hle]
    rcases ending_eq (d.offerAll bs).2 with hend | hend
    · rw [hend, List.length_nil] at hj
      omega
    · rw [hend, List.length_singleton] at hj
      have hzero : j - (d.offerAll bs).1.length = 0 := by omega
      rw [hend, hzero]
      rfl

section Chunks

variable (css : List (List UInt8))

theorem elements_report : Pull.elements (Decoding.start .report (Supply.ofList css.flatten)) =
    ({} : Decoder).report css.flatten := by
  rw [Decoding.elements_start, Supply.elements_ofList]

theorem elements_chunks : Pull.elements (ChunkReader.ofList css) =
    Pull.elements (Supply.ofList css.flatten) := by
  rw [ChunkReader.elements_ofList, Supply.elements_ofList]

theorem asks_report {j : Nat}
    (hj : j < (Pull.elements (Decoding.start .report (Supply.ofList css.flatten))).length) :
    Asks css
      (((Pull.elements (Decoding.start .report (Supply.ofList css.flatten)))[j]?).any isIncomplete)
      (Pull.take (j + 1) (Decoding.start .report (Supply.ofList css.flatten))).2.bytes.inner.given
      (Pull.take (j + 1)
        (Decoding.start .report (ChunkReader.ofList css))).2.bytes.inner.chunks.given := by
  rw [elements_report] at hj ⊢
  have hiff := any_isIncomplete_report_iff hj
  have hcut := ChunkReader.elements_ofList css
  have hwhole := Supply.elements_ofList css.flatten
  have hstart := ChunkReader.Frugal.start css
  by_cases hle : j + 1 ≤ (({} : Decoder).offerAll css.flatten).1.length
  · have hflag : ((({} : Decoder).report css.flatten)[j]?).any isIncomplete = false := by
      rw [← Bool.not_eq_true, hiff]
      omega
    have hn := taken_le css.flatten (j + 1)
    have hfrugal := hstart.take (n := taken css.flatten (j + 1)) (by rwa [hcut])
    rw [Nat.zero_add] at hfrugal
    rw [hflag, Decoding.bytes_take_report hcut hle, Decoding.bytes_take_report hwhole hle,
      Supply.given_take hn]
    exact hfrugal.isLeast
  · have hpast := Nat.lt_of_not_le hle
    have hflag : ((({} : Decoder).report css.flatten)[j]?).any isIncomplete = true := by
      rw [hiff]
      omega
    rw [hflag, Decoding.bytes_take_report_past hcut hpast]
    exact hstart.given_collect

theorem readsLike_start (p : Policy) : ReadsLike css id id
    (Decoding.start p (ChunkReader.ofList css)) (Decoding.start p (Supply.ofList css.flatten)) := by
  have hsame := elements_chunks css
  have hitems := Decoding.elements_start_congr p hsame
  refine ⟨hitems, Decoding.disposals_collect_congr p hsame, ?_⟩
  intro j hj
  rw [id, id, Decoding.bytes_take_start p _ hj, Decoding.bytes_take_start p _ (hitems ▸ hj)]
  apply asks_report
  rw [Decoding.elements_start_policy] at hj
  exact Nat.lt_of_lt_of_le hj (p.length_items_le _)

theorem readsLike_characters (p : Policy) : ReadsLike css Characters.decoding Characters.decoding
    ⟨.start p (ChunkReader.ofList css)⟩ ⟨.start p (Supply.ofList css.flatten)⟩ := by
  have hsame := elements_chunks css
  have hitems := Characters.elements_congr p hsame
  refine ⟨hitems, Characters.disposals_collect_congr p hsame, ?_⟩
  intro j hj
  rw [Characters.bytes_take p _ hj, Characters.bytes_take p _ (hitems ▸ hj)]
  apply asks_report
  rw [Characters.elements_eq, Decoding.elements_start_policy] at hj
  exact Nat.lt_of_lt_of_le hj (Nat.le_trans (length_leading_le _) (p.length_items_le _))

end Chunks

/-- **Cuts are invisible, and chunks are asked for late.** Under every policy, and for the readers
of characters, decoding chunks yields the items and notes the errors of decoding their bytes end to
end. With each item, the least number of chunks has been asked for that hold the bytes which the
uncut run has pulled with it, and all of them with the item for an unfinished end. -/
theorem cuts_invisible_and_chunks_late (css : List (List UInt8)) :
    (∀ p, ReadsLike css id id
      (Decoding.start p (ChunkReader.ofList css)) (Decoding.start p (Supply.ofList css.flatten))) ∧
    ReadsLike css Characters.decoding Characters.decoding
      (Characters.strict (ChunkReader.ofList css))
      (Characters.strict (Supply.ofList css.flatten)) ∧
    ReadsLike css Characters.decoding Characters.decoding
      (Characters.lenient (ChunkReader.ofList css))
      (Characters.lenient (Supply.ofList css.flatten)) :=
  ⟨readsLike_start css, readsLike_characters css .strict, readsLike_characters css .lenient⟩

end Streaming.Utf8
