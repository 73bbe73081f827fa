import Streaming.Proofs.Source.Conservation
import Streaming.Proofs.Utf8.Hints

/-!
# Hints that hold in every state

The input of a source stays honest, whatever is done with the source (`Source.kept_honest`), and
what the source has still to give are its pending elements and those of its input. So the hints of
sources are right between all operations, and those of decodings and encodings after all requests
(`hints_are_right`).
-/

namespace Streaming

universe u v w x y z

namespace Source

variable {σ : Type u} {α : Type v} [FinitePull σ α] [HasHint σ] {s t : Source σ α}

theorem honest_of_fetch {answer : Option α} (h : Honest s.input) (hf : s.fetch = (answer, t)) :
    Honest t.input := by
  unfold fetch at hf
  split at hf <;> cases hf
  · exact h
  · exact h.pull

/-- The input stays honest. -/
theorem kept_honest : Kept fun s : Source σ α => Honest s.input where
  fetch_none h hf := honest_of_fetch h hf
  retain h hf := by
    rw [input_retain]
    exact honest_of_fetch h hf
  pass {_ t _} h _ hf := (honest_of_fetch h hf : Honest t.input)
  putBack {_ t _} h _ hf := (honest_of_fetch h hf : Honest t.input)
  handBack h hb := by
    obtain ⟨-, rfl⟩ := Source.handBack_eq_ok hb
    exact h
  settle h := h
  note h _ := h

/-- The pending elements are counted on both sides. -/
theorem sound (h : Honest s.input) : Sound s where
  bounds := by
    rw [elements_eq_remaining, remaining, List.length_append, Nat.add_comm]
    exact h.sound.bounds.plus s.pending.length
  ended {t} hp := by
    have hn : s.next = (none, t) := hp
    unfold next at hn
    split at hn <;> cases hn
    rename_i hf
    rw [elements_eq_remaining, (remaining_of_fetch_none hf).2]

end Source

/-- **Hints are right in every state.** If an input has no pauses and its hint is right after any
number of requests, then so is the hint of a decoding, from whatever decoder it goes on and under
any policy, of the characters of one that does not report errors, and of an encoding, whose buffered
bytes can be counted at any time; and the hint of a source is right after any operations. The bounds
never exceed what a count can be. -/
theorem hints_are_right {ι : Type u} [FinitePull ι UInt8] [HasHint ι] {bytes : ι}
    (hbytes : Honest bytes)
    {κ : Type v} [FinitePull κ (List UInt8)] [HasHint κ] {chunks : κ} (hchunks : Honest chunks)
    {ρ : Type w} [FinitePull ρ Char] [HasHint ρ] {chars : ρ} (hchars : Honest chars)
    {σ : Type x} {α : Type y} [FinitePull σ α] [HasHint σ] {input : σ} (hinput : Honest input) :
    (∀ policy decoder,
      let decoding : Utf8.Decoding ι := { bytes := ⟨bytes, false⟩, policy, decoder }
      Honest decoding ∧ (policy ≠ .report → Honest (⟨decoding⟩ : Utf8.Characters ι))) ∧
    (∀ policy decoder,
      let decoding : Utf8.Decoding (ChunkReader κ UInt8) :=
        { bytes := ⟨{ chunks }, false⟩, policy, decoder }
      Honest decoding ∧ (policy ≠ .report → Honest (⟨decoding⟩ : Utf8.Characters _))) ∧
    Honest ({ chars } : Utf8.Encoding ρ) ∧
    (∀ n, ∃ place,
      let encoded := Pull.answers n ({ chars } : Utf8.Encoding ρ)
      ({ chars } : Utf8.Buffered ρ).answers? n = some (encoded.1, place) ∧
        place.hint? = some (hint encoded.2)) ∧
    ∀ s : Source σ α, Source.Reachable.{x, y, z} input s → Sound s := by
  have hreader : Honest ({ chunks } : ChunkReader κ UInt8) := ChunkReader.honest hchunks
  refine ⟨?bytes, ?chunks, ?chars, ?buffer, ?source⟩
  case bytes =>
    intro policy decoder decoding
    exact ⟨Utf8.Decoding.honest hbytes.latch,
      fun hpolicy => Utf8.Characters.honest hpolicy hbytes.latch⟩
  case chunks =>
    intro policy decoder decoding
    exact ⟨Utf8.Decoding.honest hreader.latch,
      fun hpolicy => Utf8.Characters.honest hpolicy hreader.latch⟩
  case chars => exact Utf8.Encoding.honest hchars
  case buffer =>
    intro n
    obtain ⟨place, hanswers, hplace⟩ := (Utf8.Buffered.Holds.start chars).exists_answers n
    exact ⟨place, hanswers, hplace.hint?_eq⟩
  case source =>
    intro s hs
    exact Source.sound (Source.kept_honest.reachable hinput.latch hs).holds

/-- A supply that claims the largest count, which leaves no room for one more, an encoding with two
bytes buffered, and a source with a pending element. -/
theorem hints_are_right_largestCount :
    let bytes : Supply UInt8 :=
      { Supply.ofList [0x61, 0xE2, 0x82] with claim := some ⟨0, some countLimit⟩ }
    let chunks : Supply (List UInt8) := Supply.ofList [[0x61], [], [0xE2]]
    let chars := Supply.ofList ['a', '€']
    let input := Supply.ofList [5, 6]
    let encoding := (Pull.answers 2 ({ chars } : Utf8.Encoding (Supply Char))).2
    let looked := (Source.ofInput input : Source (Supply Nat) Nat).peek.2
    (Honest bytes ∧ Honest chunks ∧ Honest chars ∧ Honest input) ∧
      Honest (Utf8.Decoding.start .report bytes) ∧ Honest (Utf8.Characters.strict bytes) ∧
      hint (Utf8.Decoding.start .report bytes) = .unknown ∧
      Honest encoding ∧ hint encoding = .exactly 2 ∧
      Sound looked ∧ hint looked = .exactly 2 := by
  intro bytes chunks chars input encoding looked
  have hbytes : Honest bytes := by
    refine Supply.honest (by decide) fun h hclaim n hn => ?_
    cases hclaim
    have hlen : n ≤ countLimit := Nat.le_trans hn (by decide)
    exact ⟨Nat.zero_le n, fun m hm => Option.mem_some_iff.mp hm ▸ hlen, Nat.zero_le _,
      fun m hm => Nat.le_of_eq (Option.mem_some_iff.mp hm).symm⟩
  have hchunks : Honest chunks := Supply.honest_ofList (by decide)
  have hchars : Honest chars := Supply.honest_ofList (by decide)
  have hinput : Honest input := Supply.honest_ofList (by decide)
  obtain ⟨hdecodings, -, hencoding, -, hsources⟩ :=
    hints_are_right hbytes hchunks hchars hinput
  have hpeek : (Source.ofInput input : Source (Supply Nat) Nat).perform.{0, 0} .peek =
      some (.ok (.element (some 5)), looked) := rfl
  have hlooked : Source.Reachable.{0, 0, 0} input looked := .perform .start hpeek
  exact ⟨⟨hbytes, hchunks, hchars, hinput⟩, (hdecodings .report {}).1,
    (hdecodings .strict {}).2 (by decide), by decide, hencoding.answers 2, by decide,
    hsources looked hlooked, by decide⟩

end Streaming
