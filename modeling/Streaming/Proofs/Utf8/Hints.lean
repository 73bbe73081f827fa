import Streaming.Proofs.Hint
import Streaming.Proofs.Utf8.Buffered
import Streaming.Proofs.Utf8.Forged
import Streaming.Proofs.Utf8.Projections

/-!
# The hints of decodings and encodings

A decoding has no more items to give than there are bytes and one, whatever its policy and from
whatever decoder it goes on (`Decoding.length_elements_le`); an encoding gives one to four bytes for
each character, behind those it has buffered (`Encoding.elements_eq`). Requests of a decoding are
requests for bytes and keep its policy (`Decoding.pull_keeps`), and an empty answer ends it
(`Decoding.finished_of_next_none`). So both are honest if their inputs are (`Decoding.honest`,
`Encoding.honest`), as are the characters of a decoding that does not report errors
(`Characters.honest`).
-/

namespace Streaming.Utf8

universe u

/-! ## Decodings -/

namespace Decoding

variable {σ : Type u} [FinitePull σ UInt8] {s t : Decoding σ}

/-- At most one item for each byte, and one for the end of the input. -/
theorem length_elements_le (hs : s.finished = false) :
    (Pull.elements s).length ≤ (Pull.elements s.bytes).length + 1 := by
  rw [elements_of_batch hs rfl]
  refine Nat.le_trans (Policy.length_items_le _ _) (Nat.le_trans (Decoder.length_report_le _ _) ?_)
  exact Nat.add_le_add_left (length_ending_le _) _

/-- One request asks for some bytes, and then answers with a character, with what becomes of an
error, or for the last time. -/
theorem pull_cases (hs : s.finished = false) :
    ∃ n decoder disposals,
      let u := { s with bytes := (Pull.answers n s.bytes).2, decoder, disposals }
      (∃ c, Pull.pull s = (some (.ok c), u)) ∨
        (∃ e, Pull.pull s = (some (s.policy.apply e), { u with finished := s.policy == .strict })) ∨
        ∃ last, Pull.pull s = (last, { u with finished := true }) := by
  rw [pull_eq_advance hs]
  obtain ⟨first, f, hnext⟩ : ∃ first f, s.batch.next = (first, f) := ⟨_, _, rfl⟩
  cases first with
  | some item =>
    obtain ⟨n, hle, -, hadv⟩ := advance_of_some hnext
    rw [hadv, ← Pull.snd_answers_of_le hle]
    cases item with
    | ok c => exact ⟨n, f.decoder, s.disposals, .inl ⟨c, rfl⟩⟩
    | error e =>
      refine ⟨n, f.decoder, s.disposals ++ [⟨s.policy, e⟩], .inr (.inl ⟨e, ?_⟩)⟩
      rw [answer, answerError, hs, Bool.false_or]
  | none =>
    rw [advance_of_none hnext, Pull.snd_collect_eq_answers, finish]
    split
    · exact ⟨_, f.decoder, s.disposals, .inr (.inr ⟨none, rfl⟩)⟩
    · exact ⟨_, f.decoder, _, .inr (.inr ⟨_, rfl⟩)⟩

/-- A request keeps the policy, and asks for some bytes. -/
theorem pull_keeps (s : Decoding σ) : (Pull.pull s).2.policy = s.policy ∧
    ∃ n, (Pull.pull s).2.bytes = (Pull.answers n s.bytes).2 := by
  cases hs : s.finished with
  | true =>
    rw [pull_of_finished hs]
    exact ⟨rfl, 0, rfl⟩
  | false =>
    obtain ⟨n, decoder, disposals, ⟨c, hp⟩ | ⟨e, hp⟩ | ⟨last, hp⟩⟩ := pull_cases hs <;> rw [hp] <;>
      exact ⟨rfl, n, rfl⟩

/-- An error among the items is the end of a decoding that does not report errors. -/
theorem finished_of_error {e : DecodeError} (hpolicy : s.policy ≠ .report)
    (h : Pull.pull s = (some (.error e), t)) : t.finished = true := by
  cases hs : s.finished with
  | true =>
    rw [pull_of_finished hs] at h
    cases h
  | false =>
    obtain ⟨n, decoder, disposals, ⟨c, hp⟩ | ⟨err, hp⟩ | ⟨last, hp⟩⟩ := pull_cases hs <;>
      rw [hp, Prod.mk.injEq] at h <;> obtain ⟨hitem, rfl⟩ := h
    · cases hitem
    · cases hpol : s.policy with
      | strict => rfl
      | lenient =>
        rw [hpol] at hitem
        cases hitem
      | report => exact absurd hpol hpolicy
    · rfl

variable [HasHint σ]

/-- The hint is right, also where some of the items are not counted. -/
theorem bounds (h : Honest s.bytes) {n : Nat} (hn : n ≤ (Pull.elements s).length) :
    (hint s).Bounds n := by
  show (if s.finished then Hint.exactly 0 else ((hint s.bytes).plus 1).lossy).Bounds _
  split <;> rename_i hs
  · rw [Pull.elements_of_none (pull_of_finished hs)] at hn
    rw [Nat.le_zero.mp hn]
    exact .exactly (Nat.zero_le _)
  · have hitems := length_elements_le (Bool.eq_false_iff.mpr hs)
    exact (h.sound.bounds.plus 1).lossy (Nat.le_trans hn hitems)

theorem honest_bytes_pull (h : Honest s.bytes) : Honest (Pull.pull s).2.bytes := by
  obtain ⟨n, hn⟩ := (pull_keeps s).2
  rw [hn]
  exact h.answers n

theorem honest (h : Honest s.bytes) : Honest s :=
  .of_kept (P := fun s => Honest s.bytes)
    (fun h => ⟨bounds h (Nat.le_refl _),
      fun hp => Pull.elements_of_none (pull_of_finished (finished_of_next_none hp))⟩)
    honest_bytes_pull h

end Decoding

/-! ## Plain characters -/

namespace Characters

variable {σ : Type u} [FinitePull σ UInt8] {s t : Characters σ}

theorem finished_of_none (hpolicy : s.decoding.policy ≠ .report) (h : Pull.pull s = (none, t)) :
    t.decoding.finished = true := by
  rw [pull_eq, next] at h
  split at h <;> rename_i hn <;> cases h
  · exact Decoding.finished_of_next_none hn
  · exact Decoding.finished_of_error hpolicy hn

/-- An empty answer is repeated, and nothing is asked for it. -/
theorem pull_of_none (hpolicy : s.decoding.policy ≠ .report) (h : Pull.pull s = (none, t)) :
    Pull.pull t = (none, t) := by
  have hfin := Decoding.pull_of_finished (finished_of_none hpolicy h)
  rw [pull_eq, next, ← Decoding.pull_eq, hfin]

variable [HasHint σ]

theorem sound (hpolicy : s.decoding.policy ≠ .report) (h : Honest s.decoding.bytes) : Sound s where
  bounds := by
    refine Decoding.bounds h ?_
    rw [elements_eq]
    exact length_leading_le _
  ended {t} hp := Pull.elements_of_none (pull_of_none hpolicy hp)

/-- Plain characters end at an error that is an item; they are those of a decoding that does not
report errors. -/
theorem honest (hpolicy : s.decoding.policy ≠ .report) (h : Honest s.decoding.bytes) :
    Honest s := by
  refine .of_kept (P := fun s => s.decoding.policy ≠ .report ∧ Honest s.decoding.bytes)
    (fun h => sound h.1 h.2) ?_ ⟨hpolicy, h⟩
  rintro s ⟨hpol, hb⟩
  rw [pull_mk, (Decoding.pull_keeps _).1]
  exact ⟨hpol, Decoding.honest_bytes_pull hb⟩

end Characters

/-! ## Encodings -/

theorem length_flatMap_encode (cs : List Char) :
    cs.length ≤ (cs.flatMap encode).length ∧ (cs.flatMap encode).length ≤ cs.length * 4 := by
  induction cs with
  | nil => simp
  | cons c cs ih =>
    have hpos := List.length_pos_iff.mpr (Encoding.encode_ne_nil c)
    have hle := length_encode_le c
    rw [List.flatMap_cons, List.length_append, List.length_cons]
    omega

namespace Encoding

variable {σ : Type u} [FinitePull σ Char] {s t : Encoding σ}

theorem elements_eq (s : Encoding σ) :
    Pull.elements s = s.buffered ++ (Pull.elements s.chars).flatMap encode := by
  rw [← elements_mk, ← elements_buffered]

theorem pull_chars (s : Encoding σ) :
    (Pull.pull s).2.chars = s.chars ∨ (Pull.pull s).2.chars = (Pull.pull s.chars).2 := by
  show s.next.2.chars = _ ∨ s.next.2.chars = _
  unfold next
  split
  · exact .inl rfl
  · split <;> rename_i h <;> rw [h] <;> exact .inr rfl

theorem chars_of_none (h : Pull.pull s = (none, t)) :
    t.buffered = [] ∧ Pull.pull s.chars = (none, t.chars) := by
  obtain ⟨chars, buffered⟩ := s
  cases buffered with
  | cons b bs => cases h
  | nil =>
    cases hp : Pull.pull chars with
    | mk answer others =>
      cases answer with
      | none =>
        rw [pull_of_chars_none hp] at h
        cases h
        exact ⟨rfl, rfl⟩
      | some c =>
        obtain ⟨b, bs, -, hsome⟩ := pull_of_chars_some hp
        rw [hsome] at h
        cases h

variable [HasHint σ]

theorem sound (h : Sound s.chars) : Sound s where
  bounds := by
    obtain ⟨hlow, hhigh⟩ := length_flatMap_encode (Pull.elements s.chars)
    rw [elements_eq, List.length_append, Nat.add_comm]
    exact (h.bounds.widen hlow hhigh).plus s.buffered.length
  ended {t} hp := by
    obtain ⟨hb, hc⟩ := chars_of_none hp
    rw [elements_eq, hb, h.ended hc]
    rfl

theorem honest (h : Honest s.chars) : Honest s := by
  refine .of_kept (P := fun s => Honest s.chars) (fun h => sound h.sound) ?_ h
  intro s h
  obtain hsame | hpulled := pull_chars s
  · rw [hsame]
    exact h
  · rw [hpulled]
    exact h.pull

end Encoding

end Streaming.Utf8
