import Streaming.Proofs.Utf8.Run

/-!
# Runs under a policy

Under every policy a run goes through the items of a reporting run: it answers with them as the
policy has them, up to the first error if that one ends it (`Decoding.elements_of_batch`). A run
that no error ends leaves the decoder that its bytes leave (`Decoding.decoder_collect_of_batch`).
-/

namespace Streaming.Utf8

universe u

/-- What the policy makes of the items of a reporting run. -/
def Policy.items (p : Policy) : List Item → List Item
  | [] => []
  | .ok c :: rest => .ok c :: p.items rest
  | .error e :: rest => p.apply e :: if p = .strict then [] else p.items rest

theorem Policy.items_map_ok (p : Policy) (cs : List Char) :
    p.items (cs.map .ok) = cs.map .ok := by
  induction cs with
  | nil => rfl
  | cons c cs ih => rw [List.map_cons, items, ih]

namespace Decoding

variable {σ : Type u} [FinitePull σ UInt8] {s : Decoding σ}

theorem pull_eq_advance (hs : s.finished = false) : Pull.pull s = s.advance := by
  simp [pull_eq, next, hs]

/-- At the end of the bytes, the run answers with what becomes of an unfinished sequence. -/
theorem pull_of_batch_none (hs : s.finished = false) {f : Batch} (h : s.batch.next = (none, f)) :
    ∃ t, Pull.pull s = (f.decoder.finish?.map s.policy.apply, t) ∧ t.finished = true ∧
      t.decoder = f.decoder := by
  refine ⟨s.advance.2, ?_⟩
  rw [pull_eq_advance hs, advance_of_none h]
  cases hend : f.decoder.finish? with
  | none => simp [finish, hend]
  | some e => simp [finish, hend, answerError]

/-- A character is answered as it is, and the run goes on after its bytes. -/
theorem pull_of_batch_ok (hs : s.finished = false) {f : Batch} {c : Char}
    (h : s.batch.next = (some (.ok c), f)) :
    ∃ t, Pull.pull s = (some (.ok c), t) ∧ t.finished = false ∧ t.policy = s.policy ∧
      t.batch = f := by
  obtain ⟨n, hle, hdrop, hadv⟩ := advance_of_some h
  refine ⟨s.advance.2, ?_⟩
  rw [pull_eq_advance hs, hadv]
  refine ⟨rfl, hs, rfl, ?_⟩
  rw [answer, batch, Pull.elements_take hle, ← hdrop]

/-- An error is answered as the policy has it, and the run goes on unless it is strict. -/
theorem pull_of_batch_error (hs : s.finished = false) {f : Batch} {e : DecodeError}
    (h : s.batch.next = (some (.error e), f)) :
    ∃ t, Pull.pull s = (some (s.policy.apply e), t) ∧ (t.finished = true ↔ s.policy = .strict) ∧
      t.policy = s.policy ∧ t.batch = f := by
  obtain ⟨n, hle, hdrop, hadv⟩ := advance_of_some h
  refine ⟨s.advance.2, ?_⟩
  rw [pull_eq_advance hs, hadv]
  refine ⟨rfl, ?_, rfl, ?_⟩
  · simp [answer, answerError, hs]
  · rw [answer, answerError, batch, Pull.elements_take hle, ← hdrop]

/-- A run answers with the items of a reporting run, as its policy has them. -/
theorem elements_of_batch (hs : s.finished = false) {f : Batch} (hf : s.batch = f) :
    Pull.elements s = s.policy.items (f.decoder.report f.bytes) := by
  induction f using Pull.collect.induct generalizing s with
  | case1 f g hnext =>
    rw [Batch.pull_eq] at hnext
    obtain ⟨t, hp, hfin, -⟩ := pull_of_batch_none hs (hf ▸ hnext)
    rw [Decoder.report, (Batch.offerAll_of_next_none hnext).2, Decoder.ending]
    cases hend : g.decoder.finish? with
    | none =>
      rw [hend] at hp
      exact Pull.elements_of_none hp
    | some e =>
      rw [hend] at hp
      rw [Pull.elements_of_some hp, Pull.elements_of_none (pull_of_finished hfin)]
      simp [Policy.items]
  | case2 f item g hnext ih =>
    rw [Batch.pull_eq] at hnext
    rw [Decoder.report, Batch.offerAll_of_next_some hnext, List.cons_append, ← Decoder.report]
    cases item with
    | ok c =>
      obtain ⟨t, hp, hgo, hpol, hg⟩ := pull_of_batch_ok hs (hf ▸ hnext)
      rw [Pull.elements_of_some hp, ih hgo hg, hpol, Policy.items]
    | error e =>
      obtain ⟨t, hp, hfin, hpol, hg⟩ := pull_of_batch_error hs (hf ▸ hnext)
      rw [Pull.elements_of_some hp, Policy.items]
      by_cases hstrict : s.policy = .strict
      · rw [if_pos hstrict, Pull.elements_of_none (pull_of_finished (hfin.mpr hstrict))]
      · have hgo : t.finished = false := Bool.eq_false_iff.mpr (mt hfin.mp hstrict)
        rw [if_neg hstrict, ih hgo hg, hpol]

/-- A run that no error ends leaves the decoder that its bytes leave. -/
theorem decoder_collect_of_batch (hs : s.finished = false) {f : Batch} (hf : s.batch = f)
    (hall : s.policy = .strict → ∀ item ∈ Pull.elements f, ∃ c, item = .ok c) :
    (Pull.collect s).2.decoder = (f.decoder.offerAll f.bytes).2 := by
  induction f using Pull.collect.induct generalizing s with
  | case1 f g hnext =>
    rw [Batch.pull_eq] at hnext
    obtain ⟨t, hp, hfin, hdec⟩ := pull_of_batch_none hs (hf ▸ hnext)
    rw [(Batch.offerAll_of_next_none hnext).2, ← hdec]
    cases hend : g.decoder.finish? with
    | none =>
      rw [hend] at hp
      rw [Pull.collect_of_none hp]
    | some e =>
      rw [hend] at hp
      rw [Pull.collect_of_some hp, Pull.collect_of_none (pull_of_finished hfin)]
  | case2 f item g hnext ih =>
    rw [Pull.elements_of_some hnext] at hall
    rw [Batch.pull_eq] at hnext
    rw [Batch.offerAll_of_next_some hnext]
    cases item with
    | ok c =>
      obtain ⟨t, hp, hgo, hpol, hg⟩ := pull_of_batch_ok hs (hf ▸ hnext)
      rw [Pull.collect_of_some hp]
      refine ih hgo hg fun hstrict it hit => ?_
      exact hall (hpol ▸ hstrict) it (List.mem_cons_of_mem _ hit)
    | error e =>
      obtain ⟨t, hp, hfin, hpol, hg⟩ := pull_of_batch_error hs (hf ▸ hnext)
      have hlenient : s.policy ≠ .strict := by
        intro hstrict
        obtain ⟨c, hc⟩ := hall hstrict _ (List.mem_cons_self ..)
        cases hc
      have hgo : t.finished = false := Bool.eq_false_iff.mpr (mt hfin.mp hlenient)
      rw [Pull.collect_of_some hp]
      exact ih hgo hg fun hstrict => absurd (hpol ▸ hstrict) hlenient

theorem elements_start_items (p : Policy) (bytes : σ) :
    Pull.elements (start p bytes) = p.items (({} : Decoder).report (Pull.elements bytes)) := by
  rw [elements_of_batch rfl rfl, batch, start, Latch.elements_mk]

end Decoding

/-! ## Plain characters -/

/-- The characters before the first error. -/
def leading : List Item → List Char
  | .ok c :: items => c :: leading items
  | _ => []

theorem leading_map_ok (cs : List Char) : leading (cs.map .ok) = cs := by
  induction cs with
  | nil => rfl
  | cons c cs ih => rw [List.map_cons, leading, ih]

theorem leading_items_strict (items : List Item) :
    leading (Policy.strict.items items) = leading items := by
  induction items with
  | nil => rfl
  | cons item items ih =>
    cases item with
    | ok c => rw [Policy.items, leading, leading, ih]
    | error e => rfl

namespace Characters

variable {σ : Type u} [FinitePull σ UInt8]

/-- Plain characters are those of the run before its first error. -/
theorem elements_eq (s : Decoding σ) :
    Pull.elements (⟨s⟩ : Characters σ) = leading (Pull.elements s) := by
  induction s using Pull.collect.induct with
  | case1 s t h =>
    have hnil : Pull.elements s = [] := Pull.elements_of_none h
    rw [Decoding.pull_eq] at h
    rw [hnil]
    exact Pull.elements_of_none (t := ⟨t⟩) (by rw [pull_eq, next, h])
  | case2 s item t h ih =>
    have hcons : Pull.elements s = item :: Pull.elements t := Pull.elements_of_some h
    rw [Decoding.pull_eq] at h
    rw [hcons]
    cases item with
    | ok c =>
      rw [leading, ← ih]
      exact Pull.elements_of_some (by rw [pull_eq, next, h])
    | error e => exact Pull.elements_of_none (t := ⟨t⟩) (by rw [pull_eq, next, h])

/-- A strict run yields the characters before the first error of a reporting one. -/
theorem elements_strict (bytes : σ) : Pull.elements (strict bytes) =
    leading (({} : Decoder).report (Pull.elements bytes)) := by
  rw [strict, elements_eq, Decoding.elements_start_items, leading_items_strict]

end Characters

end Streaming.Utf8
