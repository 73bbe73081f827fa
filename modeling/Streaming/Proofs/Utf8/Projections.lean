import Streaming.Proofs.Utf8.Abreast

/-!
# Policies as projections of reporting

What lenient and strict runs answer, how far they read, what they note and the decoder they leave
follow from the items of a reporting run over the same bytes, request by request. The same holds of
the readers of characters, which ask a run once for each request (`policies_project_reports`).
-/

namespace Streaming.Utf8

universe u

/-! ## Characters under a policy -/

theorem length_leading (items : List Item) : (leading items).length = items.findIdx isError := by
  induction items with
  | nil => rfl
  | cons item rest ih =>
    cases item with
    | ok c => simp [leading, List.findIdx_cons, isError, ih]
    | error e => simp [leading, List.findIdx_cons, isError]

theorem length_leading_le (items : List Item) : (leading items).length ≤ items.length := by
  rw [length_leading]
  exact List.findIdx_le_length

theorem leading_items_lenient (items : List Item) :
    leading (Policy.lenient.items items) = items.map softened := by
  rw [Policy.items_lenient]
  induction items with
  | nil => rfl
  | cons item rest ih => rw [List.map_cons, leading, ih, List.map_cons]

namespace Characters

variable {σ : Type u} [FinitePull σ UInt8]

theorem pull_mk (s : Decoding σ) : Pull.pull (⟨s⟩ : Characters σ) =
    ((Pull.pull s).1.bind Except.toOption, ⟨(Pull.pull s).2⟩) := by
  rw [pull_eq, next, Decoding.pull_eq]
  split <;> rename_i h <;> rw [h] <;> rfl

theorem answers_mk (n : Nat) (s : Decoding σ) : Pull.answers n (⟨s⟩ : Characters σ) =
    ((Pull.answers n s).1.map fun answer => answer.bind Except.toOption,
      ⟨(Pull.answers n s).2⟩) := by
  induction n generalizing s with
  | zero => rfl
  | succ n ih =>
    rw [Pull.answers, pull_mk, Pull.answers]
    simp only [ih]
    rfl

end Characters

theorem served_strict (n : Nat) (items : List Item) :
    ((Pull.served n (Policy.strict.items items)).map fun answer => answer.bind Except.toOption) =
      Pull.served n (leading items) := by
  induction items generalizing n with
  | nil => simp [Policy.items, leading]
  | cons item rest ih =>
    cases n with
    | zero => rfl
    | succ n =>
      cases item with
      | ok c =>
        rw [Policy.items, leading, Pull.served_cons, Pull.served_cons, List.map_cons, ih]
        rfl
      | error e =>
        have hnone : leading (.error e :: rest) = [] := rfl
        rw [Policy.items, if_pos rfl, hnone, Pull.served_cons, Pull.served_nil, Pull.served_nil,
          List.map_cons, List.map_replicate]
        rfl

theorem served_lenient (n : Nat) (items : List Item) :
    ((Pull.served n (Policy.lenient.items items)).map fun answer => answer.bind Except.toOption) =
      Pull.served n (items.map softened) := by
  rw [Policy.items_lenient, Pull.served_map, Pull.served_map, List.map_map]
  refine List.map_congr_left fun answer _ => ?_
  cases answer <;> rfl

namespace Characters

variable {σ : Type u} [FinitePull σ UInt8] (bytes : σ)

theorem elements_lenient : Pull.elements (lenient bytes) =
    (Pull.elements (Decoding.start .report bytes)).map softened := by
  rw [lenient, elements_eq, Decoding.elements_start_policy, leading_items_lenient]

theorem collect_lenient : (Pull.collect (lenient bytes)).2.decoding =
    (Pull.collect (Decoding.start .lenient bytes)).2 := by
  rw [Pull.snd_collect_eq_answers, Pull.snd_collect_eq_answers, elements_lenient,
    Decoding.elements_start_policy .lenient, Policy.items_lenient, List.length_map, List.length_map,
    lenient, answers_mk]

/-- The empty answer of a strict reader of characters is the first error of its run. -/
theorem disposals_collect_strict : (Pull.collect (strict bytes)).2.decoding.disposals =
    (Pull.collect (Decoding.start .strict bytes)).2.disposals := by
  rw [Pull.snd_collect_eq_answers, strict, answers_mk, Decoding.disposals_answers_start,
    elements_eq, Decoding.elements_start_policy .strict, leading_items_strict, length_leading,
    Policy.reach_strict, Nat.min_self, errors_take_findIdx, Decoding.disposals_collect_start_strict]

end Characters

/-- **Policies are projections of reporting.** A lenient run answers with the items of the reporting
run, U+FFFD standing for each error, and stands at the same place of the input after any number of
requests. A strict run answers with the items up to the first error, a strict reader of characters
with those before it, and from then on both answer with nothing and stand still. A run read to its
end notes every error once and in order, but only the first if it is strict. The decoder that a
lenient run leaves at its end is the one that the reporting run leaves. -/
theorem policies_project_reports (bs : List UInt8) :
    let source := Supply.ofList bs
    let run (p : Policy) := Decoding.start p source
    let r := Pull.elements (run .report)
    let upToError := r.findIdx isError + 1
    (∀ n,
      (Pull.answers n (run .lenient)).1 = Pull.served n (r.map fun item => .ok (softened item)) ∧
      (Pull.answers n (Characters.lenient source)).1 = Pull.served n (r.map softened) ∧
      (Pull.answers n (run .lenient)).2.bytes = (Pull.answers n (run .report)).2.bytes ∧
      (Pull.answers n (Characters.lenient source)).2.decoding.bytes =
        (Pull.answers n (run .report)).2.bytes) ∧
    (∀ n,
      (Pull.answers n (run .strict)).1 = Pull.served n (r.take upToError) ∧
      (Pull.answers n (Characters.strict source)).1 = Pull.served n (leading r) ∧
      (Pull.answers n (run .strict)).2.bytes =
        (Pull.answers (min n upToError) (run .report)).2.bytes ∧
      (Pull.answers n (Characters.strict source)).2.decoding.bytes =
        (Pull.answers (min n upToError) (run .report)).2.bytes) ∧
    ((Pull.collect (run .report)).2.disposals = (errors r).map (Disposal.mk .report) ∧
      (Pull.collect (run .lenient)).2.disposals = (errors r).map (Disposal.mk .lenient) ∧
      (Pull.collect (Characters.lenient source)).2.decoding.disposals =
        (errors r).map (Disposal.mk .lenient) ∧
      (Pull.collect (run .strict)).2.disposals =
        ((errors r).take 1).map (Disposal.mk .strict) ∧
      (Pull.collect (Characters.strict source)).2.decoding.disposals =
        ((errors r).take 1).map (Disposal.mk .strict)) ∧
    (Pull.collect (run .lenient)).2.decoder = (Pull.collect (run .report)).2.decoder := by
  intro source run r upToError
  refine ⟨fun n => ?_, fun n => ?_, ⟨?_, ?_, ?_, ?_, ?_⟩, ?_⟩
  · obtain ⟨hans, hsh⟩ := Decoding.answers_start .lenient source n
    rw [Policy.reach_of_ne_strict (by decide)] at hsh
    rw [Characters.lenient, Characters.answers_mk]
    refine ⟨?_, ?_, hsh.bytes_eq, hsh.bytes_eq⟩
    · rw [hans, Policy.items_lenient]
    · rw [hans, served_lenient]
  · obtain ⟨hans, hsh⟩ := Decoding.answers_start .strict source n
    rw [Policy.reach_strict] at hsh
    rw [Characters.strict, Characters.answers_mk]
    refine ⟨?_, ?_, hsh.bytes_eq, hsh.bytes_eq⟩
    · rw [hans, Policy.items_strict]
    · rw [hans, served_strict]
  · exact Decoding.disposals_collect_start source (by decide)
  · exact Decoding.disposals_collect_start source (by decide)
  · rw [Characters.collect_lenient]
    exact Decoding.disposals_collect_start source (by decide)
  · exact Decoding.disposals_collect_start_strict source
  · rw [Characters.disposals_collect_strict]
    exact Decoding.disposals_collect_start_strict source
  · have hlen : (Pull.elements (run .lenient)).length = r.length := by
      rw [Decoding.elements_start_policy, Policy.items_lenient, List.length_map]
    rw [Pull.snd_collect_eq_answers, Pull.snd_collect_eq_answers, hlen]
    have hsh := (Decoding.answers_start .lenient source (r.length + 1)).2
    rw [Policy.reach_of_ne_strict (by decide)] at hsh
    exact hsh.decoder_eq

end Streaming.Utf8
