import Streaming.Proofs.Utf8.Policy

/-!
# Runs abreast of a reporting run

A run under any policy keeps abreast of a reporting run over the same bytes. After each request it
stands at the same byte with the same decoder, has disposed of the same errors, and has answered
what its policy makes of the other run's answer (`Decoding.Shadows.pull`). Only a strict run falls
behind: it stands still after its first error (`Decoding.Shadows.answers`).
-/

namespace Streaming.Utf8

universe u

def isError : Item → Bool
  | .ok _ => false
  | .error _ => true

def errors (items : List Item) : List DecodeError :=
  items.filterMap fun
    | .ok _ => none
    | .error e => some e

/-- The character that the item is to a lenient reader. -/
def softened : Item → Char
  | .ok c => c
  | .error _ => replacement

/-- What the policy makes of an item. -/
def Policy.treat (p : Policy) : Item → Item
  | .ok c => .ok c
  | .error e => p.apply e

/-- How many of `n` requests move a run on whose items would be these if it reported: a strict run
stands still after its first error. -/
def Policy.reach (p : Policy) (items : List Item) (n : Nat) : Nat :=
  if p = .strict then min n (items.findIdx isError + 1) else n

/-! ## Items under a policy -/

theorem errors_take_findIdx (items : List Item) :
    errors (items.take (items.findIdx isError + 1)) = (errors items).take 1 := by
  induction items with
  | nil => rfl
  | cons item rest ih =>
    cases item with
    | ok c => simpa [errors, List.findIdx_cons, isError] using ih
    | error e => simp [errors, List.findIdx_cons, isError]

namespace Policy

theorem treat_lenient (item : Item) : lenient.treat item = .ok (softened item) := by
  cases item <;> rfl

theorem items_of_ne_strict {p : Policy} (hp : p ≠ .strict) (items : List Item) :
    p.items items = items.map p.treat := by
  induction items with
  | nil => rfl
  | cons item rest ih =>
    cases item with
    | ok c => rw [Policy.items, ih, List.map_cons, treat]
    | error e => rw [Policy.items, if_neg hp, ih, List.map_cons, treat]

theorem items_lenient (items : List Item) :
    lenient.items items = items.map fun item => .ok (softened item) := by
  rw [items_of_ne_strict (by decide)]
  exact List.map_congr_left fun item _ => treat_lenient item

theorem items_strict (items : List Item) :
    strict.items items = items.take (items.findIdx isError + 1) := by
  induction items with
  | nil => rfl
  | cons item rest ih =>
    cases item with
    | ok c => simp [Policy.items, List.findIdx_cons, isError, ih]
    | error e => simp [Policy.items, List.findIdx_cons, isError, apply]

variable {p : Policy} {item : Item} {items : List Item}

theorem reach_of_ne_strict (hp : p ≠ .strict) (items : List Item) (n : Nat) :
    p.reach items n = n := if_neg hp

theorem reach_strict (items : List Item) (n : Nat) :
    strict.reach items n = min n (items.findIdx isError + 1) := if_pos rfl

theorem reach_zero (p : Policy) (items : List Item) : p.reach items 0 = 0 := by
  by_cases hp : p = .strict <;> simp [reach, hp]

theorem exists_reach_succ (p : Policy) (items : List Item) (n : Nat) :
    ∃ m, p.reach items (n + 1) = m + 1 := by
  by_cases hp : p = .strict
  · exact ⟨min n (items.findIdx isError), by rw [reach, if_pos hp, Nat.add_min_add_right]⟩
  · exact ⟨n, reach_of_ne_strict hp items (n + 1)⟩

theorem reach_cons (h : (p == .strict && isError item) = false) (n : Nat) :
    p.reach (item :: items) (n + 1) = p.reach items n + 1 := by
  by_cases hp : p = .strict
  · subst hp
    have hok : isError item = false := by simpa using h
    rw [reach_strict, reach_strict, List.findIdx_cons, hok, cond_false, Nat.add_min_add_right]
  · rw [reach_of_ne_strict hp, reach_of_ne_strict hp]

theorem reach_cons_of_error (h : (p == .strict && isError item) = true) (n : Nat) :
    p.reach (item :: items) (n + 1) = 1 := by
  obtain ⟨hp, hitem⟩ : p = .strict ∧ isError item = true := by simpa using h
  subst hp
  rw [reach_strict, List.findIdx_cons, hitem, cond_true]
  omega

theorem length_items_le (p : Policy) (items : List Item) :
    (p.items items).length ≤ items.length := by
  by_cases hp : p = .strict
  · subst hp
    rw [items_strict, List.length_take]
    exact Nat.min_le_right _ _
  · have hlen : (p.items items).length = items.length := by
      rw [items_of_ne_strict hp, List.length_map]
    exact Nat.le_of_eq hlen

/-- Up to its last item, every request moves a run on. -/
theorem reach_of_le {n : Nat} (hn : n ≤ (p.items items).length) : p.reach items n = n := by
  by_cases hp : p = .strict
  · subst hp
    rw [items_strict, List.length_take] at hn
    rw [reach_strict]
    omega
  · exact reach_of_ne_strict hp items n

end Policy

/-! ## Runs abreast -/

namespace Decoding

variable {σ : Type u} [FinitePull σ UInt8] {s t : Decoding σ}

/-- How many bytes are pulled up to the next item can be read off the batch. -/
theorem advance_eq_of_some {item : Item} {f : Batch} (h : s.batch.next = (some item, f)) :
    s.advance =
      { s with
        bytes := (Pull.take ((Pull.elements s.bytes).length - f.bytes.length) s.bytes).2
        decoder := f.decoder }.answer item := by
  obtain ⟨n, hle, hdrop, hadv⟩ := advance_of_some h
  have hn : (Pull.elements s.bytes).length - f.bytes.length = n := by
    rw [hdrop, List.length_drop]
    omega
  rw [hn, hadv]

omit [FinitePull σ UInt8] in
theorem finish_of_none (h : s.decoder.finish? = none) :
    s.finish = (none, { s with finished := true }) := by
  simp only [finish, h]

omit [FinitePull σ UInt8] in
theorem finish_of_some {e : DecodeError} (h : s.decoder.finish? = some e) :
    s.finish = { s with finished := true }.answer (.error e) := by
  simp only [finish, h]
  rfl

/-- The run `s` under the policy stands where the reporting run `t` stands, and has disposed of the
same errors. -/
structure Shadows (p : Policy) (s t : Decoding σ) : Prop where
  policy_eq : s.policy = p
  reporting : t.policy = .report
  bytes_eq : s.bytes = t.bytes
  decoder_eq : s.decoder = t.decoder
  disposals_eq : s.disposals = t.disposals.map fun d => ⟨p, d.error⟩

/-- The outcome `a` of a request under the policy is that of a run that shadows the other, unless
the policy ends the run. -/
structure Follows (p : Policy) (a b : Option Item × Decoding σ) : Prop where
  answer_eq : a.1 = b.1.map p.treat
  shadows : Shadows p a.2 b.2
  finished_eq : a.2.finished = (b.2.finished || (p == .strict && b.1.any isError))

namespace Shadows

variable {p : Policy}

omit [FinitePull σ UInt8] in
theorem start (p : Policy) (bytes : σ) :
    Shadows p (Decoding.start p bytes) (Decoding.start .report bytes) :=
  ⟨rfl, rfl, rfl, rfl, rfl⟩

omit [FinitePull σ UInt8] in
theorem move (h : Shadows p s t) (bytes : Latch σ) (decoder : Decoder) :
    Shadows p { s with bytes, decoder } { t with bytes, decoder } :=
  ⟨h.policy_eq, h.reporting, rfl, rfl, h.disposals_eq⟩

omit [FinitePull σ UInt8] in
theorem answer (h : Shadows p s t) (hf : s.finished = t.finished) (item : Item) :
    Follows p (s.answer item) (t.answer item) := by
  obtain ⟨rfl, hrep, hbytes, hdec, hdis⟩ := h
  cases item with
  | ok c =>
    exact ⟨rfl, ⟨rfl, hrep, hbytes, hdec, hdis⟩, by simp [Decoding.answer, hf, isError]⟩
  | error e =>
    have hgoes : (Policy.report == Policy.strict) = false := rfl
    refine ⟨?_, ⟨rfl, hrep, hbytes, hdec, ?_⟩, ?_⟩
    · simp [Decoding.answer, answerError, hrep, Policy.apply, Policy.treat]
    · simp [Decoding.answer, answerError, hdis]
    · simp [Decoding.answer, answerError, hrep, hf, isError, Policy.apply, hgoes]

omit [FinitePull σ UInt8] in
theorem finish (h : Shadows p s t) : Follows p s.finish t.finish := by
  have hend : Shadows p { s with finished := true } { t with finished := true } :=
    ⟨h.policy_eq, h.reporting, h.bytes_eq, h.decoder_eq, h.disposals_eq⟩
  cases ht : t.decoder.finish? with
  | none =>
    rw [finish_of_none ht, finish_of_none (h.decoder_eq ▸ ht)]
    exact ⟨rfl, hend, rfl⟩
  | some e =>
    rw [finish_of_some ht, finish_of_some (h.decoder_eq ▸ ht)]
    exact hend.answer rfl (.error e)

theorem pull (h : Shadows p s t) (hf : s.finished = t.finished) :
    Follows p (Pull.pull s) (Pull.pull t) := by
  have hbatch : s.batch = t.batch := by rw [batch, batch, h.bytes_eq, h.decoder_eq]
  by_cases hfin : t.finished = true
  · rw [pull_of_finished hfin, pull_of_finished (hf.trans hfin)]
    exact ⟨rfl, h, by simp [hf]⟩
  · rw [Bool.not_eq_true] at hfin
    rw [pull_eq_advance hfin, pull_eq_advance (hf.trans hfin)]
    cases hnext : t.batch.next with
    | mk answer f =>
      cases answer with
      | none =>
        have hend := h.move (Pull.collect t.bytes).2 f.decoder
        rw [advance_of_none hnext, advance_of_none (hbatch ▸ hnext), h.bytes_eq]
        exact hend.finish
      | some item =>
        let n := (Pull.elements t.bytes).length - f.bytes.length
        have hnext' := h.move (Pull.take n t.bytes).2 f.decoder
        rw [advance_eq_of_some hnext, advance_eq_of_some (hbatch ▸ hnext), h.bytes_eq]
        exact hnext'.answer hf item

/-- After any number of requests, a run has answered with the items as its policy has them, and
stands where the reporting run stands that has been asked as often, or up to the first error if the
policy is strict. -/
theorem answers (h : Shadows p s t) (hf : s.finished = t.finished) (n : Nat) :
    (Pull.answers n s).1 = Pull.served n (p.items (Pull.elements t)) ∧
      Shadows p (Pull.answers n s).2 (Pull.answers (p.reach (Pull.elements t) n) t).2 := by
  induction n generalizing s t with
  | zero =>
    rw [Policy.reach_zero]
    exact ⟨rfl, h⟩
  | succ n ih =>
    have hpull := h.pull hf
    cases ht : Pull.pull t with
    | mk answer t' =>
    cases hs : Pull.pull s with
    | mk answer' s' =>
    rw [hs, ht] at hpull
    obtain ⟨hans, hsh, hfin⟩ := hpull
    simp only at hans hsh hfin
    cases answer with
    | none =>
      -- Both have come to the end, and stay there.
      have htend := finished_of_next_none ht
      have hsend : s'.finished = true := by rw [hfin, htend, Bool.true_or]
      obtain ⟨m, hm⟩ := p.exists_reach_succ [] n
      rw [Pull.elements_of_none ht, hm, Pull.answers, Pull.answers, hs, ht, hans]
      simp only [Pull.answers_of_stays (pull_of_finished htend),
        Pull.answers_of_stays (pull_of_finished hsend)]
      refine ⟨?_, hsh⟩
      rw [Policy.items, Pull.served_nil]
      rfl
    | some item =>
      rw [Pull.elements_of_some ht, Pull.answers, hs, hans]
      by_cases hstop : (p == .strict && isError item) = true
      · -- The first error of a strict run: it has finished, and the other one is left there.
        have hsend : s'.finished = true := by
          rw [hfin, Option.any_some, hstop, Bool.or_true]
        obtain ⟨hp, hitem⟩ : p = .strict ∧ isError item = true := by simpa using hstop
        rw [Policy.reach_cons_of_error hstop, Pull.answers, ht]
        simp only [Pull.answers_of_stays (pull_of_finished hsend)]
        refine ⟨?_, hsh⟩
        cases item with
        | ok c => cases hitem
        | error e =>
          rw [Policy.items, if_pos hp, Pull.served_cons, Pull.served_nil]
          rfl
      · rw [Bool.not_eq_true] at hstop
        have hfin' : s'.finished = t'.finished := by
          rw [hfin, Option.any_some, hstop, Bool.or_false]
        obtain ⟨hrest, hlast⟩ := ih hsh hfin'
        rw [Policy.reach_cons hstop, Pull.answers, ht]
        refine ⟨?_, hlast⟩
        simp only [hrest]
        cases item with
        | ok c =>
          rw [Policy.items, Pull.served_cons]
          rfl
        | error e =>
          have hp : p ≠ .strict := by
            rintro rfl
            cases hstop
          rw [Policy.items, if_neg hp, Pull.served_cons]
          rfl

end Shadows

/-! ## Errors disposed of -/

theorem disposals_pull (hs : s.policy = .report) : (Pull.pull s).2.policy = .report ∧
    (Pull.pull s).2.disposals =
      s.disposals ++ (errors (Pull.pull s).1.toList).map (Disposal.mk .report) := by
  have hanswer : ∀ (u : Decoding σ) (item : Item), u.policy = .report →
      u.disposals = s.disposals → (u.answer item).2.policy = .report ∧
        (u.answer item).2.disposals =
          s.disposals ++ (errors (u.answer item).1.toList).map (Disposal.mk .report) := by
    intro u item hu hd
    cases item with
    | ok c => exact ⟨hu, by simp [answer, hd, errors]⟩
    | error e => exact ⟨hu, by simp [answer, answerError, hu, hd, errors, Policy.apply]⟩
  by_cases hfin : s.finished = true
  · rw [pull_of_finished hfin]
    exact ⟨hs, by simp [errors]⟩
  · rw [Bool.not_eq_true] at hfin
    rw [pull_eq_advance hfin]
    cases hnext : s.batch.next with
    | mk first f =>
      cases first with
      | some item =>
        rw [advance_eq_of_some hnext]
        exact hanswer _ item hs rfl
      | none =>
        rw [advance_of_none hnext]
        cases hend : f.decoder.finish? with
        | none =>
          rw [finish_of_none hend]
          exact ⟨hs, by simp [errors]⟩
        | some e =>
          rw [finish_of_some hend]
          exact hanswer _ (.error e) hs rfl

/-- A reporting run notes each error that it answers, when it answers it. -/
theorem disposals_answers (hs : s.policy = .report) (n : Nat) :
    (Pull.answers n s).2.disposals =
      s.disposals ++ (errors ((Pull.elements s).take n)).map (Disposal.mk .report) := by
  induction n generalizing s with
  | zero => simp [Pull.answers, errors]
  | succ n ih =>
    obtain ⟨hpol, hdis⟩ := disposals_pull hs
    cases hp : Pull.pull s with
    | mk answer t =>
      rw [hp] at hpol hdis
      simp only at hpol hdis
      rw [Pull.answers, hp]
      cases answer with
      | none =>
        have hstays := pull_of_finished (finished_of_next_none hp)
        rw [Pull.elements_of_none hp, Pull.answers_of_stays hstays]
        simp only [hdis]
        rfl
      | some item =>
        rw [Pull.elements_of_some hp, List.take_succ_cons]
        simp only [ih hpol, hdis, List.append_assoc, ← List.map_append]
        rw [← List.singleton_append, errors, errors, errors, List.filterMap_append]
        rfl

/-! ## Whole runs -/

section Start

variable (p : Policy) (bytes : σ)

theorem elements_start_policy :
    Pull.elements (start p bytes) = p.items (Pull.elements (start .report bytes)) := by
  rw [elements_start_items, elements_start]

theorem answers_start (n : Nat) :
    (Pull.answers n (start p bytes)).1 =
        Pull.served n (p.items (Pull.elements (start .report bytes))) ∧
      Shadows p (Pull.answers n (start p bytes)).2
        (Pull.answers (p.reach (Pull.elements (start .report bytes)) n) (start .report bytes)).2 :=
  (Shadows.start p bytes).answers rfl n

theorem disposals_answers_start (n : Nat) :
    (Pull.answers n (start p bytes)).2.disposals =
      (errors ((Pull.elements (start .report bytes)).take
        (p.reach (Pull.elements (start .report bytes)) n))).map (Disposal.mk p) := by
  rw [(answers_start p bytes n).2.disposals_eq, disposals_answers rfl]
  simp [start, Function.comp_def]

end Start

variable (bytes : σ)

theorem disposals_collect_start {p : Policy} (hp : p ≠ .strict) :
    (Pull.collect (start p bytes)).2.disposals =
      (errors (Pull.elements (start .report bytes))).map (Disposal.mk p) := by
  have hlen : (Pull.elements (start p bytes)).length =
      (Pull.elements (start .report bytes)).length := by
    rw [elements_start_policy, Policy.items_of_ne_strict hp, List.length_map]
  rw [Pull.snd_collect_eq_answers, disposals_answers_start, Policy.reach_of_ne_strict hp, hlen,
    List.take_of_length_le (Nat.le_succ _)]

theorem disposals_collect_start_strict :
    (Pull.collect (start .strict bytes)).2.disposals =
      ((errors (Pull.elements (start .report bytes))).take 1).map (Disposal.mk .strict) := by
  rw [Pull.snd_collect_eq_answers, disposals_answers_start, Policy.reach_strict,
    elements_start_policy, Policy.items_strict, List.length_take, ← errors_take_findIdx]
  congr 2
  rw [List.take_eq_take_iff]
  omega

/-! ## Inputs with the same bytes -/

variable {ρ : Type u} [FinitePull ρ UInt8] {a : σ} {b : ρ}

theorem elements_start_congr (p : Policy) (h : Pull.elements a = Pull.elements b) :
    Pull.elements (start p a) = Pull.elements (start p b) := by
  rw [elements_start_items, elements_start_items, h]

theorem disposals_collect_congr (p : Policy) (h : Pull.elements a = Pull.elements b) :
    (Pull.collect (start p a)).2.disposals = (Pull.collect (start p b)).2.disposals := by
  rw [Pull.snd_collect_eq_answers, Pull.snd_collect_eq_answers, disposals_answers_start,
    disposals_answers_start, elements_start_congr p h, elements_start_congr .report h]

end Decoding

end Streaming.Utf8
