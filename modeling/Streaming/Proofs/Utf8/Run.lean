import Streaming.Proofs.Pull
import Streaming.Utf8.Decoding

/-!
# Runs of the decoder

What a decoding does depends on its decoder and on the bytes it has still to pull, its batch. Up to
the next item it pulls the bytes that the batch offers to the decoder, and none after them
(`Decoding.advance_of_some`, `Decoding.advance_of_none`). A reporting run therefore yields the items
that the bytes complete and, if they end inside a sequence, one error more
(`Decoding.Reporting.elements_eq`); wherever it is stopped, what is left to it is what is left to
its batch (`Decoding.Reporting.take`).
-/

namespace Streaming.Utf8

universe u

/-! ## The items of a list of bytes -/

namespace Decoder

theorem offerAll_append (d : Decoder) (bs cs : List UInt8) :
    d.offerAll (bs ++ cs) =
      ((d.offerAll bs).1 ++ ((d.offerAll bs).2.offerAll cs).1,
        ((d.offerAll bs).2.offerAll cs).2) := by
  induction bs generalizing d with
  | nil => rfl
  | cons b bs ih => simp [offerAll, ih]

theorem offerAll_cons_of_none {d d' : Decoder} {b : UInt8} (h : d.offer b = (none, d'))
    (bs : List UInt8) : d.offerAll (b :: bs) = d'.offerAll bs := by
  simp [offerAll, h]

theorem offerAll_cons_of_some {d d' : Decoder} {b : UInt8} {item : Item}
    (h : d.offer b = (some item, d')) (bs : List UInt8) :
    d.offerAll (b :: bs) = (item :: (d'.offerAll bs).1, (d'.offerAll bs).2) := by
  simp [offerAll, h]

/-- The error that the end of the input is, as an item. -/
def ending (d : Decoder) : List Item := (d.finish?.map Except.error).toList

/-- The items of a reporting run. -/
def report (d : Decoder) (bs : List UInt8) : List Item :=
  (d.offerAll bs).1 ++ (d.offerAll bs).2.ending

theorem report_append (d : Decoder) (bs cs : List UInt8) :
    d.report (bs ++ cs) = (d.offerAll bs).1 ++ (d.offerAll bs).2.report cs := by
  rw [report, report, offerAll_append, List.append_assoc]

end Decoder

/-- The item is the error of an input that ends inside a sequence. -/
def isIncomplete : Item → Bool
  | .error (.incomplete _) => true
  | _ => false

theorem isIncomplete_of_offer {d d' : Decoder} {b : UInt8} {item : Item}
    (h : d.offer b = (some item, d')) : isIncomplete item = false := by
  unfold Decoder.offer at h
  split at h <;> cases h <;> rfl

theorem isIncomplete_of_mem_offerAll {d : Decoder} {bs : List UInt8} {item : Item}
    (h : item ∈ (d.offerAll bs).1) : isIncomplete item = false := by
  induction bs generalizing d with
  | nil => cases h
  | cons b bs ih =>
    obtain ⟨first, d', ho⟩ : ∃ first d', d.offer b = (first, d') := ⟨_, _, rfl⟩
    cases first with
    | none =>
      rw [Decoder.offerAll_cons_of_none ho] at h
      exact ih h
    | some it =>
      rw [Decoder.offerAll_cons_of_some ho] at h
      rcases List.mem_cons.mp h with rfl | h
      · exact isIncomplete_of_offer ho
      · exact ih h

theorem ending_eq (d : Decoder) : d.ending = [] ∨ d.ending = [.error (.incomplete d)] := by
  unfold Decoder.ending Decoder.finish?
  cases d.state with
  | ready => exact .inl rfl
  | expect _ _ _ => exact .inr rfl

theorem length_ending_le (d : Decoder) : d.ending.length ≤ 1 := by
  obtain hend | hend := ending_eq d <;> simp [hend]

namespace Batch

variable {f g : Batch} {item : Item}

theorem next_of_some {d d' : Decoder} {b : UInt8} (h : d.offer b = (some item, d'))
    (bs : List UInt8) : next ⟨d, b :: bs⟩ = (some item, ⟨d', bs⟩) := by
  simp [next, next.go, h]

theorem next_of_none {d d' : Decoder} {b : UInt8} (h : d.offer b = (none, d'))
    (bs : List UInt8) : next ⟨d, b :: bs⟩ = next ⟨d', bs⟩ := by
  simp [next, next.go, h]

/-- The bytes up to the one that completes the next item, and that one. -/
theorem exists_of_next_some (h : f.next = (some item, g)) :
    ∃ w b d, f.bytes = w ++ b :: g.bytes ∧ f.decoder.offerAll w = ([], d) ∧
      d.offer b = (some item, g.decoder) := by
  obtain ⟨d, bs⟩ := f
  induction bs generalizing d with
  | nil => cases h
  | cons b bs ih =>
    cases ho : d.offer b with
    | mk first d' =>
      cases first with
      | some it =>
        rw [next_of_some ho] at h
        cases h
        exact ⟨[], b, d, rfl, rfl, ho⟩
      | none =>
        rw [next_of_none ho] at h
        obtain ⟨w, c, e, hbs, hw, hc⟩ := ih d' h
        refine ⟨b :: w, c, e, by rw [List.cons_append]; exact congrArg _ hbs, ?_, hc⟩
        rw [Decoder.offerAll_cons_of_none ho]
        exact hw

theorem offerAll_of_next_some (h : f.next = (some item, g)) :
    f.decoder.offerAll f.bytes =
      (item :: (g.decoder.offerAll g.bytes).1, (g.decoder.offerAll g.bytes).2) := by
  obtain ⟨w, b, d, hbs, hw, hb⟩ := exists_of_next_some h
  rw [hbs, Decoder.offerAll_append, hw, Decoder.offerAll_cons_of_some hb]
  rfl

theorem offerAll_of_next_none (h : f.next = (none, g)) :
    g.bytes = [] ∧ f.decoder.offerAll f.bytes = ([], g.decoder) := by
  obtain ⟨d, bs⟩ := f
  induction bs generalizing d with
  | nil =>
    cases h
    exact ⟨rfl, rfl⟩
  | cons b bs ih =>
    cases ho : d.offer b with
    | mk first d' =>
      cases first with
      | some it =>
        rw [next_of_some ho] at h
        cases h
      | none =>
        rw [next_of_none ho] at h
        rw [Decoder.offerAll_cons_of_none ho]
        exact ih d' h

/-- A batch yields the items that its bytes complete and leaves the decoder that they leave. -/
theorem collect_eq (f : Batch) : Pull.collect f =
    ((f.decoder.offerAll f.bytes).1, ⟨(f.decoder.offerAll f.bytes).2, []⟩) := by
  induction f using Pull.collect.induct with
  | case1 f g h =>
    obtain ⟨hg, hall⟩ := offerAll_of_next_none h
    rw [Pull.collect_of_none h, hall, ← hg]
  | case2 f item g h ih =>
    rw [Pull.collect_of_some h, offerAll_of_next_some h, ih]

theorem elements_eq (f : Batch) : Pull.elements f = (f.decoder.offerAll f.bytes).1 :=
  congrArg Prod.fst (collect_eq f)

end Batch

namespace Decoding

variable {σ : Type u} [FinitePull σ UInt8]

/-- The decoder and the bytes still to be pulled. -/
def batch (s : Decoding σ) : Batch := ⟨s.decoder, Pull.elements s.bytes⟩

/-- Answers with an item as the policy has it. -/
def answer (s : Decoding σ) : Item → Option Item × Decoding σ
  | .ok c => (some (.ok c), s)
  | .error e => s.answerError e

section Advance

variable {s : Decoding σ} {bytes : Latch σ} {b : UInt8} {d : Decoder}

theorem advance_of_end (h : Pull.pull s.bytes = (none, bytes)) :
    s.advance = { s with bytes }.finish := by
  rw [Latch.pull_eq] at h
  rw [advance]
  split <;> rename_i heq <;> rw [h] at heq <;> cases heq
  rfl

theorem advance_of_offer_none (h : Pull.pull s.bytes = (some b, bytes))
    (ho : s.decoder.offer b = (none, d)) :
    s.advance = { s with bytes, decoder := d }.advance := by
  rw [Latch.pull_eq] at h
  rw [advance]
  split <;> rename_i heq <;> rw [h] at heq <;> cases heq
  simp only [ho]

theorem advance_of_offer_some {item : Item} (h : Pull.pull s.bytes = (some b, bytes))
    (ho : s.decoder.offer b = (some item, d)) :
    s.advance = { s with bytes, decoder := d }.answer item := by
  rw [Latch.pull_eq] at h
  rw [advance]
  split <;> rename_i heq <;> rw [h] at heq <;> cases heq
  cases item <;> simp only [ho] <;> rfl

end Advance

/-- Where the bytes complete an item, exactly these are pulled. -/
theorem advance_of_some {s : Decoding σ} {item : Item} {f : Batch}
    (h : s.batch.next = (some item, f)) :
    ∃ n ≤ (Pull.elements s.bytes).length, f.bytes = (Pull.elements s.bytes).drop n ∧
      s.advance =
        { s with bytes := (Pull.take n s.bytes).2, decoder := f.decoder }.answer item := by
  -- On the bytes still to be pulled, of which the decoder takes one at a time.
  generalize hbs : Pull.elements s.bytes = bs
  induction bs generalizing s with
  | nil =>
    rw [batch, hbs] at h
    cases h
  | cons b bs ih =>
    obtain ⟨bytes, hn, hrest⟩ := Pull.exists_of_elements_cons hbs
    rw [batch, hbs] at h
    cases ho : s.decoder.offer b with
    | mk first d =>
      cases first with
      | some it =>
        rw [Batch.next_of_some ho] at h
        cases h
        refine ⟨1, by simp, rfl, ?_⟩
        rw [advance_of_offer_some hn ho, Pull.take_of_some hn]
        rfl
      | none =>
        rw [Batch.next_of_none ho, ← hrest] at h
        obtain ⟨n, hle, hdrop, hadv⟩ := ih (s := { s with bytes, decoder := d }) h hrest
        refine ⟨n + 1, Nat.succ_le_succ hle, hdrop, ?_⟩
        rw [advance_of_offer_none hn ho, hadv, Pull.take_of_some hn]

/-- Where they complete none, all of them are. -/
theorem advance_of_none {s : Decoding σ} {f : Batch} (h : s.batch.next = (none, f)) :
    s.advance = { s with bytes := (Pull.collect s.bytes).2, decoder := f.decoder }.finish := by
  generalize hbs : Pull.elements s.bytes = bs
  induction bs generalizing s with
  | nil =>
    obtain ⟨bytes, hn⟩ := Pull.exists_of_elements_nil hbs
    rw [batch, hbs] at h
    cases h
    rw [advance_of_end hn, Pull.collect_of_none hn]
  | cons b bs ih =>
    obtain ⟨bytes, hn, hrest⟩ := Pull.exists_of_elements_cons hbs
    rw [batch, hbs] at h
    cases ho : s.decoder.offer b with
    | mk first d =>
      cases first with
      | some it =>
        rw [Batch.next_of_some ho] at h
        cases h
      | none =>
        rw [Batch.next_of_none ho, ← hrest] at h
        rw [advance_of_offer_none hn ho, ih (s := { s with bytes, decoder := d }) h hrest,
          Pull.collect_of_some hn]

theorem pull_of_finished {s : Decoding σ} (h : s.finished = true) : Pull.pull s = (none, s) := by
  simp [pull_eq, next, h]

/-! ## Reporting -/

/-- The decoding reports errors and has not come to the end of its bytes. -/
structure Reporting (s : Decoding σ) : Prop where
  policy : s.policy = .report
  finished : s.finished = false

namespace Reporting

omit [FinitePull σ UInt8] in
theorem resume (d : Decoder) (bytes : σ) : Reporting (Decoding.resume d bytes) := ⟨rfl, rfl⟩

omit [FinitePull σ UInt8] in
theorem start (bytes : σ) : Reporting (Decoding.start .report bytes) := ⟨rfl, rfl⟩

variable {s : Decoding σ} (hs : Reporting s)

include hs

theorem pull_eq_advance : Pull.pull s = s.advance := by
  simp [pull_eq, next, hs.finished]

theorem answer_eq (item : Item) : ∃ t, s.answer item = (some item, t) ∧ Reporting t ∧
    t.batch = s.batch ∧ t.bytes = s.bytes := by
  obtain ⟨hp, hf⟩ := hs
  cases item with
  | ok c => exact ⟨s, rfl, ⟨hp, hf⟩, rfl, rfl⟩
  | error e =>
    refine ⟨(s.answerError e).2, ?_, ⟨hp, ?_⟩, rfl, rfl⟩
    · simp [answer, answerError, hp, Policy.apply]
    · simp [answerError, hp, hf]

theorem pull_of_some {item : Item} {f : Batch} (h : s.batch.next = (some item, f)) :
    ∃ n t, Pull.pull s = (some item, t) ∧ Reporting t ∧ t.batch = f ∧
      n ≤ (Pull.elements s.bytes).length ∧ t.bytes = (Pull.take n s.bytes).2 := by
  obtain ⟨n, hle, hdrop, hadv⟩ := advance_of_some h
  have hs' : Reporting { s with bytes := (Pull.take n s.bytes).2, decoder := f.decoder } :=
    ⟨hs.policy, hs.finished⟩
  obtain ⟨t, ha, ht, hbatch, hbytes⟩ := hs'.answer_eq item
  refine ⟨n, t, by rw [hs.pull_eq_advance, hadv, ha], ht, ?_, hle, hbytes⟩
  rw [hbatch, batch, Pull.elements_take hle, ← hdrop]

theorem pull_of_none {f : Batch} (h : s.batch.next = (none, f)) :
    ∃ t, Pull.pull s = (f.decoder.finish?.map Except.error, t) ∧ t.finished = true ∧
      t.decoder = f.decoder ∧ t.bytes = (Pull.collect s.bytes).2 := by
  refine ⟨s.advance.2, ?_⟩
  rw [hs.pull_eq_advance, advance_of_none h]
  cases hend : f.decoder.finish? with
  | none => simp [finish, hend]
  | some e => simp [finish, hend, answerError, hs.policy, Policy.apply]

theorem elements_of_batch {f : Batch} (hf : s.batch = f) :
    Pull.elements s = f.decoder.report f.bytes := by
  induction f using Pull.collect.induct generalizing s with
  | case1 f g hnext =>
    rw [Batch.pull_eq] at hnext
    obtain ⟨t, hp, hfin, -, -⟩ := hs.pull_of_none (hf ▸ hnext)
    rw [Decoder.report, (Batch.offerAll_of_next_none hnext).2, Decoder.ending]
    cases hend : g.decoder.finish? with
    | none =>
      rw [hend] at hp
      exact Pull.elements_of_none hp
    | some e =>
      rw [hend] at hp
      rw [Pull.elements_of_some hp, Pull.elements_of_none (pull_of_finished hfin)]
      rfl
  | case2 f item g hnext ih =>
    rw [Batch.pull_eq] at hnext
    obtain ⟨n, t, hp, ht, hg, -, -⟩ := hs.pull_of_some (hf ▸ hnext)
    rw [Pull.elements_of_some hp, ih ht hg, Decoder.report, Decoder.report,
      Batch.offerAll_of_next_some hnext]
    rfl

/-- A reporting run yields what the bytes complete and the error that their end is. -/
theorem elements_eq : Pull.elements s = s.decoder.report (Pull.elements s.bytes) :=
  hs.elements_of_batch rfl

theorem length_batch_le : (Pull.elements s.batch).length ≤ (Pull.elements s).length := by
  rw [hs.elements_of_batch rfl, Batch.elements_eq, Decoder.report, List.length_append]
  exact Nat.le_add_right _ _

/-- Up to the last item that the bytes complete, the run follows its batch. -/
theorem take {f : Batch} (hf : s.batch = f) {k : Nat} (hk : k ≤ (Pull.elements f).length) :
    ∃ n ≤ (Pull.elements s.bytes).length, Reporting (Pull.take k s).2 ∧
      (Pull.take k s).2.batch = (Pull.take k f).2 ∧
      (Pull.take k s).2.bytes = (Pull.take n s.bytes).2 := by
  induction k generalizing s f with
  | zero => exact ⟨0, Nat.zero_le _, hs, hf, rfl⟩
  | succ k ih =>
    obtain ⟨item, items, hel⟩ := List.exists_cons_of_length_pos (Nat.lt_of_lt_of_le k.succ_pos hk)
    obtain ⟨g, hnext, hg⟩ := Pull.exists_of_elements_cons hel
    rw [hel, ← hg, List.length_cons] at hk
    obtain ⟨m, t, hp, ht, hbatch, hm, hbytes⟩ := hs.pull_of_some (hf ▸ hnext)
    obtain ⟨n, hn, hrep, hleft, hlast⟩ := ih ht hbatch (by omega)
    rw [hbytes, Pull.elements_take hm, List.length_drop] at hn
    rw [Pull.take_of_some hp, Pull.take_of_some hnext]
    refine ⟨m + n, by omega, hrep, hleft, ?_⟩
    rw [hlast, hbytes, Pull.snd_take_add hm]

/-- Past that item, the run has come to the end of the bytes. -/
theorem take_past {k : Nat} (hk : (Pull.elements s.batch).length < k) :
    (Pull.take k s).2.decoder = (s.decoder.offerAll (Pull.elements s.bytes)).2 ∧
      (Pull.take k s).2.bytes = (Pull.collect s.bytes).2 := by
  obtain ⟨n, hn, ht, hbatch, hbytes⟩ := hs.take rfl (Nat.le_refl _)
  have hnil : Pull.elements (Pull.take (Pull.elements s.batch).length s).2.batch = [] := by
    rw [hbatch, Pull.elements_take (Nat.le_refl _), List.drop_length]
  obtain ⟨g, hnext⟩ := Pull.exists_of_elements_nil hnil
  obtain ⟨u, hp, hfin, hdec, hlast⟩ := ht.pull_of_none hnext
  have hg : g = (Pull.collect s.batch).2 := by
    rw [← Pull.snd_collect_take (Nat.le_refl _), ← hbatch, Pull.collect_of_none hnext]
  -- The run has finished after one request more, and stays there for the others.
  have hstays : (Pull.take k s).2 = u := by
    obtain ⟨j, rfl⟩ := Nat.exists_eq_add_of_lt hk
    rw [Nat.add_assoc, Pull.snd_take_add hs.length_batch_le,
      Pull.snd_take_of_stays hp (pull_of_finished hfin)]
  rw [hstays, hdec, hlast, hbytes, Pull.snd_collect_take hn, hg, Batch.collect_eq]
  exact ⟨rfl, rfl⟩

theorem collect : (Pull.collect s).2.decoder = (s.decoder.offerAll (Pull.elements s.bytes)).2 ∧
    (Pull.collect s).2.bytes = (Pull.collect s.bytes).2 := by
  rw [← Pull.take_of_lt (Nat.lt_succ_self _)]
  exact hs.take_past (Nat.lt_succ_of_le hs.length_batch_le)

end Reporting

/-! ## The bytes of a supply -/

namespace Reporting

variable {s : Decoding (Supply UInt8)} (hs : Reporting s) {bs : List UInt8}
  (hserves : Serves bs s.bytes) {k : Nat}

include hs hserves

/-- The bytes that a run has not pulled are those that its batch has left. -/
theorem drop_given {f : Batch} (hf : s.batch = f) (hk : k ≤ (Pull.elements f).length) :
    (Pull.take k s).2.bytes.inner.given ≤ bs.length ∧
      bs.drop (Pull.take k s).2.bytes.inner.given = (Pull.take k f).2.bytes := by
  obtain ⟨n, -, -, hbatch, hbytes⟩ := hs.take hf hk
  have hleft := (hserves.take n).1
  rw [← hbytes] at hleft
  rw [← hleft.elements_eq, ← hbatch]
  exact ⟨hleft.given_le, rfl⟩

theorem given_past (hk : (Pull.elements s.batch).length < k) :
    (Pull.take k s).2.bytes.inner.given = bs.length := by
  rw [(hs.take_past hk).2]
  exact hserves.collect.2

end Reporting

/-- A resumed run yields the items of the bytes that it is given. -/
theorem elements_resume (d : Decoder) (bytes : σ) :
    Pull.elements (resume d bytes) = d.report (Pull.elements bytes) := by
  rw [(Reporting.resume d bytes).elements_eq, resume, Latch.elements_mk]

theorem elements_start (bytes : σ) :
    Pull.elements (start .report bytes) = ({} : Decoder).report (Pull.elements bytes) :=
  elements_resume {} bytes

theorem elements_report_ofList (bs : List UInt8) :
    Pull.elements (start .report (Supply.ofList bs)) = ({} : Decoder).report bs := by
  rw [elements_start, Supply.elements_ofList]

theorem decoder_collect_resume (d : Decoder) (bytes : σ) :
    (Pull.collect (resume d bytes)).2.decoder = (d.offerAll (Pull.elements bytes)).2 := by
  rw [(Reporting.resume d bytes).collect.1, resume, Latch.elements_mk]

end Decoding

end Streaming.Utf8
