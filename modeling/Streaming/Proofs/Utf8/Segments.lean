import Streaming.Proofs.Utf8.Automaton

/-!
# The segments of a reporting run

A reporting run cuts its input into one segment for each item: a well-formed sequence for a
character, the bytes of an unfinished sequence with the byte that cannot go on with it for a refused
byte, and the unfinished sequence at the end (`Stands`). No byte is lost or used twice, no other cut
of the input has segments like these (`Cuts.unique`), and each item comes before any byte beyond its
segment is pulled (`report_cuts`).
-/

namespace Streaming.Utf8

/-- The item stands for the segment. -/
inductive Stands : List UInt8 → Item → Prop where
  /-- A sequence, for the character that it encodes. -/
  | scalar {s : List UInt8} {c : Char} (hs : Encodes s c) : Stands s (.ok c)
  /-- The bytes of an unfinished sequence and one that no sequence goes on with, for the error with
  that byte and the decoder that has been fed the bytes before it. -/
  | invalid {w : List UInt8} {b : UInt8} {d : Decoder} (hlen : w.length ≤ 3) (hw : Unfinished w)
    (hd : (({} : Decoder).offerAll w).2 = d) (hb : ¬ Viable (w ++ [b])) :
    Stands (w ++ [b]) (.error (.invalidByte b d))
  /-- The bytes of an unfinished sequence, for the error with the decoder that has been fed them. -/
  | incomplete {w : List UInt8} {d : Decoder} (hne : w ≠ []) (hw : Unfinished w)
    (hd : (({} : Decoder).offerAll w).2 = d) : Stands w (.error (.incomplete d))

/-- The segments make up the bytes and the items stand for them, an unfinished end for the last. -/
structure Cuts (bs : List UInt8) (ss : List (List UInt8)) (items : List Item) : Prop where
  flatten : ss.flatten = bs
  stands : List.Forall₂ Stands ss items
  last : ∀ item ∈ items.dropLast, isIncomplete item = false

/-! ## There is one way to cut -/

theorem Viable.of_append {v t : List UInt8} (h : Viable (v ++ t)) : Viable v := by
  obtain ⟨u, hu⟩ := h
  exact ⟨t ++ u, by rwa [← List.append_assoc]⟩

theorem Stands.ne_nil {s : List UInt8} {item : Item} (h : Stands s item) : s ≠ [] := by
  cases h with
  | scalar hs =>
    rintro rfl
    exact not_wellFormed_nil hs.1
  | invalid _ _ _ _ => simp
  | incomplete hne _ _ => exact hne

/-- No segment of an item begins another one of it. -/
theorem Stands.eq_nil_of_append {s t : List UInt8} {item : Item} (h : Stands s item)
    (h' : Stands (s ++ t) item) (hend : isIncomplete item = false) : t = [] := by
  generalize hq : s ++ t = q at h'
  cases h with
  | scalar hs =>
    cases h' with
    | scalar hs' => exact hs.1.eq_nil_of_append (hq ▸ hs'.1)
  | @invalid w b d _ _ _ hb =>
    cases h' with
    | @invalid w' _ _ _ hw' _ _ =>
      cases t using List.reverseRecOn with
      | nil => rfl
      | append_singleton t c _ =>
        -- The byte that was refused would be inside an unfinished sequence.
        rw [← List.append_assoc] at hq
        have hpre := List.append_inj_left' hq rfl
        have hv := hw'.viable
        rw [← hpre] at hv
        exact absurd hv.of_append hb
  | incomplete _ _ _ => cases hend

theorem Stands.eq_of_append {s s' t t' : List UInt8} {item : Item} (h : Stands s item)
    (h' : Stands s' item) (hend : isIncomplete item = false) (heq : s ++ t = s' ++ t') :
    s = s' := by
  obtain ⟨u, rfl, -⟩ | ⟨u, rfl, -⟩ := List.append_eq_append_iff.mp heq
  · rw [h.eq_nil_of_append h' hend, List.append_nil]
  · rw [h'.eq_nil_of_append h hend, List.append_nil]

namespace Cuts

theorem nil : Cuts [] [] [] := ⟨rfl, .nil, by simp⟩

theorem singleton {s : List UInt8} {item : Item} (h : Stands s item) : Cuts s [s] [item] :=
  ⟨by simp, .cons h .nil, by simp⟩

theorem cons {s bs : List UInt8} {item : Item} {ss : List (List UInt8)} {items : List Item}
    (hs : Stands s item) (hend : isIncomplete item = false) (h : Cuts bs ss items) :
    Cuts (s ++ bs) (s :: ss) (item :: items) := by
  refine ⟨by rw [List.flatten_cons, h.flatten], .cons hs h.stands, ?_⟩
  cases items with
  | nil => simp
  | cons next items =>
    rw [List.dropLast_cons_cons]
    intro it hit
    rcases List.mem_cons.mp hit with rfl | hit
    · exact hend
    · exact h.last it hit

theorem tail {s : List UInt8} {item : Item} {bs : List UInt8} {ss : List (List UInt8)}
    {items : List Item} (h : Cuts bs (s :: ss) (item :: items)) : Cuts ss.flatten ss items := by
  obtain ⟨-, hs, hlast⟩ := h
  cases hs with
  | cons _ hs =>
    refine ⟨rfl, hs, fun it hit => hlast it ?_⟩
    cases items with
    | nil => cases hit
    | cons _ _ => exact List.mem_cons_of_mem _ hit

theorem head_not_incomplete {item next : Item} {bs : List UInt8} {ss : List (List UInt8)}
    {items : List Item} (h : Cuts bs ss (item :: next :: items)) : isIncomplete item = false :=
  h.last item (List.mem_cons_self ..)

theorem nil_of_incomplete {s : List UInt8} {item : Item} {bs : List UInt8} {ss : List (List UInt8)}
    {items : List Item} (h : Cuts bs (s :: ss) (item :: items)) (hend : isIncomplete item = true) :
    ss.flatten = [] := by
  cases items with
  | nil =>
    cases h.tail.stands
    rfl
  | cons next items =>
    rw [h.head_not_incomplete] at hend
    cases hend

/-- The segments are determined by the bytes and the items. -/
theorem unique {bs : List UInt8} {ss ss' : List (List UInt8)} {items : List Item}
    (h : Cuts bs ss items) (h' : Cuts bs ss' items) : ss' = ss := by
  induction items generalizing bs ss ss' with
  | nil =>
    cases h.stands
    cases h'.stands
    rfl
  | cons item items ih =>
    obtain ⟨s, rest, hs, hrest, rfl⟩ := List.forall₂_cons_right_iff.mp h.stands
    obtain ⟨s', rest', hs', hrest', rfl⟩ := List.forall₂_cons_right_iff.mp h'.stands
    have heq : s ++ rest.flatten = s' ++ rest'.flatten := h.flatten.trans h'.flatten.symm
    -- The last segment is all that is left; a segment before it is the only one of its item here.
    cases items with
    | nil =>
      cases hrest
      cases hrest'
      simp only [List.flatten_nil, List.append_nil] at heq
      rw [heq]
    | cons next items =>
      obtain rfl := hs.eq_of_append hs' h.head_not_incomplete heq
      have hflat := List.append_cancel_left heq
      have htail' := h'.tail
      rw [← hflat] at htail'
      rw [ih h.tail htail']

end Cuts

/-! ## The cut of a run -/

theorem Pending.stands_of_offer {w : List UInt8} {b : UInt8} {d d' : Decoder} {item : Item}
    (h : Pending w d) (ho : d.offer b = (some item, d')) : Stands (w ++ [b]) item ∧ d' = {} := by
  have hfed : (({} : Decoder).offerAll w).2 = d := by rw [h]
  cases h.offered b with
  | more ho' _ =>
    rw [ho] at ho'
    cases ho'
  | scalar ho' hc =>
    rw [ho] at ho'
    cases ho'
    exact ⟨.scalar hc, rfl⟩
  | refused ho' hv =>
    rw [ho] at ho'
    cases ho'
    exact ⟨.invalid h.length_le h.unfinished hfed hv, rfl⟩

/-- What a fresh decoder leaves of its bytes after some items are the bytes after their segments. -/
theorem exists_cuts {f : Batch} (hf : f.decoder = {}) :
    ∃ ss, Cuts f.bytes ss (({} : Decoder).report f.bytes) ∧
      ∀ i ≤ (Pull.elements f).length, (ss.take i).flatten ++ (Pull.take i f).2.bytes = f.bytes := by
  induction f using Pull.collect.induct with
  | case1 f g hnext =>
    rw [Batch.pull_eq] at hnext
    have hpend : Pending f.bytes g.decoder := by
      have := (Batch.offerAll_of_next_none hnext).2
      rwa [hf] at this
    have htake : ∀ (ss : List (List UInt8)), ∀ i ≤ (Pull.elements f).length,
        (ss.take i).flatten ++ (Pull.take i f).2.bytes = f.bytes := by
      intro ss i hi
      rw [Pull.elements_of_none hnext] at hi
      obtain rfl := Nat.le_zero.mp hi
      rfl
    have hreport : ({} : Decoder).report f.bytes = g.decoder.ending := by
      rw [Decoder.report, hpend]
      rfl
    rw [hreport, Decoder.ending, hpend.finish?_eq]
    by_cases hnil : f.bytes = []
    · rw [if_pos hnil, hnil]
      exact ⟨[], .nil, hnil ▸ htake []⟩
    · rw [if_neg hnil]
      have hs : Stands f.bytes (.error (.incomplete g.decoder)) :=
        .incomplete hnil hpend.unfinished (by rw [hpend])
      exact ⟨[f.bytes], .singleton hs, htake _⟩
  | case2 f item g hnext ih =>
    rw [Batch.pull_eq] at hnext
    obtain ⟨w, b, d, hbytes, hw, ho⟩ := Batch.exists_of_next_some hnext
    rw [hf] at hw
    obtain ⟨hs, hfresh⟩ := Pending.stands_of_offer hw ho
    obtain ⟨ss, hcuts, htake⟩ := ih hfresh
    refine ⟨(w ++ [b]) :: ss, ?_, ?_⟩
    · have hreport : ({} : Decoder).report f.bytes = item :: ({} : Decoder).report g.bytes := by
        have hall := Batch.offerAll_of_next_some hnext
        rw [hf, hfresh] at hall
        rw [Decoder.report, hall]
        rfl
      rw [hreport, hbytes]
      have := hcuts.cons hs (isIncomplete_of_offer ho)
      rwa [List.append_assoc] at this
    · intro i hi
      cases i with
      | zero => rfl
      | succ i =>
        rw [Pull.elements_of_some hnext, List.length_cons] at hi
        rw [Pull.take_of_some hnext]
        have := htake i (by omega)
        rw [List.take_succ_cons, List.flatten_cons, List.append_assoc, List.append_assoc, this,
          hbytes]
        rfl

/-- **Reporting cuts the input.** There is exactly one way to cut the input into segments that the
items of a reporting run stand for, and when `i` items have been answered, the bytes of their
segments and no others have been pulled. -/
theorem report_cuts (bs : List UInt8) :
    let run := Decoding.start .report (Supply.ofList bs)
    ∃ ss, Cuts bs ss (Pull.elements run) ∧
      (∀ ss', Cuts bs ss' (Pull.elements run) → ss' = ss) ∧
      ∀ i ≤ (Pull.elements run).length,
        (Pull.take i run).2.bytes.inner.given = (ss.take i).flatten.length := by
  intro run
  have hrun : Decoding.Reporting run := .start _
  have hserves : Serves bs run.bytes := .ofList bs
  have hbatch : run.batch = ⟨{}, bs⟩ := by
    rw [Decoding.batch, hserves.elements_eq]
    rfl
  have hel : Pull.elements run = ({} : Decoder).report bs := by
    rw [Decoding.elements_start, Supply.elements_ofList]
  obtain ⟨ss, hcuts, htake⟩ : ∃ ss, Cuts bs ss (({} : Decoder).report bs) ∧
      ∀ i ≤ (Pull.elements (⟨{}, bs⟩ : Batch)).length,
        (ss.take i).flatten ++ (Pull.take i (⟨{}, bs⟩ : Batch)).2.bytes = bs :=
    exists_cuts (f := ⟨{}, bs⟩) rfl
  rw [hel]
  refine ⟨ss, hcuts, fun ss' h' => hcuts.unique h', fun i hi => ?_⟩
  by_cases hlast : i ≤ (Pull.elements (⟨{}, bs⟩ : Batch)).length
  · obtain ⟨hle, hleft⟩ := hrun.drop_given hserves hbatch hlast
    have hlen := congrArg List.length (htake i hlast)
    rw [← hleft, List.length_append, List.length_drop] at hlen
    omega
  · have hgiven := hrun.given_past hserves (k := i) (by rw [hbatch]; omega)
    have hall : ss.length ≤ i := by
      have hone := length_ending_le (({} : Decoder).offerAll bs).2
      rw [Batch.elements_eq] at hlast
      change ¬ i ≤ (({} : Decoder).offerAll bs).1.length at hlast
      rw [hcuts.stands.length_eq, Decoder.report, List.length_append]
      omega
    rw [hgiven, List.take_of_length_le hall, hcuts.flatten]

end Streaming.Utf8
