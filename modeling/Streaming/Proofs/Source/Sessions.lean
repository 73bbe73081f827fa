import Streaming.ChunkReader
import Streaming.Proofs.Source.Turns

/-!
# What a session cannot see

Two sources are indistinct if they remember the same elements, still read the same ones, and are at
one offset with the same notes. How many of the elements are pending, and what the inputs are,
makes no difference. Every operation answers the same on them and leaves sources that are indistinct
again, or is broken off by the same fault, or goes on for ever on both (`Indistinct.perform`); so a
session sees the same (`Indistinct.session`).

A source over chunks and one over their elements are indistinct, and so are a source and what it is
after a look ahead.
-/

namespace Streaming

universe u u' v w x

variable {σ : Type u} {ρ : Type u'} {α : Type v} {τ : Type w} {β : Type x} [FinitePull σ α]
  [FinitePull ρ α]

namespace Source

theorem Alike.of_eq {s : Source σ α} {t : Source ρ α} (hrecent : t.recent = s.recent)
    (hremaining : t.remaining = s.remaining) (hpassed : t.passed = s.passed) : s.Alike 0 t :=
  ⟨hrecent, hremaining, by rw [hpassed, Int.add_zero]⟩

/-! ## Indistinct sources -/

/-- Sources that no operation tells apart. -/
structure Indistinct (s : Source σ α) (t : Source ρ α) : Prop where
  alike : s.Alike 0 t
  notices_eq : t.notices = s.notices

/-- The same answer, with sources that are indistinct. -/
structure Same {ε : Type x} (a : ε × Source σ α) (b : ε × Source ρ α) : Prop where
  answer_eq : b.1 = a.1
  indistinct : a.2.Indistinct b.2

namespace Indistinct

variable {s : Source σ α} {t : Source ρ α}

theorem refl (s : Source σ α) : s.Indistinct s := ⟨.of_eq rfl rfl rfl, rfl⟩

theorem trans {u : Source σ α} (h : s.Indistinct t) (h' : t.Indistinct u) : s.Indistinct u := by
  have hpassed := h.alike.passed_eq
  have hpassed' := h'.alike.passed_eq
  exact ⟨.of_eq (h'.alike.recent_eq.trans h.alike.recent_eq)
    (h'.alike.remaining_eq.trans h.alike.remaining_eq) (by omega),
    h'.notices_eq.trans h.notices_eq⟩

theorem offset_eq (h : s.Indistinct t) : t.offset = s.offset := by
  have := h.alike.offset_eq
  omega

theorem fetch (h : s.Indistinct t) {answer : Option α} {s' : Source σ α}
    (hs : s.fetch = (answer, s')) : ∃ t', t.fetch = (answer, t') ∧ s'.Indistinct t' := by
  obtain ⟨hanswer, halike⟩ := h.alike.fetch
  have hnotices : t.fetch.2.notices = s.fetch.2.notices := by
    rw [notices_fetch, notices_fetch, h.notices_eq]
  rw [hs] at hanswer halike hnotices
  exact ⟨t.fetch.2, Prod.ext hanswer rfl, halike, hnotices⟩

theorem pass (h : s.Indistinct t) : s.pass.Indistinct t.pass := by
  have hpassed := h.alike.passed_eq
  exact ⟨.of_eq h.alike.recent_eq h.alike.remaining_eq (by simp only [Source.pass]; omega),
    h.notices_eq⟩

theorem putBack (h : s.Indistinct t) (a : α) :
    Indistinct { s with pending := a :: s.pending } { t with pending := a :: t.pending } :=
  ⟨⟨h.alike.recent_eq, congrArg (a :: ·) h.alike.remaining_eq, h.alike.passed_eq⟩, h.notices_eq⟩

theorem settle (h : s.Indistinct t) : s.settle.Indistinct t.settle :=
  ⟨.of_eq rfl h.alike.remaining_eq h.offset_eq, h.notices_eq⟩

theorem note (h : s.Indistinct t) (n : Notice) : (s.note n).Indistinct (t.note n) :=
  ⟨⟨h.alike.recent_eq, h.alike.remaining_eq, h.alike.passed_eq⟩,
    congrArg (· ++ [n]) h.notices_eq⟩

theorem next (h : s.Indistinct t) : Same s.next t.next := by
  cases hs : s.fetch with
  | mk answer s' =>
    obtain ⟨t', ht, h'⟩ := h.fetch hs
    unfold Source.next
    rw [hs, ht]
    cases answer with
    | none => exact ⟨rfl, h'⟩
    | some a => exact ⟨rfl, h'.pass⟩

theorem peek (h : s.Indistinct t) : Same s.peek t.peek := by
  cases hs : s.fetch with
  | mk answer s' =>
    obtain ⟨t', ht, h'⟩ := h.fetch hs
    unfold Source.peek
    rw [hs, ht]
    cases answer with
    | none => exact ⟨rfl, h'⟩
    | some a => exact ⟨rfl, h'.putBack a⟩

theorem atEnd (h : s.Indistinct t) : Same s.atEnd t.atEnd :=
  ⟨congrArg Option.isNone h.peek.answer_eq, h.peek.indistinct⟩

theorem dropWhile (q : α → Bool) (h : s.Indistinct t) : Same (s.dropWhile q) (t.dropWhile q) := by
  fun_induction Source.dropWhile q s generalizing t with
  | case1 s s' hs =>
    obtain ⟨t', ht, h'⟩ := h.fetch hs
    rw [dropWhile_of_fetch_none ht]
    exact ⟨rfl, h'⟩
  | case2 s a s' hs hq dropped =>
    rename_i ih
    obtain ⟨t', ht, h'⟩ := h.fetch hs
    have hsame := ih h'.pass
    rw [dropWhile_of_fetch_some ht, if_pos hq]
    exact ⟨congrArg (· + 1) hsame.answer_eq, hsame.indistinct⟩
  | case3 s a s' hs hq =>
    obtain ⟨t', ht, h'⟩ := h.fetch hs
    rw [dropWhile_of_fetch_some ht, if_neg hq]
    exact ⟨rfl, h'.putBack a⟩

/-! ## Runs -/

theorem run (h : s.Indistinct t) (p : Parser α τ β) : Option.Rel Same (s.run p) (t.run p) := by
  refine rel_imp (h.settle.alike.run_rel p) fun a b hs ht hab => ⟨hab.1, hab.2, ?_⟩
  rw [notices_run hs, notices_run ht, h.notices_eq]

theorem conclude (p : Parser α τ β) {a : Except Fault τ × Source σ α}
    {b : Except Fault τ × Source ρ α} (h : Same a b) :
    Same (Source.conclude p a) (Source.conclude p b) := by
  obtain ⟨outcome, s⟩ := a
  obtain ⟨outcome', t⟩ := b
  obtain ⟨rfl, h⟩ := h
  cases outcome' with
  | error f => exact ⟨rfl, h⟩
  | ok state =>
    simp only [Source.conclude]
    cases p.finish state with
    | error f => exact ⟨rfl, h.settle⟩
    | ok answer =>
      cases answer with
      | ok b => exact ⟨rfl, h.settle⟩
      | error e =>
        simp only [h.offset_eq]
        exact ⟨rfl, h.settle.note _⟩

theorem parse (h : s.Indistinct t) (p : Parser α τ β) :
    Option.Rel Same (s.parse p) (t.parse p) :=
  rel_map (h.run p) fun _ _ => conclude p

end Indistinct

end Source

/-! ## Repetitions -/

namespace Repetition

/-- Repetitions of one parser that have come equally far, on sources that are indistinct. -/
structure Indistinct (r : Repetition σ α τ β) (q : Repetition ρ α τ β) : Prop where
  source : r.source.Indistinct q.source
  parser_eq : q.parser = r.parser
  done_eq : q.done = r.done
  fault_eq : q.fault = r.fault

/-- The same answer, with repetitions that are indistinct. -/
structure Same {ε : Type x} (a : ε × Repetition σ α τ β) (b : ε × Repetition ρ α τ β) :
    Prop where
  answer_eq : b.1 = a.1
  indistinct : a.2.Indistinct b.2

namespace Indistinct

variable {r : Repetition σ α τ β} {q : Repetition ρ α τ β}

theorem keep (h : r.Indistinct q) {a : Except Fault (Except ParseError β) × Source σ α}
    {b : Except Fault (Except ParseError β) × Source ρ α} (hab : Source.Same a b) :
    Same (r.keep a) (q.keep b) := by
  obtain ⟨outcome, s⟩ := a
  obtain ⟨outcome', t⟩ := b
  obtain ⟨rfl, hst⟩ := hab
  match outcome' with
  | .error f => exact ⟨rfl, hst, h.parser_eq, rfl, rfl⟩
  | .ok (.error e) => exact ⟨rfl, hst, h.parser_eq, rfl, h.fault_eq⟩
  | .ok (.ok b) =>
    have hoff := h.source.offset_eq
    have hoff' := hst.offset_eq
    simp only at hoff'
    simp only [Repetition.keep, hoff, hoff']
    split
    · exact ⟨rfl, hst.note _, h.parser_eq, rfl, h.fault_eq⟩
    · exact ⟨rfl, hst, h.parser_eq, h.done_eq, h.fault_eq⟩

theorem again (h : r.Indistinct q) : Option.Rel Same r.again q.again := by
  unfold Repetition.again
  rw [h.parser_eq]
  exact rel_map (h.source.parse r.parser) fun _ _ => h.keep

theorem next (h : r.Indistinct q) : Option.Rel Same r.next q.next := by
  unfold Repetition.next
  by_cases hdone : r.done = true
  · rw [if_pos hdone, if_pos (h.done_eq.trans hdone)]
    exact .some ⟨rfl, h⟩
  · rw [if_neg hdone, if_neg (h.done_eq ▸ hdone)]
    have hend := h.source.atEnd
    cases hs : r.source.atEnd with
    | mk ended s =>
      cases ht : q.source.atEnd with
      | mk ended' t =>
        rw [hs, ht] at hend
        obtain ⟨rfl, hst⟩ := hend
        have h' : Indistinct { r with source := s } { q with source := t } :=
          ⟨hst, h.parser_eq, h.done_eq, h.fault_eq⟩
        cases ended' with
        | true => exact .some ⟨rfl, h'⟩
        | false => exact h'.again

theorem answers (h : r.Indistinct q) (n : Nat) : Option.Rel Same (r.answers n) (q.answers n) := by
  induction n generalizing r q with
  | zero => exact .some ⟨rfl, h⟩
  | succ n ih =>
    refine rel_bind h.next fun a b hfirst => ?_
    refine rel_map (ih hfirst.indistinct) fun a b hrest => ?_
    exact ⟨by rw [hfirst.answer_eq, hrest.answer_eq], hrest.indistinct⟩

end Indistinct

end Repetition

/-! ## Sessions -/

namespace Source

theorem Indistinct.perform {s : Source σ α} {t : Source ρ α} (h : s.Indistinct t)
    (op : Operation α) : Option.Rel Same (s.perform op) (t.perform op) := by
  cases op with
  | next => exact .some ⟨by rw [h.next.answer_eq], h.next.indistinct⟩
  | peek => exact .some ⟨by rw [h.peek.answer_eq], h.peek.indistinct⟩
  | atEnd => exact .some ⟨by rw [h.atEnd.answer_eq], h.atEnd.indistinct⟩
  | dropWhile q =>
    rw [Source.perform, Source.perform, skip_eq_dropWhile, skip_eq_dropWhile]
    refine rel_map (.some (h.dropWhile q)) fun a b hab => ?_
    exact ⟨by rw [hab.answer_eq], hab.indistinct⟩
  | parse p =>
    refine rel_map (h.parse p) fun a b hab => ?_
    exact ⟨by rw [hab.answer_eq], hab.indistinct⟩
  | repeated p requests =>
    have hstart : (Repetition.start p s).Indistinct (Repetition.start p t) := ⟨h, rfl, rfl, rfl⟩
    refine rel_map (hstart.answers requests) fun a b hab => ?_
    rw [hab.indistinct.fault_eq]
    cases a.2.fault with
    | none => exact ⟨by rw [hab.answer_eq], hab.indistinct.source⟩
    | some f => exact ⟨rfl, hab.indistinct.source⟩

/-- Sessions see the same on sources that are indistinct. -/
theorem Indistinct.session {s : Source σ α} {t : Source ρ α} (h : s.Indistinct t)
    (ops : List (Operation α)) : t.session ops = s.session ops := by
  induction ops generalizing s t with
  | nil => rfl
  | cons op ops ih =>
    have hop := h.perform op
    unfold Source.session
    revert hop
    generalize s.perform op = x
    generalize t.perform op = y
    intro hop
    cases hop with
    | none => rfl
    | @some a b hab =>
      obtain ⟨answer, s'⟩ := a
      obtain ⟨answer', t'⟩ := b
      obtain ⟨rfl, h'⟩ := hab
      have hoff := h'.offset_eq
      have hnotices := h'.notices_eq
      simp only at hoff hnotices
      cases answer' with
      | error f => simp only [hoff, hnotices]
      | ok a => simp only [hoff, hnotices, ih h']

/-! ## Cuts and looks -/

theorem Indistinct.ofInput {a : σ} {b : ρ} (h : Pull.elements b = Pull.elements a) :
    (Source.ofInput a).Indistinct (Source.ofInput b) := by
  have hinput : Pull.elements (Latch.mk b false) = Pull.elements (Latch.mk a false) := by
    rw [Latch.elements_mk, Latch.elements_mk, h]
  exact ⟨.of_eq rfl hinput rfl, rfl⟩

theorem indistinct_peek (s : Source σ α) : s.Indistinct s.peek.2 := by
  have hrecent := recent_fetch s
  have hpassed := passed_fetch s
  have hnotices := notices_fetch s
  unfold Source.peek
  split
  · rename_i t hf
    rw [hf] at hrecent hpassed hnotices
    obtain ⟨hs, ht⟩ := remaining_of_fetch_none hf
    exact ⟨.of_eq hrecent (ht.trans hs.symm) hpassed, hnotices⟩
  · rename_i a t hf
    rw [hf] at hrecent hpassed hnotices
    have hs := remaining_of_fetch_some hf
    exact ⟨.of_eq hrecent hs.symm hpassed, hnotices⟩

/-- An operation that only looks. -/
inductive Look where
  | peek
  | atEnd

def Look.operation : Look → Operation.{v, w} α
  | .peek => .peek
  | .atEnd => .atEnd

theorem perform_look (s : Source σ α) (l : Look) :
    ∃ a, s.perform l.operation = some (.ok a, s.peek.2) := by
  cases l with
  | peek => exact ⟨_, rfl⟩
  | atEnd => exact ⟨_, rfl⟩

/-- The operations of a session with looks put in. -/
def performed (calls : List (Operation.{v, w} α ⊕ Look)) : List (Operation.{v, w} α) :=
  calls.map (Sum.elim id Look.operation)

/-- The operations of a session without the looks put in. -/
def intended (calls : List (Operation.{v, w} α ⊕ Look)) : List (Operation.{v, w} α) :=
  calls.filterMap Sum.getLeft?

/-- What is seen, call by call, without what belongs to the looks put in. -/
def withoutLooks {ε : Type x} (calls : List (Operation.{v, w} α ⊕ Look)) (seen : List ε) : List ε :=
  (calls.zip seen).filterMap fun c => c.1.getLeft?.map fun _ => c.2

/-- Looks put into a session change nothing that it sees. -/
theorem withoutLooks_session (s : Source σ α) (calls : List (Operation.{v, w} α ⊕ Look)) :
    withoutLooks calls (s.session (performed calls)) = s.session (intended calls) := by
  induction calls generalizing s with
  | nil => rfl
  | cons call calls ih =>
    cases call with
    | inr l =>
      obtain ⟨a, ha⟩ := perform_look s l
      have hlook : s.session (performed (.inr l :: calls)) =
          some ⟨.ok a, s.peek.2.offset, s.peek.2.notices⟩ ::
            s.peek.2.session (performed calls) := by
        rw [performed, List.map_cons, Sum.elim_inr, session, ha]
        rfl
      rw [hlook]
      exact (ih s.peek.2).trans ((indistinct_peek s).session _)
    | inl op =>
      show withoutLooks _ (s.session (op :: performed calls)) = s.session (op :: intended calls)
      unfold session
      cases s.perform op with
      | none => simp [withoutLooks]
      | some r =>
        obtain ⟨answer, t⟩ := r
        cases answer with
        | error f => simp [withoutLooks]
        | ok a =>
          simp only
          rw [← ih t]
          rfl

/-- **Neither cuts nor looks are seen.** A session sees the same on chunks as on their elements end
to end, and the same whether looks are put in or not; so does the run of a parser. -/
theorem cuts_and_looks_invisible {σ : Type u} [FinitePull σ (List α)] (chunks : σ) :
    let cut : Source (ChunkReader σ α) α := .ofInput { chunks }
    let whole : Source (Supply α) α := .ofInput (.ofList (Pull.elements chunks).flatten)
    (∀ ops : List (Operation.{v, w} α), cut.session ops = whole.session ops) ∧
      (∀ calls : List (Operation.{v, w} α ⊕ Look),
        withoutLooks calls (cut.session (performed calls)) = cut.session (intended calls) ∧
        withoutLooks calls (whole.session (performed calls)) = whole.session (intended calls)) ∧
      ∀ {τ : Type w} {β : Type x} (p : Parser α τ β),
        (cut.parse p).map Prod.fst = (whole.parse p).map Prod.fst := by
  intro cut whole
  have h : whole.Indistinct cut := by
    apply Indistinct.ofInput
    rw [ChunkReader.elements_mk, Supply.elements_ofList]
  refine ⟨h.session, ?_, ?_⟩
  · intro calls
    exact ⟨withoutLooks_session cut calls, withoutLooks_session whole calls⟩
  · intro τ β p
    exact map_eq_of_rel (h.parse p) fun _ _ hab => hab.answer_eq

end Source

end Streaming
